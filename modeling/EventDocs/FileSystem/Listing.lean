import EventDocs.FileSystem

/-
All files below a directory that are worth reading, in the order of their paths.
Directories that hold what was built or fetched are passed over, as are a few
files by name, and those whose path got too long. Only what lies below the
directory counts: its own name and the names above it do not.
-/

namespace EventDocs

/-- A file that was found. -/
structure ListedFile where
  name : String
  path : String
  /-- The extension without the dot; empty if there is none. -/
  extension : String
deriving DecidableEq, Repr

namespace Listing

/-- Nothing below these directories is listed. -/
def skippedDirectories : List String :=
  ["bin", "dist", "node_modules", ".cache", ".terraform", ".git", "obj", "target"]

/-- These files are not listed. -/
def skippedFiles : List String := [".DS_Store", ".dockerignore", ".gitignore"]

/-- Is a file to be passed over, by the steps that lead to it? -/
def isSkipped (steps : List Path.Component) : Bool :=
  match steps.getLast? with
  | none => true
  | some last =>
    skippedFiles.contains last.text ||
      steps.dropLast.any fun step => skippedDirectories.contains step.text

/-- The path under which a search below `base` reports what it finds. A search
from the current directory reports bare names, whatever dots led to it; there is
none if an empty segment follows such a dot. -/
def searchPath? (base : String) : Option String :=
  let step (p : String) (s : List Char) : Option String :=
    if p = "." then if s = [] then none else some (.ofList s) else some (Path.join p (.ofList s))
  if Path.isAbsolute base then ((Path.segments base).drop 1).foldlM step "/"
  else (Path.segments base).foldlM step "."

/-- The path of a file that a search found `names` below. -/
def foundPath (search : String) (names : Place) : String :=
  let relative := "/".intercalate names
  if search = "." then relative else Path.join search relative

/-- The names that lead from one place down to another, which lies below it. -/
def below? (base p : Place) : Option Place :=
  if base.isPrefixOf p && base.length < p.length then some (p.drop base.length) else none

/-- Places in order: the first names that differ decide, and a place stands
before those below it. -/
def inOrder : Place → Place → Bool
  | [], _ => true
  | _ :: _, [] => false
  | a :: p, b :: q => a < b || (a = b && inOrder p q)

/-- The files below a place, by the names that lead to them, in order. -/
def filesBelow (fs : FileSystem) (base : Place) : List Place :=
  (fs.entries.filterMap fun
    | (p, .file _) => below? base p
    | (_, .directory) => none).mergeSort inOrder

/-- The file that a search found. -/
def listed (path : String) : ListedFile :=
  let name := (Path.fileName? path).getD ""
  { name, path, extension := Path.extension name }

end Listing

open Listing in
/-- The files below a directory; none if the path leads to no directory. -/
def FileSystem.list? (fs : FileSystem) (base : String) : Option (List ListedFile) :=
  match fs.stat base with
  | .ok (place, .directory) =>
    match searchPath? base with
    | none => some []
    | some search =>
      let paths := (filesBelow fs place).map (foundPath search)
      some ((paths.filter fun p =>
        FileSystem.fits p && !isSkipped (Path.components (Path.relativeTo base p))).map listed)
  | _ => none

end EventDocs
