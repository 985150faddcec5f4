import EventDocs.FileSystem.Path
import EventDocs.Text.Utf8

/-
A file system: files and directories at their places, and the directory that
relative paths start from. A path is followed step by step, so that `..` goes up
from wherever the steps before it led, and each step starts from a directory
that is there.

Names and paths are limited in length. A name that is too long fails where it is
looked up, and so behind whatever fails on the way to it; a path that is too long
fails before anything is looked up.

Operations that change the file system are actions: they may fail, and what they
have changed until then stays changed.
-/

namespace EventDocs

-- ============================================================ errors

/-- Why an operation on files fails. -/
inductive FileError where
  | notFound
  | alreadyExists
  | notADirectory
  | isADirectory
  /-- A name or a whole path is too long. -/
  | nameTooLong
  /-- A path holds the character with the number zero, which ends paths elsewhere. -/
  | zeroInPath
deriving DecidableEq, Repr

def FileError.message : FileError → String
  | notFound => "No such file or directory (os error 2)"
  | alreadyExists => "File exists (os error 17)"
  | notADirectory => "Not a directory (os error 20)"
  | isADirectory => "Is a directory (os error 21)"
  | nameTooLong => "File name too long (os error 36)"
  | zeroInPath => "file name contained an unexpected NUL byte"

-- ============================================================ file systems

/-- The names on the way from the root. -/
abbrev Place := List String

inductive Entry where
  | directory
  | file (content : Bytes)
deriving DecidableEq, Repr, Inhabited

structure FileSystem where
  /-- What is where, below the root. -/
  entries : List (Place × Entry)
  /-- Where relative paths start. -/
  here : Place
  /-- There is one thing at a place. -/
  distinct : (entries.map Prod.fst).Nodup

namespace FileSystem

/-- Nothing but the root. -/
def empty : FileSystem := ⟨[], [], .nil⟩

/-- What is at a place; the root is always a directory. -/
def get? (fs : FileSystem) (p : Place) : Option Entry :=
  if p = [] then some .directory else fs.entries.lookup p

/-- Put something at a place, instead of what was there. -/
def put (fs : FileSystem) (p : Place) (e : Entry) : FileSystem where
  entries := (p, e) :: fs.entries.filter fun x => x.1 ≠ p
  here := fs.here
  distinct := by
    refine List.nodup_cons.mpr ⟨?_, fs.distinct.sublist (List.filter_sublist.map _)⟩
    simp

/-- Take away what satisfies `p`. -/
def removeWhere (fs : FileSystem) (p : Place → Bool) : FileSystem where
  entries := fs.entries.filter fun x => !p x.1
  here := fs.here
  distinct := fs.distinct.sublist (List.filter_sublist.map _)

/-- Start relative paths somewhere else. -/
def goTo (fs : FileSystem) (p : Place) : FileSystem := { fs with here := p }

theorem get?_put_self (fs : FileSystem) {p : Place} (e : Entry) (h : p ≠ []) :
    (fs.put p e).get? p = some e := by
  simp [get?, put, h]

-- ============================================================ following paths

/-- How many bytes a name may have. -/
def maxNameBytes : Nat := 255

/-- How many bytes a path may have. -/
def maxPathBytes : Nat := 4095

/-- Is a path short enough to be handed over in one piece? -/
def fits (path : String) : Bool := path.utf8ByteSize ≤ maxPathBytes

/-- The place of a name in a directory, whether there is something or not. -/
def child (p : Place) (segment : List Char) : Except FileError Place :=
  let name := String.ofList segment
  if name.utf8ByteSize ≤ maxNameBytes then .ok (p ++ [name]) else .error .nameTooLong

/-- One step from a place, which has to be a directory. -/
def enter (fs : FileSystem) (p : Place) (segment : List Char) : Except FileError Place :=
  match fs.get? p with
  | none => .error .notFound
  | some (.file _) => .error .notADirectory
  | some .directory =>
    if Path.isIdle segment then .ok p
    else if segment = ['.', '.'] then .ok p.dropLast
    else child p segment

/-- Where a path starts. -/
def origin (fs : FileSystem) (path : String) : Place :=
  if Path.isAbsolute path then [] else fs.here

/-- The place that some segments lead to. There may be nothing there, but every
step on the way starts from a directory. -/
def follow (fs : FileSystem) (start : Place) (segments : List (List Char)) :
    Except FileError Place :=
  segments.foldlM fs.enter start

/-- What is wrong with a path wherever it leads, its length aside. -/
def checkText (path : String) : Except FileError Unit :=
  if path.toList.contains '\x00' then .error .zeroInPath
  else if path = "" then .error .notFound
  else .ok ()

/-- What is wrong with a path wherever it leads. -/
def checkPath (path : String) : Except FileError Unit := do
  checkText path
  if fits path then .ok () else .error .nameTooLong

/-- What is at a place, which has to be something. -/
def existing (fs : FileSystem) (p : Place) : Except FileError Entry :=
  match fs.get? p with
  | some e => .ok e
  | none => .error .notFound

/-- The place that a path leads to. There may be nothing there. -/
def locate (fs : FileSystem) (path : String) : Except FileError Place := do
  checkPath path
  fs.follow (fs.origin path) (Path.segments path)

/-- What a path leads to, and where it is. -/
def stat (fs : FileSystem) (path : String) : Except FileError (Place × Entry) := do
  let p ← fs.locate path
  return (p, ← fs.existing p)

/-- The place of what a path leads to. The path is taken name by name and may have
any length. -/
def resolve (fs : FileSystem) (path : String) : Except FileError Place := do
  checkText path
  let p ← fs.follow (fs.origin path) (Path.segments path)
  let _ ← fs.existing p
  return p

def isDirectory (fs : FileSystem) (path : String) : Bool :=
  match fs.stat path with
  | .ok (_, .directory) => true
  | _ => false

/-- The content of a file. -/
def read (fs : FileSystem) (path : String) : Except FileError Bytes :=
  match fs.stat path with
  | .ok (_, .file content) => .ok content
  | .ok (_, .directory) => .error .isADirectory
  | .error e => .error e

/-- The absolute path of a place. -/
def pathOf (p : Place) : String :=
  "/" ++ "/".intercalate p

/-- Where something new would go: a directory that is there, and the last segment
of the path; none for the root. -/
def site (fs : FileSystem) (path : String) :
    Except FileError (Option (Place × List Char)) := do
  checkPath path
  let segments := Text.dropTrailing (· = []) (Path.segments path)
  match segments.getLast? with
  | none => return none
  | some last =>
    let p ← fs.follow (fs.origin path) segments.dropLast
    match ← fs.existing p with
    | .directory => return some (p, last)
    | .file _ => .error .notADirectory

/-- Does the segment name something, rather than a directory on the way? -/
def isName (segment : List Char) : Bool :=
  !Path.isIdle segment && segment ≠ ['.', '.']

/-- Make a directory where there is nothing. -/
def makeDirectory (fs : FileSystem) (path : String) : Except FileError FileSystem := do
  match ← fs.site path with
  | none => .error .alreadyExists
  | some (p, last) =>
    if isName last then
      let target ← child p last
      if (fs.get? target).isNone then return fs.put target .directory
      else .error .alreadyExists
    else .error .alreadyExists

/-- Write a file, making it if there is nothing. -/
def write (fs : FileSystem) (path : String) (content : Bytes) : Except FileError FileSystem := do
  match ← fs.site path with
  | none => .error .isADirectory
  | some (p, last) =>
    if !isName last || path.toList.getLast? = some '/' then .error .isADirectory
    else
      let target ← child p last
      if fs.get? target = some .directory then .error .isADirectory
      else return fs.put target (.file content)

/-- Copy a file. A file that is copied onto itself ends up empty, because the
target is emptied before anything is read. -/
def copy (fs : FileSystem) (source target : String) : Except FileError FileSystem := do
  let content ← fs.read source
  let emptied ← fs.write target []
  let same : Bool := match fs.locate source, fs.locate target with
    | .ok p, .ok q => p = q
    | _, _ => false
  if same then return emptied else fs.write target content

end FileSystem

-- ============================================================ actions

/-- Something done to a file system, which may fail. -/
abbrev Action (ε α : Type) := ExceptT ε (StateM FileSystem) α

namespace Action

/-- Ask something of the file system. -/
def ask {ε α : Type} (f : FileSystem → Except ε α) : Action ε α := do
  match f (← get) with
  | .ok a => return a
  | .error e => throw e

/-- Change the file system. -/
def change {ε : Type} (f : FileSystem → Except ε FileSystem) : Action ε Unit := do
  match f (← get) with
  | .ok fs => set fs
  | .error e => throw e

/-- Say more about what failed. -/
def mapError {ε δ α : Type} (f : ε → δ) (a : Action ε α) : Action δ α := fun fs =>
  match a fs with
  | (.ok r, fs) => (.ok r, fs)
  | (.error e, fs) => (.error (f e), fs)

/-- Make a directory. It is no failure if it is there already. -/
def ensureDirectory (path : String) : Action FileError Unit := fun fs =>
  match fs.makeDirectory path with
  | .ok fs => (.ok (), fs)
  | .error e => if fs.isDirectory path then (.ok (), fs) else (.error e, fs)

/-- Make the first of some directories, each of which holds the one before it,
and those that it needs. -/
def makeFirst : List String → Action FileError Unit
  | [] => pure ()
  | path :: holders => fun fs =>
    if path = "" then (.ok (), fs)
    else
      match ensureDirectory path fs with
      | (.error .notFound, fs) => (do makeFirst holders; ensureDirectory path) fs
      | result => result

/-- Make a directory and all that it needs. -/
def makeDirectories (path : String) : Action FileError Unit :=
  makeFirst (Path.ancestors path)

end Action

end EventDocs
