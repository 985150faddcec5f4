import EventDocs.CommandLine.Run

/-
The program. It reads what a run may look at into a file system in memory, lets
the run change that, and then makes the same changes on disk.

What is read: the directories that the arguments name, and the way to them and
to the place for temporary files. Below directories whose files are never listed
nothing is read.
-/

namespace EventDocs.Program

-- ============================================================ reading

/-- The variables of the process. -/
def environment : IO Environment := do
  let bytes ← IO.FS.readBinFile "/proc/self/environ"
  let entries := bytes.toList.splitOn (0 : UInt8)
  return (entries.filter (!·.isEmpty)).map Utf8.decode

/-- The place of a path, dots resolved by the text alone. -/
def placeOf (here : Place) (path : String) : Place :=
  (Path.components path).foldl (fun p c =>
    match c with
    | .root => []
    | .here => p
    | .up => p.dropLast
    | .name n => p ++ [n]) here

/-- What is at a place on disk. -/
def entryAt (p : Place) : IO (Option Entry) := do
  let path := (← IO.currentDir) / FileSystem.pathOf p
  if ← path.isDir then return some .directory
  else if ← path.pathExists then return some (.file (← IO.FS.readBinFile path).toList)
  else return none

/-- The names in a directory on disk. -/
def namesIn (p : Place) : IO (List String) := do
  let path := (← IO.currentDir) / FileSystem.pathOf p
  return (← path.readDir).toList.map (·.fileName)

/-- Take one place over from disk. -/
def loadPlace (fs : FileSystem) (p : Place) : IO FileSystem := do
  match ← entryAt p with
  | some e => return fs.put p e
  | none => return fs

/-- Take a place and all below it over from disk. -/
partial def loadBelow (fs : FileSystem) (p : Place) : IO FileSystem := do
  let fs ← loadPlace fs p
  if fs.get? p ≠ some .directory then return fs
  let mut fs := fs
  for name in ← namesIn p do
    if Listing.skippedDirectories.contains name then fs ← loadPlace fs (p ++ [name])
    else fs ← loadBelow fs (p ++ [name])
  return fs

/-- Take the way to a place over from disk. -/
def loadWay (fs : FileSystem) (p : Place) : IO FileSystem :=
  (List.range p.length).foldlM (fun fs n => loadPlace fs (p.take n)) fs

/-- The paths that a run reads or writes below. -/
def workPaths (env : Environment) (args : List String) : List String :=
  match CommandLine.readArguments env args with
  | .error _ => []
  | .ok i => [i.input, i.output].filterMap fun s =>
    match Location.parse env s with
    | .ok (.directory path) => some path
    | _ => none

/-- What a run may look at. -/
def load (env : Environment) (args : List String) (suffix : String) : IO FileSystem := do
  let here := placeOf [] (← IO.currentDir).toString
  let start := FileSystem.empty.goTo here
  let download := placeOf here (CommandLine.downloadPath start env suffix)
  let mut fs ← loadWay start download
  for path in workPaths env args do
    let p := placeOf here path
    fs ← loadBelow (← loadWay fs p) p
  return fs

-- ============================================================ writing

/-- Make on disk what a run has made. -/
def save (before after : FileSystem) : IO Unit := do
  let made := after.entries.filter fun x => before.get? x.1 ≠ some x.2
  for (p, e) in made.mergeSort fun a b => a.1.length ≤ b.1.length do
    let path := (← IO.currentDir) / FileSystem.pathOf p
    match e with
    | .directory => IO.FS.createDirAll path
    | .file content => IO.FS.writeBinFile path ⟨content.toArray⟩

/-- The text of a failure with its causes. -/
def report (f : Failure) : String :=
  let causes := match f.causes with
    | [] => ""
    | [cause] => "\n\nCaused by:\n    " ++ cause
    | causes => "\n\nCaused by:" ++ String.join (causes.mapIdx fun n c =>
        "\n    " ++ n.repr ++ ": " ++ c)
  "Error: " ++ f.message ++ causes

end EventDocs.Program

open EventDocs in
def main (args : List String) : IO UInt32 := do
  let env ← Program.environment
  let suffix := (← IO.monoNanosNow).repr
  let before ← Program.load env args suffix
  let (ending, after) := CommandLine.run args env suffix before
  Program.save before after
  IO.print ending.output
  match ending with
  | .failed f => IO.eprintln (Program.report f)
  | .usage => IO.eprintln "error: the arguments make no sense, see --help"
  | _ => pure ()
  return ending.code
