import EventDocs.Failure
import EventDocs.FileSystem.Listing

/-
Finding the files of a directory and reading them.
-/

namespace EventDocs.FileSystem

/-- The files below a directory, or the failure that there is none. -/
def list (fs : FileSystem) (base : String) : Except Failure (List ListedFile) :=
  match fs.list? base with
  | some files => .ok files
  | none => .error (.notADirectory base)

/-- Read a file under the name that it goes by. -/
def readInput (fs : FileSystem) (name path : String) : Except Failure Input :=
  match fs.read path with
  | .ok content => .ok ⟨name, path, Utf8.decode content⟩
  | .error e => .error (.during (.reading path) (.file e))

/-- Read files in turn. The first that cannot be read is the failure. -/
def readInputs (fs : FileSystem) (files : List ListedFile) : Except Failure (List Input) :=
  files.mapM fun f => fs.readInput f.name f.path

end EventDocs.FileSystem
