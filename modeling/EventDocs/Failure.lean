import EventDocs.Analysis
import EventDocs.FileSystem
import EventDocs.Interim
import EventDocs.Rendering

/-
Everything that can go wrong on the way from sources to documents, as causes. A
failure may carry the activity during which it came about; its texts are those
of the activities, outermost first, and then its own.
-/

namespace EventDocs

/-- What was being done when something failed. -/
inductive Activity where
  | readingInputLocation
  | readingOutputLocation
  | expandingPath (path : String)
  | searching (location : String)
  | reading (path : String)
  | listing (path : String)
  | creating (path : String)
  | writing (path : String)
  | copying (source target : String)
  | creatingDownload
  | fetching (location : String)
  | rendering (service : String)
  | storing (key location : String)
deriving DecidableEq, Repr

def Activity.message : Activity → String
  | readingInputLocation => "invalid --input location"
  | readingOutputLocation => "invalid --output location"
  | expandingPath path => "failed to expand '" ++ path ++ "'"
  | searching location => "cannot search " ++ location
  | reading path => "failed to read " ++ path
  | listing path => "failed to list " ++ path
  | creating path => "failed to create " ++ path
  | writing path => "failed to write " ++ path
  | copying source target => "failed to copy " ++ source ++ " to " ++ target
  | creatingDownload => "failed to create download directory"
  | fetching location => "failed to fetch " ++ location
  | rendering service => "failed to render " ++ service
  | storing key location => "failed to store " ++ key ++ " in " ++ location

inductive Failure where
  | file (error : FileError)
  | fileAt (error : FileError) (path : String)
  | notADirectory (path : String)
  /-- A variable without a value. -/
  | unbound (name : String)
  /-- A location without text. -/
  | emptyLocation
  /-- A location without a scheme. -/
  | noScheme (location : String)
  | unknownScheme (scheme : String)
  /-- A location on this machine without a path. -/
  | noPath (location : String)
  /-- A blob location without account or container. -/
  | noContainer (location : String)
  | notLocal (location : String)
  | noClient (location : String)
  /-- A directory that has no name, because it is the root. -/
  | nameless (path : String)
  | analysis (failure : AnalysisFailure)
  | interim (invalid : Interim.Invalid)
  | format (unknown : UnknownFormat)
  | document (unwritable : Unwritable)
  | during (activity : Activity) (cause : Failure)
deriving Repr

/-- The texts of a failure, outermost first. -/
def Failure.texts : Failure → List String
  | file error => [error.message]
  | fileAt error path => [error.message ++ " at path \"" ++ path ++ "\""]
  | notADirectory path => ["not a directory: " ++ path]
  | unbound name =>
    ["error looking key '" ++ name ++ "' up: environment variable not found",
      "environment variable not found"]
  | emptyLocation => ["storage location must not be empty"]
  | noScheme location =>
    ["protocol error in '" ++ location ++ "', expected the `<scheme>://` form"]
  | unknownScheme scheme =>
    ["unsupported protocol '" ++ scheme ++ "://', must be one of ['local://','azblob://']"]
  | noPath location =>
    ["'" ++ location ++ "': at least one file system segment must be provided"]
  | noContainer location => ["'" ++ location ++ "': expected azblob://<account>/<container>"]
  | notLocal location => [location ++ " is not a local:// location"]
  | noClient location =>
    ["unsupported storage backend: no client for " ++ location ++ " in this build"]
  | nameless path => ["cannot derive a name from " ++ path]
  | analysis failure => [failure.message]
  | interim invalid => [invalid.message]
  | format unknown => [unknown.message]
  | document unwritable => [unwritable.message]
  | during activity cause => activity.message :: cause.texts

/-- The outermost text. -/
def Failure.message (f : Failure) : String := f.texts.headD ""

/-- The texts below the outermost. -/
def Failure.causes (f : Failure) : List String := f.texts.tail

/-- Say during what an action on files failed. -/
def Action.fileStep {α : Type} (activity : Activity) (a : Action FileError α) :
    Action Failure α :=
  a.mapError fun e => .during activity (.file e)

/-- Say during what an action failed. -/
def Action.during {α : Type} (activity : Activity) (a : Action Failure α) : Action Failure α :=
  a.mapError (.during activity)

end EventDocs
