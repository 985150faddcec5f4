import EventDocs.Expansion
import EventDocs.FileSystem.Inputs

/-
Storage locations, `<scheme>://<rest>`, and the storage behind them. Only
directories of this machine can be read and written; blob containers are
understood, but there is no client for them.
-/

namespace EventDocs

-- ============================================================ locations

/-- Where interim states and documents are kept. -/
inductive Location where
  | directory (path : String)
  | blob (account container : String)
deriving DecidableEq, Repr

namespace Location

/-- The location as it is written. -/
def text : Location → String
  | directory path => "local://" ++ path
  | blob account container => "azblob://" ++ account ++ "/" ++ container

/-- The home directory, if there is one. -/
def home? (env : Environment) : Option (List Char) :=
  (env.get? ['H', 'O', 'M', 'E']).filter (· ≠ [])

/-- A tilde in front of a path, alone or with a slash behind it, stands for the
home directory, if there is one. -/
def expandTilde (env : Environment) (path : String) : String :=
  match path.toList with
  | '~' :: rest =>
    if rest = [] ∨ rest.head? = some '/' then
      match home? env with
      | some home => .ofList (home ++ rest)
      | none => path
    else path
  | _ => path

/-- The path with its variables and its tilde replaced. A tilde that only a
variable brought in front stays. -/
def expandPath (env : Environment) (path : String) : Except Failure String :=
  match expand env.bound path with
  | .error e => .error (.during (.expandingPath path) (.unbound e.name))
  | .ok expanded =>
    if path.toList.head? = some '~' then .ok (expandTilde env expanded) else .ok expanded

/-- Account and container, the first two segments behind any slashes. -/
def blob? (rest : List Char) : Option Location :=
  match (rest.dropWhile (· = '/')).splitOn '/' with
  | account :: container :: _ =>
    if account = [] ∨ container = [] then none
    else some (.blob (.ofList account) (.ofList container))
  | _ => none

/-- The location that a text names. -/
def parse (env : Environment) (s : String) : Except Failure Location :=
  if s = "" then .error .emptyLocation
  else
    match Text.cutOn [':', '/', '/'] s.toList with
    | none => .error (.noScheme s)
    | some (scheme, rest) =>
      if String.ofList scheme = "local" then
        if rest = [] then .error (.noPath s)
        else (expandPath env (.ofList rest)).map .directory
      else if String.ofList scheme = "azblob" then
        match blob? rest with
        | some location => .ok location
        | none => .error (.noContainer s)
      else .error (.unknownScheme (.ofList scheme))

/-- The directory of a location on this machine. -/
def localPath : Location → Except Failure String
  | directory path => .ok path
  | blob account container => .error (.notLocal (blob account container).text)

end Location

-- ============================================================ storage

/-- A location that can be read and written: a directory. -/
structure Storage where
  root : String
deriving DecidableEq, Repr

namespace Storage

/-- The storage behind a location, if there is a client for it. -/
def ofLocation : Location → Except Failure Storage
  | .directory path => .ok ⟨path⟩
  | .blob account container => .error (.noClient (Location.blob account container).text)

/-- Make the directory that is to hold a file. -/
def makeParent (target : String) : Action Failure Unit :=
  match Path.parent? target with
  | some parent => (Action.makeDirectories parent).fileStep (.creating parent)
  | none => pure ()

/-- Copy one file of the storage into a directory, keeping its path below the
root. -/
def fetchFile (s : Storage) (into : String) (f : ListedFile) : Action Failure Unit := do
  let target := Path.join into (Path.relativeTo s.root f.path)
  makeParent target
  (Action.change (·.copy f.path target)).fileStep (.copying f.path target)

/-- Copy everything in the storage into a directory. -/
def fetch (s : Storage) (into : String) : Action Failure Unit := do
  let files ← (Action.ask (·.list s.root)).during (.listing s.root)
  files.forM (s.fetchFile into)

/-- Store a text under a key, a path below the root. -/
def upload (s : Storage) (key : String) (body : Bytes) : Action Failure Unit := do
  let target := Path.join s.root key
  makeParent target
  (Action.change (·.write target body)).fileStep (.writing target)

end Storage

end EventDocs
