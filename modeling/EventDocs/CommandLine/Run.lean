import EventDocs.CommandLine.Arguments
import EventDocs.Document.Assemble
import EventDocs.Storage

/-
The two commands. The first analyses one repository and stores its interim state
as `current/<directory>.json`. The second merges all interim states of a storage
and stores a document for each service as `asyncapi/<service>.<extension>`.

Both read everything, and compute everything, before they store anything.
-/

namespace EventDocs.CommandLine

-- ============================================================ one repository

/-- What the settings say about a repository in a directory of that name. -/
def SingleSettings.repository (s : SingleSettings) (directory : String) : Repository where
  serviceId := s.serviceId.getD (if s.isService then directory else "")
  url := s.repositoryUrl
  language := s.language
  businessDomain := s.businessDomain
  boundedContext := s.boundedContext

/-- The absolute path of the directory that is to be searched. -/
def searchDirectory (fs : FileSystem) (input : Location) : Except Failure String := do
  match fs.resolve (← input.localPath) with
  | .ok place => return FileSystem.pathOf place
  | .error e => .error (.during (.searching input.text) (.file e))

/-- The name of a directory. -/
def directoryName (path : String) : Except Failure String :=
  match Path.fileName? path with
  | some name => .ok name
  | none => .error (.nameless path)

/-- The blocks of a repository and the name of its directory. -/
def analyzeRepository (s : SingleSettings) (env : Environment) (input : Location)
    (fs : FileSystem) : Except Failure (String × List Block) := do
  let path ← searchDirectory fs input
  let name ← directoryName path
  let inputs ← fs.readInputs (← fs.list path)
  match analyzeConcurrently s.concurrency (s.repository name) env.named inputs with
  | .ok blocks => return (name, blocks)
  | .error e => .error (.analysis e)

/-- Store a text in the output. -/
def store (output : Location) (storage : Storage) (key : String) (body : String) :
    Action Failure Unit :=
  (storage.upload key (Utf8.encode body)).during (.storing key output.text)

/-- Analyse a repository and store its interim state. -/
def runSingle (s : SingleSettings) (dryRun : Bool) (env : Environment)
    (input output : Location) : Action Failure Unit := do
  let (name, blocks) ← Action.ask (analyzeRepository s env input)
  if dryRun then return
  let storage ← Action.ask fun _ => Storage.ofLocation output
  store output storage ("current/" ++ name ++ ".json") (Interim.write blocks)

-- ============================================================ all repositories

/-- The interim states below a directory, merged. -/
def mergeDirectory (path : String) (fs : FileSystem) : Except Failure (List Block) := do
  let files := (← fs.list path).filter (·.extension = "json")
  match Interim.merge (← fs.readInputs files) with
  | .ok blocks => return blocks
  | .error e => .error (.interim e)

/-- A document as it is to be stored: its key and its text. -/
def renderDocument (format : Format) (d : ServiceDocument) : Except Failure (String × String) :=
  match format.tryRender d.document with
  | .ok text => .ok ("asyncapi/" ++ d.serviceId ++ "." ++ format.extension, text)
  | .error e => .error (.during (.rendering d.serviceId) (.document e))

/-- The documents of some blocks. -/
def renderAll (format : Format) (blocks : List Block) : Except Failure (List (String × String)) :=
  (assemble (ContextTree.build blocks)).mapM (renderDocument format)

/-- Copy the input into the download directory and merge what is there. -/
def downloadAndMerge (input : Location) (download : String) : Action Failure (List Block) := do
  let storage ← Action.ask fun _ => Storage.ofLocation input
  (storage.fetch download).during (.fetching input.text)
  Action.ask (mergeDirectory download)

/-- Store documents in turn. -/
def storeAll (output : Location) (storage : Storage) (documents : List (String × String)) :
    Action Failure Unit :=
  documents.forM fun d => store output storage d.1 d.2

/-- The work between making the download directory and removing it. -/
def mergeAndStore (format : Format) (dryRun : Bool) (download : String)
    (input output : Location) : Action Failure Unit := do
  let blocks ← downloadAndMerge input download
  let documents ← Action.ask fun _ => renderAll format blocks
  if dryRun then return
  let storage ← Action.ask fun _ => Storage.ofLocation output
  storeAll output storage documents

/-- Take away a directory and all below it. -/
def removeDirectory (path : String) (fs : FileSystem) : FileSystem :=
  match fs.stat path with
  | .ok (place, _) => fs.removeWhere (place.isPrefixOf ·)
  | .error _ => fs

/-- Run an action with a private directory, which is gone afterwards, whether the
action failed or not. -/
def withDirectory (path : String) (a : Action Failure Unit) : Action Failure Unit := fun fs =>
  match fs.makeDirectory path with
  | .error e => (.error (.during .creatingDownload (.fileAt e path)), fs)
  | .ok fs =>
    let (result, fs) := a fs
    (result, removeDirectory path fs)

/-- The path of a private directory that is told from others by its suffix. It
lies where temporary files are kept. -/
def downloadPath (fs : FileSystem) (env : Environment) (suffix : String) : String :=
  let temporary := match env.get? ['T', 'M', 'P', 'D', 'I', 'R'] with
    | some path => String.ofList path
    | none => "/tmp"
  Path.join (Path.join (FileSystem.pathOf fs.here) temporary) (".gendoc-download-" ++ suffix)

/-- Merge all interim states and store a document for each service. -/
def runGlobal (formatName : String) (dryRun : Bool) (download : String)
    (input output : Location) : Action Failure Unit := do
  match Format.ofName formatName with
  | .error e => throw (.format e)
  | .ok format => withDirectory download (mergeAndStore format dryRun download input output)

-- ============================================================ the program

/-- Do what was asked for. `download` is the path of the private directory. -/
def Invocation.run (i : Invocation) (env : Environment) (download : String) :
    Action Failure Unit := do
  let input ← (Action.ask fun _ => Location.parse env i.input).during .readingInputLocation
  let output ← (Action.ask fun _ => Location.parse env i.output).during .readingOutputLocation
  match i.command with
  | .single s => runSingle s i.dryRun env input output
  | .global format => runGlobal format i.dryRun download input output

/-- How a run of the program ends. -/
inductive Ending where
  | done
  | version
  | help
  | usage
  | failed (failure : Failure)
  /-- The run could not even begin its work. -/
  | aborted
deriving Repr

/-- The exit code. -/
def Ending.code : Ending → UInt32
  | done | version | help => 0
  | failed _ => 1
  | usage => 2
  | aborted => 101

/-- What is printed. -/
def Ending.output : Ending → String
  | version => "gendoc 0.1.0\n"
  | _ => ""

/-- Run the program. `suffix` tells its private directory from those of others. -/
def run (args : List String) (env : Environment) (suffix : String) (fs : FileSystem) :
    Ending × FileSystem :=
  match readArguments env args with
  | .error .usage => (.usage, fs)
  | .error .version => (.version, fs)
  | .error .help => (.help, fs)
  | .ok invocation =>
    match invocation.run env (downloadPath fs env suffix) fs with
    | (.ok (), fs) => (.done, fs)
    | (.error (.analysis .tooConcurrent), fs) => (.aborted, fs)
    | (.error failure, fs) => (.failed failure, fs)

end EventDocs.CommandLine
