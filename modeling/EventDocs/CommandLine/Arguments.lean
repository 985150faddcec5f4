import EventDocs.Analysis
import EventDocs.CommandLine.Options

/-
The arguments of the program. Some options belong to every command and may stand
before or after its name; given in both places, the one behind the name counts.
The variable of such an option has to make sense wherever the option is not
given itself.
-/

namespace EventDocs.CommandLine

-- ============================================================ the options

def inputOption : OptionSpec := ⟨"input", some 'i', "GENDOC_INPUT", .text⟩

def outputOption : OptionSpec := ⟨"output", some 'o', "GENDOC_OUTPUT", .text⟩

def verboseOption : OptionSpec := ⟨"verbose", some 'v', "GENDOC_VERBOSE", .flag⟩

def dryRunOption : OptionSpec := ⟨"dry-run", none, "GENDOC_DRY_RUN", .flag⟩

def businessDomainOption : OptionSpec :=
  ⟨"business-domain", some 'b', "GENDOC_BUSINESS_DOMAIN", .text⟩

def boundedContextOption : OptionSpec := ⟨"bounded-ctx", some 'c', "GENDOC_BOUNDED_CTX", .text⟩

def repositoryOption : OptionSpec := ⟨"repo", some 'r', "GENDOC_REPO", .text⟩

def languageOption : OptionSpec := ⟨"lang", none, "GENDOC_LANG", .text⟩

def serviceIdOption : OptionSpec := ⟨"service-id", none, "GENDOC_SERVICE_ID", .text⟩

def isServiceOption : OptionSpec := ⟨"is-service", some 's', "GENDOC_IS_SERVICE", .flag⟩

def concurrencyOption : OptionSpec := ⟨"concurrency", none, "GENDOC_CONCURRENCY", .natural⟩

def formatOption : OptionSpec := ⟨"format", some 'f', "GENDOC_FORMAT", .text⟩

/-- The options of every command. -/
def commonOptions : List OptionSpec := [inputOption, outputOption, verboseOption, dryRunOption]

/-- The options of the analysis of one repository. -/
def singleOptions : List OptionSpec :=
  [businessDomainOption, boundedContextOption, repositoryOption, languageOption,
    serviceIdOption, isServiceOption, concurrencyOption]

-- ============================================================ the commands

/-- How one repository is to be analysed. -/
structure SingleSettings where
  businessDomain : String
  boundedContext : String
  repositoryUrl : String
  language : String
  serviceId : Option String
  isService : Bool
  concurrency : Nat
deriving DecidableEq, Repr

inductive Command where
  /-- Analyse one repository and store its interim state. -/
  | single (settings : SingleSettings)
  /-- Merge the interim states and store a document for each service. -/
  | global (format : String)
deriving DecidableEq, Repr

/-- What the program is asked to do. -/
structure Invocation where
  input : String
  output : String
  verbose : Bool
  dryRun : Bool
  command : Command
deriving DecidableEq, Repr

/-- How many files are analysed at a time if nothing else is asked for. -/
def defaultConcurrency : Nat := 20

def readSingle (given : Given) (env : Environment) : Except Stop Command := do
  let isService ← given.isOn env isServiceOption
  let concurrency ← match given.value? env concurrencyOption with
    | some s =>
      match natural? s with
      | some n => .ok n
      | none => .error .usage
    | none => .ok defaultConcurrency
  return .single
    { businessDomain := (given.value? env businessDomainOption).getD ""
      boundedContext := (given.value? env boundedContextOption).getD ""
      repositoryUrl := (given.value? env repositoryOption).getD ""
      language := (given.value? env languageOption).getD "C#"
      serviceId := given.value? env serviceIdOption
      isService, concurrency }

def readGlobal (given : Given) (env : Environment) : Except Stop Command :=
  .ok (.global ((given.value? env formatOption).getD "yaml"))

/-- What is special about a command: its options, and how they are understood. -/
structure CommandSpec where
  options : List OptionSpec
  read : Given → Environment → Except Stop Command

/-- The command of a name. -/
def command? (name : String) : Option CommandSpec :=
  if ["single-context", "sc", "single"].contains name then some ⟨singleOptions, readSingle⟩
  else if ["global-context", "gc", "global"].contains name then some ⟨[formatOption], readGlobal⟩
  else none

/-- Asking for help, perhaps on one command or on help itself. -/
def helpOn : List String → Stop
  | [] => .help
  | [topic] => if topic = "help" || (command? topic).isSome then .help else .usage
  | _ => .usage

/-- The command of a name, or else what the name and the arguments behind it
amount to. -/
def commandOf (name : String) (rest : List String) : Except Stop CommandSpec :=
  match command? name with
  | some spec => .ok spec
  | none => .error (if name = "help" then helpOn rest else .usage)

/-- Is a common flag on? It may be given before or behind the command's name. -/
def commonFlag (before behind : Given) (env : Environment) (o : OptionSpec) :
    Except Stop Bool := do
  let first ← before.isOn env o
  let second ← behind.isOn env o
  return if (before.lookup o.name).isSome then first else second

/-- The value of a common option, which may be given before or behind the
command's name. -/
def commonValue (before behind : Given) (env : Environment) (o : OptionSpec)
    (default : String) : String :=
  ((behind ++ before : Given).value? env o).getD default

/-- What the arguments ask for. -/
def readArguments (env : Environment) (args : List String) : Except Stop Invocation := do
  match ← readOptions ⟨commonOptions, true⟩ [] args with
  | (_, []) => .error .usage
  | (before, name :: rest) =>
    let spec ← commandOf name rest
    match ← readOptions ⟨commonOptions ++ spec.options, false⟩ [] rest with
    | (_, _ :: _) => .error .usage
    | (behind, []) =>
      let verbose ← commonFlag before behind env verboseOption
      let dryRun ← commonFlag before behind env dryRunOption
      return {
        input := commonValue before behind env inputOption "local://."
        output := commonValue before behind env outputOption "local://$HOME/.gendoc"
        verbose, dryRun
        command := ← spec.read behind env }

end EventDocs.CommandLine
