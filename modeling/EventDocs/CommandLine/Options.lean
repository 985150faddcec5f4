import EventDocs.Environment
import EventDocs.Json.Value

/-
Reading options from a list of arguments. An option has a long name, perhaps a
letter, and a variable that stands in for it when it is not given; a flag takes
no value. Letters may be run together, and a value may follow in the same
argument or in the next one. No option may be given twice, and a value has to be
of the kind that its option takes. Arguments are read from left to right, and
the first thing that settles the matter settles it.
-/

namespace EventDocs.CommandLine

-- ============================================================ what there is

/-- What an option takes. -/
inductive OptionKind where
  /-- Nothing: it is there or not. -/
  | flag
  | text
  | natural
deriving DecidableEq, Repr

/-- A natural number of 64 bits, with or without a plus sign. -/
def natural? (s : String) : Option Nat :=
  let digits := match s.toList with
    | '+' :: cs => cs
    | cs => cs
  let n := Json.digitsValue digits
  if digits ≠ [] ∧ digits.all Char.isDigit ∧ n ≤ Json.maxUnsigned then some n else none

/-- May the text be a value? -/
def OptionKind.accepts : OptionKind → String → Bool
  | natural, s => (natural? s).isSome
  | _, _ => true

structure OptionSpec where
  name : String
  letter : Option Char
  /-- The variable that stands in for the option. -/
  fallback : String
  kind : OptionKind
deriving DecidableEq, Repr

def OptionSpec.takesValue (o : OptionSpec) : Bool := o.kind ≠ .flag

/-- Why there is nothing to run. -/
inductive Stop where
  /-- The arguments make no sense. -/
  | usage
  /-- The version was asked for. -/
  | version
  /-- Help was asked for. -/
  | help
deriving DecidableEq, Repr

/-- Where options stand: which there are, and whether the version may be asked
for. -/
structure Scope where
  options : List OptionSpec
  hasVersion : Bool

namespace Scope

def byName? (s : Scope) (name : String) : Option OptionSpec :=
  s.options.find? (·.name = name)

def byLetter? (s : Scope) (c : Char) : Option OptionSpec :=
  s.options.find? (·.letter = some c)

end Scope

-- ============================================================ what is given

/-- Options that were given, by name, with their values; flags have an empty
one. -/
abbrev Given := List (String × String)

/-- Note an option, unless it was given before or the value is not for it. -/
def Given.note (given : Given) (o : OptionSpec) (value : String) : Except Stop Given :=
  if (given.lookup o.name).isNone && o.kind.accepts value then .ok ((o.name, value) :: given)
  else .error .usage

/-- Does the argument look like an option? A single dash does not. -/
def looksLikeOption (arg : String) : Bool :=
  match arg.toList with
  | '-' :: _ :: _ => true
  | _ => false

/-- How far an argument got: it is complete, or an option waits for its value in
the next one. -/
inductive Progress where
  | complete (given : Given)
  | waiting (given : Given) (o : OptionSpec)

/-- Letters that were run together. What follows the letter of an option that
takes a value is its value, an equals sign in front left out. -/
def readLetters (s : Scope) (given : Given) : List Char → Except Stop Progress
  | [] => .ok (.complete given)
  | c :: cs =>
    match s.byLetter? c with
    | some o =>
      if o.takesValue then
        match cs with
        | [] => .ok (.waiting given o)
        | '=' :: value => (given.note o (.ofList value)).map .complete
        | value => (given.note o (.ofList value)).map .complete
      else do readLetters s (← given.note o "") cs
    | none =>
      if c = 'h' then .error .help
      else if c = 'V' ∧ s.hasVersion then .error .version
      else .error .usage

/-- A long name, and the value behind an equals sign if there is one. -/
def readLong (s : Scope) (given : Given) (name : String) (value : Option String) :
    Except Stop Progress :=
  match s.byName? name, value with
  | some o, some v => if o.takesValue then (given.note o v).map .complete else .error .usage
  | some o, none =>
    if o.takesValue then .ok (.waiting given o) else (given.note o "").map .complete
  | none, none =>
    if name = "help" then .error .help
    else if name = "version" ∧ s.hasVersion then .error .version
    else .error .usage
  | none, some _ => .error .usage

/-- An argument that looks like an option. -/
def readOption (s : Scope) (given : Given) (arg : String) : Except Stop Progress :=
  match arg.toList with
  | '-' :: '-' :: cs =>
    match Text.cutOn ['='] cs with
    | some (name, value) => readLong s given (.ofList name) (some (.ofList value))
    | none => readLong s given (.ofList cs) none
  | _ :: cs => readLetters s given cs
  | [] => .error .usage

/-- The options up to the first argument that is none, and the arguments from
there on. Nothing may follow a double dash. -/
def readOptions (s : Scope) (given : Given) : List String → Except Stop (Given × List String)
  | [] => .ok (given, [])
  | "--" :: rest => if rest.isEmpty then .ok (given, []) else .error .usage
  | arg :: rest =>
    if looksLikeOption arg then do
      match ← readOption s given arg with
      | .complete given => readOptions s given rest
      | .waiting given o =>
        match rest with
        | [] => .error .usage
        | value :: rest =>
          if looksLikeOption value then .error .usage
          else readOptions s (← given.note o value) rest
    else .ok (given, arg :: rest)

-- ============================================================ fallbacks

/-- The value of an option: as given, or else that of its variable. -/
def Given.value? (given : Given) (env : Environment) (o : OptionSpec) : Option String :=
  match given.lookup o.name with
  | some v => some v
  | none => (env.get? o.fallback.toList).map .ofList

/-- Is a flag on? Its variable may only say `true` or `false`. -/
def Given.isOn (given : Given) (env : Environment) (o : OptionSpec) : Except Stop Bool :=
  match given.lookup o.name, (env.get? o.fallback.toList).map String.ofList with
  | some _, _ => .ok true
  | none, none => .ok false
  | none, some "true" => .ok true
  | none, some "false" => .ok false
  | none, some _ => .error .usage

end EventDocs.CommandLine
