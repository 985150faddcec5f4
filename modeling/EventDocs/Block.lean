import EventDocs.Label.Tags
import EventDocs.Expansion
import EventDocs.Token

/-
A block: what stands between a begin marker and its end marker, with the
label that says where it belongs. `Label.link` fills in what the
author left out and asks for what cannot be filled in, by precedence:

- a service takes the repository's service id and is stamped with its URN, URL
  and language;
- a channel's parent is the repository's service;
- an operation's parent is the channel it names;
- a message's parent is the operation of the same id.
-/

namespace EventDocs

-- ============================================================ repositories

/-- What is known of the repository a text comes from. -/
structure Repository where
  serviceId : String := ""
  url : String := ""
  language : String := ""
  businessDomain : String := ""
  boundedContext : String := ""
deriving DecidableEq, Repr, Inhabited

/-- `urn:<business domain>:<bounded context>:<id>` -/
def Repository.serviceUrn (r : Repository) (id : String) : String :=
  "urn:" ++ r.businessDomain ++ ":" ++ r.boundedContext ++ ":" ++ id

-- ============================================================ blocks

/-- A marker pair and all that is derived from it. -/
structure Block where
  beginToken : Token
  label : Label
  precedence : Precedence
  /-- The text between the markers. -/
  value : String
  endToken : Token
deriving DecidableEq, Repr, Inhabited

/-- Stable order by precedence. -/
def Block.sorted (blocks : List Block) : List Block :=
  blocks.mergeSort fun a b => a.precedence.number ≤ b.precedence.number

-- ============================================================ problems

/-- Why a begin marker gives no block. -/
inductive Problem where
  | tag (error : TagError)
  /-- A control character in the metadata. -/
  | illegal (byte : Nat)
  | noEndMarker
  | unresolved (reference : Unresolved)
  | categoryRequired
  | idRequired (precedence : Precedence)
  | parentRequired (precedence : Precedence)
  | contentTypeRequired (precedence : Precedence)
deriving DecidableEq, Repr

/-- A byte as two lower-case hexadecimal digits. -/
def hexByte (n : Nat) : String :=
  .ofList [(n / 16 % 16).digitChar, (n % 16).digitChar]

def Problem.message : Problem → String
  | tag error => error.message
  | illegal byte => "illegal byte 0x" ++ hexByte byte ++ " in marker metadata"
  | noEndMarker => "no corresponding //-gendoc end marker found"
  | unresolved r =>
    "variable '" ++ r.name ++ "' specified in the content was not found in the environment (" ++
      r.reason.phrase ++ ")"
  | categoryRequired => "category must be specified"
  | idRequired p => p.name ++ " annotation: id must be specified"
  | parentRequired p => p.name ++ " annotation: parent must be specified"
  | contentTypeRequired p => p.name ++ " annotation: content type must be specified"

/-- A problem and the begin marker that has it. -/
structure LocatedProblem where
  file : String
  line : Nat
  column : Nat
  problem : Problem
deriving DecidableEq, Repr

/-- The problem of the block that the token opens. -/
def LocatedProblem.at (t : Token) (problem : Problem) : LocatedProblem :=
  ⟨t.source.file, t.line, t.column, problem⟩

/-- `[file:line:column] problem` -/
def LocatedProblem.message (p : LocatedProblem) : String :=
  "[" ++ p.file ++ ":" ++ p.line.repr ++ ":" ++ p.column.repr ++ "] " ++ p.problem.message

-- ============================================================ linking

/-- The first text that is not empty. -/
def firstNonEmpty? : List String → Option String
  | [] => none
  | s :: rest => if s = "" then firstNonEmpty? rest else some s

/-- Characters of an identifier that is given as a block's text. -/
def isIdChar (c : Char) : Bool :=
  c.isAlphanum || c = '~' || c = '-' || c = '|' || c = '#' || c = '.' || c = '_'

/-- The first run of identifier characters in a text. -/
def firstId? (value : String) : Option String :=
  match (value.toList.dropWhile (!isIdChar ·)).takeWhile isIdChar with
  | [] => none
  | run => some (.ofList run)

namespace Label

/-- For the content type `nameId` the identifier is read from the text, if the
text has one. -/
def identify (a : Label) (value : String) : Label :=
  if a.contentType = some .nameId then { a with id := (firstId? value).getD a.id } else a

/-- The first candidate that is not empty becomes the identifier. -/
def requireId (p : Precedence) (candidates : List String) : Except Problem String :=
  match firstNonEmpty? candidates with
  | some id => .ok id
  | none => .error (.idRequired p)

/-- The first candidate that is not empty becomes the parent. -/
def requireParent (p : Precedence) (candidates : List String) : Except Problem String :=
  match firstNonEmpty? candidates with
  | some parent => .ok parent
  | none => .error (.parentRequired p)

/-- Fill in what was left out and ask for what is required. -/
def complete (r : Repository) (p : Precedence) (a : Label) : Except Problem Label :=
  match p with
  | .service => do
    let id ← requireId p [a.id, r.serviceId]
    return { a with
      id, name := id, repoLanguage := r.language, repoUrl := r.url, serviceUrn := r.serviceUrn id }
  | .channel => do
    let id ← requireId p [a.id]
    let parent ← requireParent p [a.parent, r.serviceId]
    return { a with id, name := id, parent }
  | .operation => do
    let id ← requireId p [a.id]
    let parent ← requireParent p [a.parent, a.channelId]
    return { a with id, name := id, parent }
  | .message => do
    let id ← requireId p [a.id]
    let parent ← requireParent p [a.parent, id]
    match a.contentType with
    | none => .error (.contentTypeRequired p)
    | some _ => return { a with id, name := id, parent }
  | .structural => .ok a

/-- The label of a finished block with the text `value`. -/
def link (r : Repository) (c : Category) (value : String) (a : Label) :
    Except Problem Label :=
  (a.identify value).complete r c.precedence

end Label

end EventDocs
