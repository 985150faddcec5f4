import EventDocs.Analysis
import EventDocs.Json.Printer
import EventDocs.Json.Record

/-
The interim state: the blocks of one repository as a JSON text, written when
the repository is analysed and read when the states of all repositories are
merged. Writing gives every field in one fixed order. Reading also takes what
hand-written or newer states may hold: fields in any order, unknown fields, and
records as arrays.
-/

namespace EventDocs

open Json

-- ============================================================ writing

namespace Interim

def ofSource (s : Source) : Value :=
  .object [("file", .string s.file), ("path", .string s.path)]

def ofToken (t : Token) : Value :=
  .object
    [("type", .string t.kind.name), ("literal", .string t.literal),
      ("annotationLiteral", .string t.metadata), ("line", .number (.integer t.line)),
      ("column", .number (.integer t.column)), ("source", ofSource t.source)]

/-- A name, or null. -/
def ofName? : Option String → Value
  | none => .null
  | some name => .string name

def ofLabel (a : Label) : Value :=
  .object
    [("category", ofName? (a.category.map Category.name)),
      ("type", ofName? (a.contentType.map ContentType.name)), ("name", .string a.name),
      ("id", .string a.id), ("serviceId", .string a.serviceId),
      ("channelId", .string a.channelId), ("parent", .string a.parent),
      ("serviceURN", .string a.serviceUrn), ("serviceRepoUrl", .string a.repoUrl),
      ("serviceRepoLang", .string a.repoLanguage)]

def ofBlock (b : Block) : Value :=
  .object
    [("beginToken", ofToken b.beginToken), ("annotation", ofLabel b.label),
      ("docCategory", .number (.integer b.precedence.number)), ("value", .string b.value),
      ("endToken", ofToken b.endToken)]

/-- The interim state of some blocks. -/
def write (blocks : List Block) : String :=
  (Value.array (blocks.map ofBlock)).toPretty

-- ============================================================ reading

open Tree

def source? (t : Tree) : Option Source := do
  match ← t.fields? ["file", "path"] with
  | [file, path] => return ⟨← required text? file, ← required text? path⟩
  | _ => none

def token? (t : Tree) : Option Token := do
  match ← t.fields? ["type", "literal", "annotationLiteral", "line", "column", "source"] with
  | [kind, literal, metadata, line, column, source] =>
    return {
      kind := ← required (choice? Kind.ofName?) kind
      literal := ← required text? literal
      metadata := ← optional "" text? metadata
      line := ← required natural? line
      column := ← required natural? column
      source := ← required source? source }
  | _ => none

def label? (t : Tree) : Option Label := do
  match ← t.fields? ["category", "type", "name", "id", "serviceId", "channelId", "parent",
      "serviceURN", "serviceRepoUrl", "serviceRepoLang"] with
  | [category, contentType, name, id, serviceId, channelId, parent, urn, url, language] =>
    return {
      category := ← optional none (nullable? (choice? Category.ofName?)) category
      contentType := ← optional none (nullable? (choice? ContentType.ofName?)) contentType
      name := ← optional "" text? name
      id := ← optional "" text? id
      serviceId := ← optional "" text? serviceId
      channelId := ← optional "" text? channelId
      parent := ← optional "" text? parent
      serviceUrn := ← optional "" text? urn
      repoUrl := ← optional "" text? url
      repoLanguage := ← optional "" text? language }
  | _ => none

/-- A precedence by its number. -/
def precedence? (t : Tree) : Option Precedence :=
  (natural? t).bind Precedence.ofNumber?

def block? (t : Tree) : Option Block := do
  match ← t.fields? ["beginToken", "annotation", "docCategory", "value", "endToken"] with
  | [beginToken, label, precedence, value, endToken] =>
    return {
      beginToken := ← required token? beginToken
      label := ← required label? label
      precedence := ← required precedence? precedence
      value := ← required text? value
      endToken := ← required token? endToken }
  | _ => none

/-- The blocks of an interim state. -/
def read? (text : String) : Option (List Block) := do
  (← Tree.read? text).list? block?

-- ============================================================ merging

/-- A file that is no interim state. -/
structure Invalid where
  path : String
deriving DecidableEq, Repr

def Invalid.message (e : Invalid) : String :=
  "invalid interim state in " ++ e.path

/-- The blocks of one file. -/
def ofInput (i : Input) : Except Invalid (List Block) :=
  match read? i.text with
  | some blocks => .ok blocks
  | none => .error ⟨i.path⟩

/-- The blocks of all files, in their order, stably sorted by precedence. The
first file that is no interim state is the error. -/
def merge (inputs : List Input) : Except Invalid (List Block) := do
  let states ← inputs.mapM ofInput
  return Block.sorted states.flatten

end Interim

end EventDocs
