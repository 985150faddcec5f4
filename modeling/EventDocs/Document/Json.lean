import EventDocs.Document
import EventDocs.Json.Printer

/-
Documents as JSON values. Writing gives the fields in the order in which they
are declared and leaves out what is absent; reading takes fields in any order,
passes over those it does not know, and takes a record as an array of its fields
as well.
-/

namespace EventDocs.Document

open EventDocs.Json (Value)

-- ============================================================ writing

/-- A member that is left out if there is nothing to write. -/
def member? {α : Type} (name : String) (write : α → Value) : Option α → List (String × Value)
  | none => []
  | some a => [(name, write a)]

/-- A list that is left out if it is empty. -/
def listMember? {α : Type} (name : String) (write : α → Value) : List α → List (String × Value)
  | [] => []
  | as => [(name, .array (as.map write))]

def Tag.toValue (t : Tag) : Value :=
  .object (("name", .string t.name) ::
    if t.description = "" then [] else [("description", .string t.description)])

def Info.toValue (i : Info) : Value :=
  .object ([("title", .string i.title), ("version", .string i.version)] ++
    member? "description" .string i.description)

def Example.toValue (e : Example) : Value :=
  .object ([("name", .string e.name), ("summary", .string e.summary)] ++
    member? "payload" (fun v => v) e.payload)

def Message.toValue (m : Message) : Value :=
  .object ([("messageId", .string m.messageId), ("name", .string m.name)] ++
    member? "title" .string m.title ++ member? "summary" .string m.summary ++
    member? "description" .string m.description ++ member? "payload" (fun v => v) m.payload ++
    listMember? "examples" Example.toValue m.examples)

def Operation.toValue (o : Operation) : Value :=
  .object (member? "summary" .string o.summary ++ member? "description" .string o.description ++
    [("operationId", .string o.operationId)] ++ member? "message" Message.toValue o.message)

def Channel.toValue (c : Channel) : Value :=
  .object (member? "description" .string c.description ++
    member? "publish" Operation.toValue c.publish ++
    member? "subscribe" Operation.toValue c.subscribe)

/-- The document with its fields in their declared order. -/
def toValue (d : Document) : Value :=
  .object ([("asyncapi", .string d.asyncapi), ("id", .string d.id), ("info", d.info.toValue)] ++
    member? "defaultContentType" .string d.defaultContentType ++
    [("channels", .object (d.channels.bindings.map fun c => (c.1, c.2.toValue)))] ++
    listMember? "tags" Tag.toValue d.tags)

-- ============================================================ reading

/-- The fields of a record, in their declared order. -/
def fields? (names : List String) : Value → Option (List (Option Value))
  | .object members => some (names.map fun n => members.lookup n)
  | .array items =>
    if items.length ≤ names.length then
      some (items.map some ++ List.replicate (names.length - items.length) none)
    else none
  | _ => none

/-- A text that has to be there. -/
def text? : Option Value → Option String
  | some (.string s) => some s
  | _ => none

/-- A part that may be left out or null. -/
def part? {α : Type} (read? : Value → Option α) : Option Value → Option (Option α)
  | none | some .null => some none
  | some v => (read? v).map some

/-- A list that may be left out, but not null. -/
def parts? {α : Type} (read? : Value → Option α) : Option Value → Option (List α)
  | none => some []
  | some (.array items) => items.mapM read?
  | some _ => none

/-- A text that may be left out, but not null. -/
def textOrEmpty? : Option Value → Option String
  | none => some ""
  | v => text? v

def Tag.ofValue? (v : Value) : Option Tag := do
  match ← fields? ["name", "description"] v with
  | [name, description] => return ⟨← text? name, ← textOrEmpty? description⟩
  | _ => none

/-- A text as a part. -/
def string? (v : Value) : Option String := text? (some v)

def Info.ofValue? (v : Value) : Option Info := do
  match ← fields? ["title", "version", "description"] v with
  | [title, version, description] =>
    return ⟨← text? title, ← text? version, ← part? string? description⟩
  | _ => none

def Example.ofValue? (v : Value) : Option Example := do
  match ← fields? ["name", "summary", "payload"] v with
  | [name, summary, payload] => return ⟨← text? name, ← text? summary, ← part? some payload⟩
  | _ => none

def Message.ofValue? (v : Value) : Option Message := do
  match ← fields? ["messageId", "name", "title", "summary", "description", "payload", "examples"]
      v with
  | [messageId, name, title, summary, description, payload, examples] =>
    return {
      messageId := ← text? messageId
      name := ← text? name
      title := ← part? string? title
      summary := ← part? string? summary
      description := ← part? string? description
      payload := ← part? some payload
      examples := ← parts? Example.ofValue? examples }
  | _ => none

def Operation.ofValue? (v : Value) : Option Operation := do
  match ← fields? ["summary", "description", "operationId", "message"] v with
  | [summary, description, operationId, message] =>
    return {
      summary := ← part? string? summary
      description := ← part? string? description
      operationId := ← text? operationId
      message := ← part? Message.ofValue? message }
  | _ => none

def Channel.ofValue? (v : Value) : Option Channel := do
  match ← fields? ["description", "publish", "subscribe"] v with
  | [description, publish, subscribe] =>
    return {
      description := ← part? string? description
      publish := ← part? Operation.ofValue? publish
      subscribe := ← part? Operation.ofValue? subscribe }
  | _ => none

/-- Channels by name. -/
def channels? : Option Value → Option (NameMap Channel)
  | some (.object members) =>
    (members.mapM fun m => (Channel.ofValue? m.2).map (m.1, ·)).map NameMap.ofList
  | _ => none

/-- The document that a value holds. -/
def ofValue? (v : Value) : Option Document := do
  match ← fields? ["asyncapi", "id", "info", "defaultContentType", "channels", "tags"] v with
  | [asyncapi, id, info, defaultContentType, channels, tags] =>
    return {
      asyncapi := ← text? asyncapi
      id := ← text? id
      info := ← info.bind Info.ofValue?
      defaultContentType := ← part? string? defaultContentType
      channels := ← channels? channels
      tags := ← parts? Tag.ofValue? tags }
  | _ => none

end EventDocs.Document
