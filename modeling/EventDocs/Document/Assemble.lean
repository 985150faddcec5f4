import EventDocs.ContextTree.Build
import EventDocs.Document
import EventDocs.Json.Printer

/-
Documents from a context tree, one for each service in it. The leaves of an
entity supply its texts: they are gone through in turn, and each sets what its
content type is about, whatever was said before, or adds an example. An
operation has one message; the message entities under it all contribute to it,
and the first gives it its name.
-/

namespace EventDocs

-- ============================================================ what a block says

/-- JSON objects and arrays are embedded as such, any other text as a string. -/
def payload (text : String) : Json.Value :=
  match Json.Value.read? text with
  | some (.object members) => .object members
  | some (.array items) => .array items
  | _ => .string text

/-- Where an example comes from: `file[first line-last line]` and the path. -/
def exampleSummary (b : Block) : String :=
  let source := b.beginToken.source
  let file := source.file ++ "[" ++ b.beginToken.line.repr ++ "-" ++ b.endToken.line.repr ++ "]"
  (Json.Value.object [("file", .string file), ("path", .string source.path)]).toCompact

namespace Document

def Info.addBlock (info : Info) (b : Block) : Info :=
  match b.label.contentType with
  | some .description => { info with description := some b.value }
  | some .title => { info with title := b.value }
  | _ => info

def Channel.addBlock (c : Channel) (b : Block) : Channel :=
  match b.label.contentType with
  | some .description => { c with description := some b.value }
  | _ => c

/-- An operation takes the side of the channel that its category names. -/
def Channel.addOperation (c : Channel) (category : Option Category) (o : Operation) : Channel :=
  match category with
  | some .pubOperation => { c with publish := some o }
  | some .subOperation => { c with subscribe := some o }
  | _ => c

def Operation.addBlock (o : Operation) (b : Block) : Operation :=
  match b.label.contentType with
  | some .summary => { o with summary := some b.value }
  | some .description => { o with description := some b.value }
  | _ => o

/-- Examples are named after the message. -/
def Message.addBlock (m : Message) (b : Block) : Message :=
  match b.label.contentType with
  | some .summary => { m with summary := some b.value }
  | some .description => { m with description := some b.value }
  | some .title => { m with title := some b.value }
  | some .jsonSchema => { m with payload := some (EventDocs.payload b.value) }
  | some .example =>
    { m with
      examples :=
        m.examples ++ [⟨m.messageId, exampleSummary b, some (EventDocs.payload b.value)⟩] }
  | some .nameId | none => m

/-- A channel of which nothing is known. -/
def Channel.empty : Channel := ⟨none, none, none⟩

/-- An operation of which only the id is known. -/
def Operation.ofId (id : String) : Operation := ⟨none, none, id, none⟩

/-- A message of which only the id is known. -/
def Message.ofId (id : String) : Message where
  messageId := id
  name := id
  title := none
  summary := none
  description := none
  payload := none
  examples := []

end Document

-- ============================================================ entities

namespace ContextTree

open Document

/-- The id of a node's key. -/
def idOf (t : ContextTree) (n : NodeId) : String :=
  match t.nodes[n]? with
  | some node => node.key.id
  | none => ""

/-- The block that a node was made for. -/
def blockOf? (t : ContextTree) (n : NodeId) : Option Block :=
  (t.nodes[n]?).bind (·.block)

/-- The message of an operation: the first message entity names it, and the
leaves of all of them describe it. -/
def message? (t : ContextTree) (operation : NodeId) : Option Message :=
  match t.entities operation with
  | [] => none
  | first :: more =>
    some <| (first :: more).foldl (fun m n => (t.leafBlocks n).foldl Message.addBlock m)
      (.ofId (t.idOf first))

def operation (t : ContextTree) (n : NodeId) : Operation :=
  { (t.leafBlocks n).foldl Operation.addBlock (.ofId (t.idOf n)) with message := t.message? n }

def channel (t : ContextTree) (n : NodeId) : Channel :=
  (t.entities n).foldl
    (fun c o => c.addOperation ((t.blockOf? o).bind (·.label.category)) (t.operation o))
    ((t.leafBlocks n).foldl Channel.addBlock .empty)

/-- The document of a service, made for its entity's block. -/
def service (t : ContextTree) (n : NodeId) (b : Block) : Document where
  asyncapi := "2.6.0"
  id := b.label.serviceUrn
  info := (t.leafBlocks n).foldl Info.addBlock ⟨b.label.id, "1.0.0", none⟩
  defaultContentType := some "application/json"
  channels := (t.entities n).foldl (fun m c => m.insert (t.idOf c) (t.channel c)) .empty
  tags := [⟨"repoUrl", b.label.repoUrl⟩, ⟨"repoLang", b.label.repoLanguage⟩]

end ContextTree

-- ============================================================ documents

/-- A document and the service that it is about. -/
structure ServiceDocument where
  serviceId : String
  document : Document

/-- The documents of all services in a tree. -/
def assemble (t : ContextTree) : List ServiceDocument :=
  (t.children ContextTree.parented).filterMap fun n =>
    (t.blockOf? n).map fun b => ⟨b.label.id, t.service n b⟩

end EventDocs
