import EventDocs.Document.Assemble
import Mathlib.Data.List.Induction

/-
What the blocks of an entity say, read off their list. Of all blocks with a content type the
last one counts, and every example is kept, in the order of the list.

Assembling goes through the blocks in turn, and each overwrites what was said before. One more
block at the end of the list changes both readings in the same way: the field that its content
type is about has its text, and all other fields stay (`Message.addBlock_eq` and its like on one
side, `Outline.lastText?_concat` on the other). By induction from the end of the list the loops
give what the list says.
-/

namespace EventDocs

open Document

-- ============================================================ statement vocabulary

namespace Outline

/-- The text of the last block with a content type. -/
def lastText? (type : ContentType) (blocks : List Block) : Option String :=
  ((blocks.filter (·.label.contentType = some type)).getLast?).map (·.value)

/-- What a text stands for: the object or the array that it spells, or else itself. -/
def embedded (text : String) : Json.Value :=
  let compound : Json.Value → Bool := fun
    | .object _ | .array _ => true
    | _ => false
  ((Json.Value.read? text).filter compound).getD (.string text)

/-- Where a block stands: `"file":"<file>[<first line>-<last line>]"` and `"path":"<path>"`,
the two members of an object. -/
def origin (b : Block) : String :=
  let source := b.beginToken.source
  let lines := "[" ++ b.beginToken.line.repr ++ "-" ++ b.endToken.line.repr ++ "]"
  .ofList ('{' :: Json.printString "file" ++ ':' :: Json.printString (source.file ++ lines)
    ++ ',' :: Json.printString "path" ++ ':' :: Json.printString source.path ++ ['}'])

/-- The examples that blocks give for a message, each of them one. -/
def examples (messageId : String) (blocks : List Block) : List Example :=
  (blocks.filter (·.label.contentType = some .example)).map fun b =>
    { name := messageId, summary := origin b, payload := some (embedded b.value) }

/-- The message of an id that some blocks describe. -/
def message (id : String) (blocks : List Block) : Message where
  messageId := id
  name := id
  title := lastText? .title blocks
  summary := lastText? .summary blocks
  description := lastText? .description blocks
  payload := (lastText? .jsonSchema blocks).map embedded
  examples := examples id blocks

end Outline

-- ============================================================ one more block

/-- Of those that `p` holds of, one that is put at the end is the last. -/
theorem map_getLast?_filter_concat {α β : Type} (f : α → β) (p : α → Bool) (l : List α) (a : α) :
    (((l ++ [a]).filter p).getLast?).map f
      = if p a then some (f a) else ((l.filter p).getLast?).map f := by
  rw [List.filter_append]
  by_cases ha : p a = true
  · rw [if_pos ha, List.filter_cons_of_pos ha, List.filter_nil, List.getLast?_concat,
      Option.map_some]
  · rw [if_neg ha, List.filter_cons_of_neg ha, List.filter_nil, List.append_nil]

namespace Outline

variable (blocks : List Block) (b : Block)

theorem lastText?_concat (type : ContentType) : lastText? type (blocks ++ [b])
    = if b.label.contentType = some type then some b.value else lastText? type blocks := by
  unfold lastText?
  rw [map_getLast?_filter_concat]
  simp only [decide_eq_true_eq]

theorem examples_concat (id : String) : examples id (blocks ++ [b]) = examples id blocks
    ++ if b.label.contentType = some .example then [⟨id, origin b, some (embedded b.value)⟩]
      else [] := by
  unfold examples
  rw [List.filter_append, List.map_append]
  by_cases hb : b.label.contentType = some .example
  · rw [if_pos hb, List.filter_cons_of_pos (by simpa using hb)]
    rfl
  · rw [if_neg hb, List.filter_cons_of_neg (by simpa using hb)]
    rfl

end Outline

theorem payload_eq_embedded (text : String) : payload text = Outline.embedded text := by
  unfold payload Outline.embedded
  cases Json.Value.read? text with
  | none => rfl
  | some v => cases v <;> rfl

theorem exampleSummary_eq_origin (b : Block) : exampleSummary b = Outline.origin b := by
  simp [exampleSummary, Outline.origin, Json.Value.toCompact, Json.Value.compact,
    Json.Value.compactMembers, String.append_assoc]

-- ============================================================ loops

namespace Document

variable (b : Block) (blocks : List Block)

theorem Info.addBlock_eq (i : Info) : i.addBlock b
    = { i with
        title := if b.label.contentType = some .title then b.value else i.title
        description := if b.label.contentType = some .description then some b.value
          else i.description } := by
  unfold Info.addBlock
  split <;> simp_all

theorem Channel.addBlock_eq (c : Channel) : c.addBlock b
    = { c with
        description := if b.label.contentType = some .description then some b.value
          else c.description } := by
  unfold Channel.addBlock
  split <;> simp_all

theorem Operation.addBlock_eq (o : Operation) : o.addBlock b
    = { o with
        summary := if b.label.contentType = some .summary then some b.value else o.summary
        description := if b.label.contentType = some .description then some b.value
          else o.description } := by
  unfold Operation.addBlock
  split <;> simp_all

theorem Message.addBlock_eq (m : Message) : m.addBlock b
    = { m with
        title := if b.label.contentType = some .title then some b.value else m.title
        summary := if b.label.contentType = some .summary then some b.value else m.summary
        description := if b.label.contentType = some .description then some b.value
          else m.description
        payload := if b.label.contentType = some .jsonSchema then
          some (Outline.embedded b.value) else m.payload
        examples := m.examples ++ if b.label.contentType = some .example then
          [⟨m.messageId, Outline.origin b, some (Outline.embedded b.value)⟩] else [] } := by
  unfold Message.addBlock
  split <;> simp_all [payload_eq_embedded, exampleSummary_eq_origin]

theorem Info.foldl_addBlock (title version : String) :
    blocks.foldl Info.addBlock ⟨title, version, none⟩
      = ⟨(Outline.lastText? .title blocks).getD title, version,
          Outline.lastText? .description blocks⟩ := by
  induction blocks using List.reverseRecOn with
  | nil => rfl
  | append_singleton blocks b ih =>
      rw [List.foldl_append, ih, List.foldl_cons, List.foldl_nil, Info.addBlock_eq,
        Outline.lastText?_concat, Outline.lastText?_concat, apply_ite (Option.getD · title)]
      rfl

theorem Channel.foldl_addBlock :
    blocks.foldl Channel.addBlock .empty
      = ⟨Outline.lastText? .description blocks, none, none⟩ := by
  induction blocks using List.reverseRecOn with
  | nil => rfl
  | append_singleton blocks b ih =>
      rw [List.foldl_append, ih, List.foldl_cons, List.foldl_nil, Channel.addBlock_eq,
        Outline.lastText?_concat]

theorem Operation.foldl_addBlock (id : String) :
    blocks.foldl Operation.addBlock (.ofId id)
      = ⟨Outline.lastText? .summary blocks, Outline.lastText? .description blocks, id, none⟩ := by
  induction blocks using List.reverseRecOn with
  | nil => rfl
  | append_singleton blocks b ih =>
      rw [List.foldl_append, ih, List.foldl_cons, List.foldl_nil, Operation.addBlock_eq,
        Outline.lastText?_concat, Outline.lastText?_concat]

theorem Message.foldl_addBlock (id : String) :
    blocks.foldl Message.addBlock (.ofId id) = Outline.message id blocks := by
  induction blocks using List.reverseRecOn with
  | nil => rfl
  | append_singleton blocks b ih =>
      rw [List.foldl_append, ih, List.foldl_cons, List.foldl_nil, Message.addBlock_eq]
      unfold Outline.message
      simp only [Outline.lastText?_concat, Outline.examples_concat,
        apply_ite (Option.map Outline.embedded), Option.map_some]

theorem Channel.addOperation_eq (c : Channel) (category : Option Category) (o : Operation) :
    c.addOperation category o
      = { c with
          publish := if category = some .pubOperation then some o else c.publish
          subscribe := if category = some .subOperation then some o else c.subscribe } := by
  unfold Channel.addOperation
  split <;> simp_all

/-- Of several operations on one side of a channel the last one counts. -/
theorem Channel.foldl_addOperation {α : Type} (category : α → Option Category)
    (operation : α → Operation) (description : Option String) (entities : List α) :
    entities.foldl (fun (c : Channel) e => c.addOperation (category e) (operation e))
        ⟨description, none, none⟩
      = ⟨description, ((entities.filter (category · = some .pubOperation)).getLast?).map operation,
          ((entities.filter (category · = some .subOperation)).getLast?).map operation⟩ := by
  induction entities using List.reverseRecOn with
  | nil => rfl
  | append_singleton entities e ih =>
      rw [List.foldl_append, ih, List.foldl_cons, List.foldl_nil, Channel.addOperation_eq,
        map_getLast?_filter_concat, map_getLast?_filter_concat]
      simp only [decide_eq_true_eq]

end Document

end EventDocs
