import EventDocs.Proofs.Document.Texts
import EventDocs.Proofs.InTurn
import EventDocs.Proofs.Json.Values
import EventDocs.Rendering

/-
A document that was rendered as JSON is read back from its text.

The value of a document names the fields of each record once, and what it leaves out is what the
reader fills in: so each record is read from its members in any order (`fields?_inOrder`), and
absent parts are absent again. Payloads are the only parts that are not made of texts. They must
not be null, which reads as an absent payload, and their numbers must be integers.

The payloads of documents that were assembled come from texts, and null is no payload there.
-/

namespace EventDocs.Document

open EventDocs.Json (Value)
open EventDocs.Json.Value

-- ============================================================ statement vocabulary

def Message.payloads (m : Message) : List Value :=
  m.payload.toList ++ m.examples.filterMap (·.payload)

def Operation.payloads (o : Operation) : List Value := o.message.toList.flatMap Message.payloads

def Channel.payloads (c : Channel) : List Value :=
  (c.publish.toList ++ c.subscribe.toList).flatMap Operation.payloads

/-- The payloads of all messages and examples. -/
def payloads (d : Document) : List Value := d.channels.bindings.flatMap fun c => c.2.payloads

/-- A payload, whose objects are maps by name, that is read as it was written: it does not look
like an absent one, and its numbers are integers. -/
structure Kept (v : Value) : Prop where
  ordered : v.Throughout OrderedNames
  present : v ≠ .null
  integers : v.Throughout Integer64

instance : (v : Value) → Decidable (v = .null)
  | .null => isTrue rfl
  | .bool _ | .number _ | .string _ | .array _ | .object _ => isFalse nofun

instance (v : Value) : Decidable (Kept v) :=
  decidable_of_iff (v.Throughout OrderedNames ∧ v ≠ .null ∧ v.Throughout Integer64)
    ⟨fun h => ⟨h.1, h.2.1, h.2.2⟩, fun h => ⟨h.ordered, h.present, h.integers⟩⟩

theorem Kept.plain {v : Value} (h : Kept v) : v.Throughout Plain :=
  throughout_plain h.integers h.ordered

/-- A JSON text spells a document: it is read as the document, and no object in it has two members
of one name, so it does not matter which of them would count. -/
structure SpelledBy (d : Document) (text : String) : Prop where
  read : (Value.read? text).bind ofValue? = some d
  once : ∃ t, Json.Tree.read? text = some t ∧ t.NamesOnce

/-- A value is plain, and with its members in order it is read as `a`. -/
structure ReadFrom {α : Type} (read? : Value → Option α) (a : α) (v : Value) : Prop where
  plain : v.Throughout Plain
  read : read? v.inOrder = some a

-- ============================================================ members

variable {α : Type} {name : String} {write : α → Value} {read? : Value → Option α} {o : Option α}
  {as : List α} {ms : List (String × Value)} {declared : List String}

theorem plain_string (s : String) : (Value.string s).Throughout Plain :=
  throughout_string.mpr ⟨trivial, trivial⟩

theorem forall_mem_member? {P : String × Value → Prop} :
    (∀ m ∈ member? name write o, P m) ↔ ∀ a ∈ o, P (name, write a) := by
  cases o with
  | none => simp [member?]
  | some a => simp [member?]

theorem plain_listMember? (h : ∀ a ∈ as, (write a).Throughout Plain) :
    ∀ m ∈ listMember? name write as, m.2.Throughout Plain := by
  cases as with
  | nil => simp [listMember?]
  | cons a as =>
      simp only [listMember?, List.mem_singleton, forall_eq]
      exact throughout_array.mpr ⟨⟨trivial, trivial⟩, List.forall_mem_map.mpr h⟩

theorem lookup_member? (name n : String) (write : α → Value) (o : Option α) :
    (member? name write o).lookup n = if n = name then o.map write else none := by
  cases o with
  | none => simp [member?]
  | some a => exact lookup_cons_eq_if name n (write a) []

theorem lookup_listMember? (name n : String) (write : α → Value) (as : List α) :
    (listMember? name write as).lookup n
      = if n = name then if as = [] then none else some (.array (as.map write)) else none := by
  cases as with
  | nil => simp [listMember?]
  | cons a as => simp [listMember?, lookup_cons_eq_if]

theorem names_member? (name : String) (write : α → Value) (o : Option α) :
    ((member? name write o).map Prod.fst).Sublist [name] := by
  cases o with
  | none => exact List.nil_sublist _
  | some a => exact List.Sublist.refl _

theorem names_listMember? (name : String) (write : α → Value) (as : List α) :
    ((listMember? name write as).map Prod.fst).Sublist [name] := by
  cases as with
  | nil => exact List.nil_sublist _
  | cons a as => exact List.Sublist.refl _

-- ============================================================ fields

/-- The fields of a record are read from its members, in whatever order these are. -/
theorem fields?_inOrder (hnames : (ms.map Prod.fst).Sublist declared) (hdeclared : declared.Nodup) :
    fields? declared (Value.object ms).inOrder
      = some (declared.map fun n => (ms.lookup n).map inOrder) := by
  have hnodup : ((ms.map fun m => (m.1, m.2.inOrder)).map Prod.fst).Nodup := by
    rw [List.map_map]
    exact hdeclared.sublist hnames
  rw [inOrder, membersInOrder_eq_map, fields?]
  simp only [NameMap.lookup_ofList hnodup, lookup_map_snd]

theorem ReadFrom.record (declared : List String) {a : α}
    (hnames : (ms.map Prod.fst).Sublist declared) (hdeclared : declared.Nodup)
    (hparts : ∀ m ∈ ms, m.2.Throughout Plain)
    (hread : ∀ v, fields? declared v = some (declared.map fun n => (ms.lookup n).map inOrder) →
      read? v = some a) : ReadFrom read? a (.object ms) where
  plain := throughout_object.mpr ⟨⟨trivial, hdeclared.sublist hnames⟩, hparts⟩
  read := hread _ (fields?_inOrder hnames hdeclared)

-- ============================================================ parts

theorem part?_texts (o : Option String) :
    part? string? (o.map (inOrder ∘ Value.string)) = some o := by
  cases o with
  | none => rfl
  | some s => rfl

theorem part?_of_ne_null {v : Value} (h : v ≠ .null) :
    part? read? (some v) = (read? v).map some := by
  cases v with
  | null => exact absurd rfl h
  | _ => rfl

theorem part?_records (hread : ∀ a ∈ o, ReadFrom read? a (write a))
    (hobject : ∀ a, (write a).inOrder ≠ .null) :
    part? read? (o.map (inOrder ∘ write)) = some o := by
  cases o with
  | none => rfl
  | some a =>
      rw [Option.map_some, Function.comp_apply, part?_of_ne_null (hobject a), (hread a rfl).read]
      rfl

theorem part?_payloads {o : Option Value} (h : ∀ v ∈ o, Kept v) :
    part? some (o.map inOrder) = some o := by
  cases o with
  | none => rfl
  | some v =>
      have hv := h v rfl
      rw [Option.map_some, inOrder_eq_self hv.ordered, part?_of_ne_null hv.present]
      rfl

theorem mapM_records (h : ∀ a ∈ as, ReadFrom read? a (write a)) :
    ((as.map write).map inOrder).mapM read? = some as := by
  rw [mapM_some_iff, List.map_map, List.forall₂_map_left_iff, List.forall₂_same]
  intro a ha
  exact (h a ha).read

theorem parts?_records (h : ∀ a ∈ as, ReadFrom read? a (write a)) :
    parts? read? ((if as = [] then none else some (Value.array (as.map write))).map inOrder)
      = some as := by
  by_cases has : as = []
  · subst has
    rfl
  · rw [if_neg has, Option.map_some, inOrder, itemsInOrder_eq_map, parts?]
    exact mapM_records h

-- ============================================================ records

theorem Tag.readFrom (t : Tag) : ReadFrom Tag.ofValue? t t.toValue := by
  obtain ⟨name, description⟩ := t
  unfold Tag.toValue
  by_cases hempty : description = ""
  · subst hempty
    refine .record ["name", "description"] (by simp) (by decide) (by simp [plain_string]) ?_
    intro v hfields
    simp [Tag.ofValue?, hfields, lookup_cons_eq_if, text?, textOrEmpty?]
  · rw [if_neg hempty]
    refine .record ["name", "description"] (by simp) (by decide) (by simp [plain_string]) ?_
    intro v hfields
    simp [Tag.ofValue?, hfields, lookup_cons_eq_if, text?, textOrEmpty?]

theorem Info.readFrom (i : Info) : ReadFrom Info.ofValue? i i.toValue := by
  refine .record ["title", "version", "description"] ?_ (by decide) ?_ ?_
  · rw [List.map_append]
    exact (List.Sublist.refl ["title", "version"]).append (names_member? _ _ _)
  · simp only [List.forall_mem_append, List.forall_mem_cons, forall_mem_member?, plain_string]
    simp
  · intro v hfields
    simp [Info.ofValue?, hfields, lookup_cons_eq_if, lookup_member?, text?, part?_texts]

theorem Example.readFrom {e : Example} (h : ∀ v ∈ e.payload, Kept v) :
    ReadFrom Example.ofValue? e e.toValue := by
  refine .record ["name", "summary", "payload"] ?_ (by decide) ?_ ?_
  · rw [List.map_append]
    exact (List.Sublist.refl ["name", "summary"]).append (names_member? _ _ _)
  · simp only [List.forall_mem_append, List.forall_mem_cons, forall_mem_member?, plain_string]
    exact ⟨by simp, fun v hv => (h v hv).plain⟩
  · intro v hfields
    simp [Example.ofValue?, hfields, lookup_cons_eq_if, lookup_member?, text?, part?_payloads h]

theorem Message.readFrom {m : Message} (h : ∀ v ∈ m.payloads, Kept v) :
    ReadFrom Message.ofValue? m m.toValue := by
  obtain ⟨hpayload, hexamples⟩ := List.forall_mem_append.mp h
  simp only [Option.mem_toList] at hpayload
  have hread : ∀ e ∈ m.examples, ReadFrom Example.ofValue? e e.toValue := fun e he =>
    Example.readFrom fun v hv => hexamples v (List.mem_filterMap.mpr ⟨e, he, hv⟩)
  refine .record ["messageId", "name", "title", "summary", "description", "payload", "examples"]
    ?_ (by decide) ?_ ?_
  · simp only [List.map_append]
    exact (((((List.Sublist.refl ["messageId", "name"]).append (names_member? _ _ _)).append
      (names_member? _ _ _)).append (names_member? _ _ _)).append (names_member? _ _ _)).append
      (names_listMember? _ _ _)
  · simp only [List.forall_mem_append, List.forall_mem_cons, forall_mem_member?, plain_string]
    exact ⟨⟨by simp, fun v hv => (hpayload v hv).plain⟩,
      plain_listMember? fun e he => (hread e he).plain⟩
  · intro v hfields
    simp [Message.ofValue?, hfields, lookup_cons_eq_if, lookup_member?, lookup_listMember?,
      List.lookup_append, text?, part?_texts, part?_payloads hpayload, parts?_records hread]

theorem Operation.readFrom {o : Operation} (h : ∀ v ∈ o.payloads, Kept v) :
    ReadFrom Operation.ofValue? o o.toValue := by
  have hread : ∀ m ∈ o.message, ReadFrom Message.ofValue? m m.toValue := fun m hm =>
    Message.readFrom fun v hv => h v (List.mem_flatMap.mpr ⟨m, Option.mem_toList.mpr hm, hv⟩)
  refine .record ["summary", "description", "operationId", "message"] ?_ (by decide) ?_ ?_
  · simp only [List.map_append]
    exact (((names_member? _ _ _).append (names_member? _ _ _)).append
      (List.Sublist.refl ["operationId"])).append (names_member? _ _ _)
  · simp only [List.forall_mem_append, List.forall_mem_cons, forall_mem_member?, plain_string]
    exact ⟨by simp, fun m hm => (hread m hm).plain⟩
  · intro v hfields
    have hmessage := part?_records hread fun m h => by cases h
    simp [Operation.ofValue?, hfields, lookup_cons_eq_if, lookup_member?, List.lookup_append,
      text?, part?_texts, hmessage]

theorem Channel.readFrom {c : Channel} (h : ∀ v ∈ c.payloads, Kept v) :
    ReadFrom Channel.ofValue? c c.toValue := by
  have hread : ∀ o ∈ c.publish.toList ++ c.subscribe.toList,
      ReadFrom Operation.ofValue? o o.toValue := fun o ho =>
    Operation.readFrom fun v hv => h v (List.mem_flatMap.mpr ⟨o, ho, hv⟩)
  obtain ⟨hpublish, hsubscribe⟩ := List.forall_mem_append.mp hread
  simp only [Option.mem_toList] at hpublish hsubscribe
  refine .record ["description", "publish", "subscribe"] ?_ (by decide) ?_ ?_
  · simp only [List.map_append]
    exact ((names_member? _ _ _).append (names_member? _ _ _)).append (names_member? _ _ _)
  · simp only [List.forall_mem_append, forall_mem_member?, plain_string]
    exact ⟨⟨by simp, fun o ho => (hpublish o ho).plain⟩, fun o ho => (hsubscribe o ho).plain⟩
  · intro v hfields
    have hpublished := part?_records hpublish fun o h => by cases h
    have hsubscribed := part?_records hsubscribe fun o h => by cases h
    simp [Channel.ofValue?, hfields, lookup_member?, List.lookup_append, part?_texts, hpublished,
      hsubscribed]

/-- Channels are written in the order of their names, and so they are read. -/
theorem channels?_inOrder {channels : NameMap Channel}
    (h : ∀ c ∈ channels.bindings, ReadFrom Channel.ofValue? c.2 c.2.toValue) :
    channels? (some (Value.object (channels.bindings.map fun c => (c.1, c.2.toValue))).inOrder)
      = some channels := by
  have hascending : Ascending (channels.bindings.map fun c => (c.1, c.2.toValue.inOrder)) :=
    (ascending_map_iff fun c : Channel => c.toValue.inOrder).mpr channels.ascending
  have hread : (channels.bindings.map fun c => (c.1, c.2.toValue.inOrder)).mapM
      (fun m => (Channel.ofValue? m.2).map (m.1, ·)) = some channels.bindings := by
    rw [mapM_some_iff, List.forall₂_map_left_iff, List.forall₂_same]
    intro c hc
    rw [(h c hc).read]
    rfl
  rw [inOrder, membersInOrder_eq_map, List.map_map]
  simp only [Function.comp_def]
  rw [NameMap.bindings_ofList hascending, channels?, hread, Option.map_some,
    NameMap.ofList_bindings]

theorem readFrom {d : Document} (h : ∀ v ∈ d.payloads, Kept v) :
    ReadFrom ofValue? d d.toValue := by
  have hread : ∀ c ∈ d.channels.bindings, ReadFrom Channel.ofValue? c.2 c.2.toValue :=
    fun c hc => Channel.readFrom fun v hv => h v (List.mem_flatMap.mpr ⟨c, hc, hv⟩)
  have htags : ∀ t ∈ d.tags, ReadFrom Tag.ofValue? t t.toValue := fun t _ => t.readFrom
  have hchannels : (Value.object (d.channels.bindings.map fun c => (c.1, c.2.toValue))).Throughout
      Plain := by
    have hnames := ((ascending_map_iff Channel.toValue).mpr d.channels.ascending).nodup
    refine throughout_object.mpr ⟨⟨trivial, hnames⟩, List.forall_mem_map.mpr ?_⟩
    exact fun c hc => (hread c hc).plain
  refine .record ["asyncapi", "id", "info", "defaultContentType", "channels", "tags"] ?_ (by decide)
    ?_ ?_
  · simp only [List.map_append]
    exact (((List.Sublist.refl ["asyncapi", "id", "info"]).append (names_member? _ _ _)).append
      (List.Sublist.refl ["channels"])).append (names_listMember? _ _ _)
  · simp only [List.forall_mem_append, List.forall_mem_cons, forall_mem_member?, plain_string]
    refine ⟨⟨by simp [d.info.readFrom.plain], by simp [hchannels]⟩, ?_⟩
    exact plain_listMember? fun t ht => (htags t ht).plain
  · intro v hfields
    simp [ofValue?, hfields, lookup_cons_eq_if, lookup_member?, lookup_listMember?,
      List.lookup_append, text?, part?_texts, d.info.readFrom.read, channels?_inOrder hread,
      parts?_records htags]

-- ============================================================ the round trip

theorem spelledBy_render {d : Document} (h : ∀ v ∈ d.payloads, Kept v)
    (hdepth : d.toValue.depth ≤ maxDepth) : d.SpelledBy (Format.json.render d) := by
  obtain ⟨hplain, hread⟩ := readFrom h
  obtain ⟨hvalue, htree⟩ := read?_toPretty_line hplain hdepth
  refine ⟨?_, htree⟩
  rw [Format.render, hvalue]
  exact hread

-- ============================================================ assembled documents

theorem payload_ordered (text : String) : (payload text).Throughout OrderedNames := by
  unfold payload
  split
  next members hread => exact orderedNames_of_read? hread
  next items hread => exact orderedNames_of_read? hread
  next => exact throughout_string.mpr trivial

theorem payload_ne_null (text : String) : payload text ≠ .null := by
  unfold payload
  split
  · simp
  · simp
  · simp

theorem payloads_message {id : String} {blocks : List Block} {v : Value}
    (h : v ∈ (Outline.message id blocks).payloads) : ∃ text, v = payload text := by
  rcases List.mem_append.mp h with h | h
  · obtain ⟨text, -, rfl⟩ := Option.map_eq_some_iff.mp (Option.mem_toList.mp h)
    exact ⟨text, (payload_eq_embedded text).symm⟩
  · obtain ⟨e, he, hv⟩ := List.mem_filterMap.mp h
    obtain ⟨b, -, rfl⟩ := List.mem_map.mp he
    exact ⟨b.value, (Option.some.inj hv).symm.trans (payload_eq_embedded b.value).symm⟩

theorem payloads_operation {t : ContextTree} {n : NodeId} {v : Value}
    (h : v ∈ (t.operation n).payloads) : ∃ text, v = payload text := by
  obtain ⟨m, hm, hv⟩ := List.mem_flatMap.mp h
  have hmessage : t.message? n = some m := Option.mem_toList.mp hm
  unfold ContextTree.message? at hmessage
  split at hmessage
  · cases hmessage
  · obtain rfl := Option.some.inj hmessage
    rw [← List.foldl_flatMap, Message.foldl_addBlock] at hv
    exact payloads_message hv

theorem payloads_channel {t : ContextTree} {n : NodeId} {v : Value}
    (h : v ∈ (t.channel n).payloads) : ∃ text, v = payload text := by
  unfold ContextTree.channel at h
  rw [Channel.foldl_addBlock, Channel.foldl_addOperation] at h
  obtain ⟨o, ho, hv⟩ := List.mem_flatMap.mp h
  have hoperation : ∃ k, t.operation k = o := by
    rcases List.mem_append.mp ho with ho | ho
    · obtain ⟨k, -, hk⟩ := Option.map_eq_some_iff.mp (Option.mem_toList.mp ho)
      exact ⟨k, hk⟩
    · obtain ⟨k, -, hk⟩ := Option.map_eq_some_iff.mp (Option.mem_toList.mp ho)
      exact ⟨k, hk⟩
  obtain ⟨k, rfl⟩ := hoperation
  exact payloads_operation hv

/-- All payloads of assembled documents come from texts. -/
theorem payloads_assemble {t : ContextTree} {s : ServiceDocument} (hs : s ∈ assemble t) {v : Value}
    (hv : v ∈ s.document.payloads) : ∃ text, v = payload text := by
  obtain ⟨n, -, hdocument⟩ := List.mem_filterMap.mp hs
  obtain ⟨b, -, rfl⟩ := Option.map_eq_some_iff.mp hdocument
  obtain ⟨c, hc, hv⟩ := List.mem_flatMap.mp hv
  unfold ContextTree.service at hc
  rw [NameMap.foldl_insert_eq_ofList] at hc
  obtain ⟨k, -, rfl⟩ := List.mem_map.mp (NameMap.mem_ofList hc)
  exact payloads_channel hv

/-- A document rendered as JSON is read back from its text: every document with payloads that are
kept, and every assembled document whose payloads have integers for numbers; as long as the
nesting is not too deep for the reader. -/
theorem spelledBy_render_json :
    (∀ d : Document, (∀ v ∈ d.payloads, Kept v) → d.toValue.depth ≤ maxDepth →
      d.SpelledBy (Format.json.render d))
    ∧ ∀ (t : ContextTree), ∀ s ∈ assemble t, (∀ v ∈ s.document.payloads, v.Throughout Integer64) →
      s.document.toValue.depth ≤ maxDepth →
        s.document.SpelledBy (Format.json.render s.document) := by
  refine ⟨fun d => spelledBy_render, ?_⟩
  intro t s hs hinteger hdepth
  refine spelledBy_render ?_ hdepth
  intro v hv
  obtain ⟨text, rfl⟩ := payloads_assemble hs hv
  exact ⟨payload_ordered text, payload_ne_null text, hinteger _ hv⟩

/-- A document with the greatest and the least integers, a text that needs escapes, an example
without payload, a channel without anything and a tag without description. -/
def sampleDocument : Document where
  asyncapi := "2.6.0"
  id := ""
  info := ⟨"\"\x01\\", "1.0.0", none⟩
  defaultContentType := none
  channels := .ofList
    [("z", ⟨none, none, none⟩), ("a/b", ⟨some "", none, some ⟨none, none, "o", some
      { messageId := "m", name := "m", title := none, summary := none, description := none
        payload := some (.object [("maximum", .number (.integer 18446744073709551615)),
          ("minimum", .number (.integer (-9223372036854775808)))])
        examples := [⟨"m", "", none⟩, ⟨"m", "", some (.array [.null, .string "null"])⟩] }⟩⟩)]
  tags := [⟨"repoUrl", ""⟩]

/-- So it is with that document, and with the document of a service whose message has a schema. -/
theorem spelledBy_render_json_sample :
    let service : Block :=
      { (default : Block) with precedence := .service, label := { id := "a" } }
    let channel : Block :=
      { (default : Block) with precedence := .channel, label := { id := "c", parent := "a" } }
    let operation : Block := { (default : Block) with
      precedence := .operation
      label := { id := "o", parent := "c", category := some .pubOperation } }
    let schema : Block := { (default : Block) with
      precedence := .message
      label := { id := "m", parent := "o", contentType := some .jsonSchema }
      value := "[1, -2]" }
    let t := ContextTree.build [service, channel, operation, schema]
    sampleDocument.payloads.length = 2
      ∧ sampleDocument.SpelledBy (Format.json.render sampleDocument)
      ∧ (assemble t).map (·.document.toValue.depth) = [6]
      ∧ ∀ s ∈ assemble t, s.document.SpelledBy (Format.json.render s.document) := by
  intro service channel operation schema t
  have hinteger : ∀ s ∈ assemble t, ∀ v ∈ s.document.payloads, v.Throughout Integer64 := by
    decide +kernel
  have hdepth : ∀ s ∈ assemble t, s.document.toValue.depth ≤ maxDepth := by decide +kernel
  refine ⟨by decide +kernel, spelledBy_render_json.1 _ (by decide +kernel) (by decide +kernel),
    by decide +kernel, ?_⟩
  intro s hs
  exact spelledBy_render_json.2 t s hs (hinteger s hs) (hdepth s hs)

end EventDocs.Document
