import EventDocs.Proofs.Analysis.Parts

/-
Every block is linked: whatever the author left out of its label has been filled in, and what the
tree asks of a block holds of all of them.

A block comes from a stretch of tokens that is closed, and from the label that its begin marker
declares (`Stretch.Yields.block`). The declared label says nothing of the repository
(`unstamped_of_parse`); what is filled in is decided by the precedence alone, one rule for each
(`complete_service` to `complete_message`). The two meet in `wellLinked_of_mem_blocks`.
-/

namespace EventDocs

-- ============================================================ statement vocabulary

/-- A text has a character that identifiers are made of, and `id` is the first run of such
characters that cannot be made longer. -/
def IsFirstId (value id : String) : Prop :=
  ∃ before run after, value.toList = before ++ run ++ after ∧ id = .ofList run ∧ run ≠ []
    ∧ (∀ c ∈ before, isIdChar c = false) ∧ (∀ c ∈ run, isIdChar c = true)
    ∧ ∀ c ∈ after.head?, isIdChar c = false

/-- What stands in for a parent that was not declared. -/
def fallbackParent (r : Repository) (declared : Label) (id : String) : Precedence → String
  | .channel => r.serviceId
  | .operation => declared.channelId
  | .message => id
  | .service | .structural => ""

/-- A label is complete, as the precedence asks for. -/
structure Label.Linked (r : Repository) (declared : Label) (p : Precedence) (a : Label) : Prop where
  hasId : a.id ≠ ""
  named : a.name = a.id
  /-- Services are stamped with where they come from. -/
  stamped : p = .service →
    a.repoUrl = r.url ∧ a.repoLanguage = r.language
    ∧ a.serviceUrn = "urn:" ++ r.businessDomain ++ ":" ++ r.boundedContext ++ ":" ++ a.id
  /-- Everything else is not, and has a parent. -/
  unstamped : p ≠ .service → a.repoUrl = "" ∧ a.repoLanguage = "" ∧ a.serviceUrn = ""
  hasParent : p ≠ .service → a.parent ≠ ""
    ∧ a.parent = if declared.parent = "" then fallbackParent r declared a.id p else declared.parent
  hasContent : p = .message → a.contentType ≠ none

/-- A block is linked to the label that its begin marker declares. -/
structure Block.WellLinked (r : Repository) (declared : Label) (b : Block) : Prop where
  category : ∃ c, b.label.category = some c ∧ b.precedence = c.precedence
  linked : Label.Linked r declared b.precedence b.label
  /-- An identifier in the text counts before any that was declared. -/
  identified : b.label.contentType = some .nameId → (∃ c ∈ b.value.toList, isIdChar c = true) →
    IsFirstId b.value b.label.id

/-- The markers of a block are markers among some tokens, in order and with none in between. -/
def Block.Delimited (tokens : List Token) (b : Block) : Prop :=
  ∃ before body after, tokens = before ++ b.beginToken :: (body ++ b.endToken :: after)
    ∧ b.beginToken.kind = .beginMarker ∧ b.endToken.kind = .endMarker
    ∧ ∀ t ∈ body, t.kind.isMarker = false

-- ============================================================ declared labels

namespace Label

/-- Nothing is known of the repository. -/
def Unstamped (a : Label) : Prop := a.repoUrl = "" ∧ a.repoLanguage = "" ∧ a.serviceUrn = ""

theorem Unstamped.set {a : Label} (h : a.Unstamped) (t : Tag) : (a.set t).Unstamped := by
  cases t with
  | _ => exact h

theorem unstamped_of_parse {metadata : String} {a : Label} (h : parse metadata = .ok a) :
    a.Unstamped := by
  unfold parse at h
  cases htags : tags metadata with
  | error e =>
      rw [htags] at h
      cases h
  | ok ts =>
      rw [htags] at h
      obtain rfl := Except.ok.inj h
      have hfold : ∀ (ts : List Tag) (a : Label), a.Unstamped → (ts.foldl set a).Unstamped := by
        intro ts
        induction ts with
        | nil => exact fun a ha => ha
        | cons t ts ih => exact fun a ha => ih (a.set t) (ha.set t)
      exact hfold ts {} ⟨rfl, rfl, rfl⟩

-- ============================================================ what is filled in

/-- A computation that succeeds has had its first step succeed. -/
theorem exists_of_bind_ok {ε α β : Type} {x : Except ε α} {f : α → Except ε β} {y : β}
    (h : (x >>= f) = .ok y) : ∃ a, x = .ok a ∧ f a = .ok y := by
  cases x with
  | error e => cases h
  | ok a => exact ⟨a, rfl, h⟩

theorem firstNonEmpty?_pair {s t u : String} (h : firstNonEmpty? [s, t] = some u) :
    u ≠ "" ∧ u = if s = "" then t else s := by
  unfold firstNonEmpty? at h
  by_cases hs : s = ""
  · rw [if_pos hs] at h ⊢
    unfold firstNonEmpty? at h
    by_cases ht : t = ""
    · rw [if_pos ht] at h
      cases h
    · rw [if_neg ht] at h
      obtain rfl := Option.some.inj h
      exact ⟨ht, rfl⟩
  · rw [if_neg hs] at h ⊢
    obtain rfl := Option.some.inj h
    exact ⟨hs, rfl⟩

theorem firstNonEmpty?_single {s u : String} (h : firstNonEmpty? [s] = some u) :
    u ≠ "" ∧ u = s := by
  unfold firstNonEmpty? at h
  by_cases hs : s = ""
  · rw [if_pos hs] at h
    cases h
  · rw [if_neg hs] at h
    obtain rfl := Option.some.inj h
    exact ⟨hs, rfl⟩

theorem requireId_ok {p : Precedence} {candidates : List String} {id : String} :
    requireId p candidates = .ok id ↔ firstNonEmpty? candidates = some id := by
  unfold requireId
  cases firstNonEmpty? candidates with
  | none => simp
  | some s => simp

theorem requireParent_ok {p : Precedence} {candidates : List String} {parent : String} :
    requireParent p candidates = .ok parent ↔ firstNonEmpty? candidates = some parent := by
  unfold requireParent
  cases firstNonEmpty? candidates with
  | none => simp
  | some s => simp

variable {r : Repository} {a b : Label}

theorem complete_service (h : a.complete r .service = .ok b) :
    ∃ id, id ≠ "" ∧ id = (if a.id = "" then r.serviceId else a.id)
      ∧ b = { a with id, name := id, repoLanguage := r.language, repoUrl := r.url,
                     serviceUrn := r.serviceUrn id } := by
  unfold complete at h
  obtain ⟨id, hid, h⟩ := exists_of_bind_ok h
  obtain ⟨hne, heq⟩ := firstNonEmpty?_pair (requireId_ok.mp hid)
  exact ⟨id, hne, heq, (Except.ok.inj h).symm⟩

/-- What is below a service needs an id and a parent, and takes nothing else. -/
theorem child_of_required {p : Precedence} {fallback id parent : String}
    (hid : requireId p [a.id] = .ok id)
    (hparent : requireParent p [a.parent, fallback] = .ok parent) :
    id = a.id ∧ a.id ≠ "" ∧ parent ≠ ""
      ∧ parent = if a.parent = "" then fallback else a.parent := by
  obtain ⟨hne, rfl⟩ := firstNonEmpty?_single (requireId_ok.mp hid)
  obtain ⟨hsome, heq⟩ := firstNonEmpty?_pair (requireParent_ok.mp hparent)
  exact ⟨rfl, hne, hsome, heq⟩

theorem complete_child {p : Precedence} (hservice : p ≠ .service) (hstructural : p ≠ .structural)
    (h : a.complete r p = .ok b) :
    ∃ parent, a.id ≠ "" ∧ parent ≠ ""
      ∧ parent = (if a.parent = "" then fallbackParent r a a.id p else a.parent)
      ∧ (p = .message → a.contentType ≠ none) ∧ b = { a with name := a.id, parent } := by
  unfold complete at h
  cases p with
  | structural => exact absurd rfl hstructural
  | service => exact absurd rfl hservice
  | channel =>
      obtain ⟨id, hid, h⟩ := exists_of_bind_ok h
      obtain ⟨parent, hparent, h⟩ := exists_of_bind_ok h
      obtain ⟨rfl, hne, hsome, heq⟩ := child_of_required hid hparent
      exact ⟨parent, hne, hsome, heq, nofun, (Except.ok.inj h).symm⟩
  | operation =>
      obtain ⟨id, hid, h⟩ := exists_of_bind_ok h
      obtain ⟨parent, hparent, h⟩ := exists_of_bind_ok h
      obtain ⟨rfl, hne, hsome, heq⟩ := child_of_required hid hparent
      exact ⟨parent, hne, hsome, heq, nofun, (Except.ok.inj h).symm⟩
  | message =>
      obtain ⟨id, hid, h⟩ := exists_of_bind_ok h
      obtain ⟨parent, hparent, h⟩ := exists_of_bind_ok h
      obtain ⟨rfl, hne, hsome, heq⟩ := child_of_required hid hparent
      cases hcontent : a.contentType with
      | none =>
          rw [hcontent] at h
          cases h
      | some t =>
          rw [hcontent] at h
          exact ⟨parent, hne, hsome, heq, by simp, (Except.ok.inj h).symm⟩

/-- A label that is completed is linked, and keeps what was there. -/
theorem linked_of_complete {p : Precedence} (hp : p ≠ .structural) (ha : a.Unstamped)
    (h : a.complete r p = .ok b) :
    Linked r a p b ∧ b.category = a.category ∧ b.contentType = a.contentType
      ∧ (a.id ≠ "" → b.id = a.id) := by
  by_cases hservice : p = .service
  · subst hservice
    obtain ⟨id, hne, hid, rfl⟩ := complete_service h
    refine ⟨⟨hne, rfl, fun _ => ⟨rfl, rfl, rfl⟩, fun h => absurd rfl h, fun h => absurd rfl h,
      nofun⟩, rfl, rfl, ?_⟩
    intro hdeclared
    rw [if_neg hdeclared] at hid
    exact hid
  · obtain ⟨parent, hne, hsome, hparent, hcontent, rfl⟩ := complete_child hservice hp h
    exact ⟨⟨hne, rfl, fun h => absurd h hservice, fun _ => ha, fun _ => ⟨hsome, hparent⟩, hcontent⟩,
      rfl, rfl, fun _ => rfl⟩

-- ============================================================ identifiers in texts

/-- A text with a character for identifiers has a first run of them. -/
theorem isFirstId_of_mem {value : String} (h : ∃ c ∈ value.toList, isIdChar c = true) :
    ∃ id, firstId? value = some id ∧ id ≠ "" ∧ IsFirstId value id := by
  obtain ⟨c, hc, hid⟩ := h
  have hcut := List.takeWhile_append_dropWhile (p := fun c => !isIdChar c) (l := value.toList)
  have hrest := List.takeWhile_append_dropWhile (p := isIdChar)
    (l := value.toList.dropWhile (!isIdChar ·))
  have hbefore : ∀ c ∈ value.toList.takeWhile (!isIdChar ·), isIdChar c = false := by
    intro c hc
    simpa using List.mem_takeWhile_imp hc
  cases hdrop : value.toList.dropWhile (!isIdChar ·) with
  | nil =>
      -- then there would be no such character
      have hnone := List.dropWhile_eq_nil_iff.mp hdrop c hc
      rw [hid] at hnone
      cases hnone
  | cons d rest =>
      have hd : isIdChar d = true := by
        have hnot := List.head?_dropWhile_not (fun c => !isIdChar c) value.toList
        rw [hdrop] at hnot
        simpa using hnot
      rw [hdrop] at hrest hcut
      have hrun : (d :: rest).takeWhile isIdChar = d :: rest.takeWhile isIdChar :=
        List.takeWhile_cons_of_pos hd
      refine ⟨.ofList (d :: rest.takeWhile isIdChar), ?_, ?_, ?_⟩
      · unfold firstId?
        rw [hdrop, hrun]
      · simp [← String.toList_inj]
      · refine ⟨_, _, (d :: rest).dropWhile isIdChar, ?_, rfl, by simp, hbefore, ?_, ?_⟩
        · rw [List.append_assoc, ← hrun, hrest, hcut]
        · intro c hc
          rw [← hrun] at hc
          exact List.mem_takeWhile_imp hc
        · intro c hc
          have hnot := List.head?_dropWhile_not isIdChar (d :: rest)
          rw [Option.mem_def.mp hc] at hnot
          simpa using hnot

theorem identify_of_nameId {value id : String} (hcontent : a.contentType = some .nameId)
    (hid : firstId? value = some id) : a.identify value = { a with id := id } := by
  unfold identify
  rw [if_pos hcontent, hid, Option.getD_some]

/-- Only the id can be read from the text. -/
theorem identify_eq (a : Label) (value : String) :
    ∃ id, a.identify value = { a with id := id } := by
  unfold identify
  split
  · exact ⟨_, rfl⟩
  · exact ⟨a.id, rfl⟩

end Label

-- ============================================================ blocks of a text

theorem Category.precedence_ne_structural (c : Category) : c.precedence ≠ .structural := by
  cases c with
  | _ => decide

/-- A stretch is a piece of the tokens that it was cut from. -/
theorem exists_append_of_mem_stretches {ts : List Token} {s : Stretch} (hs : s ∈ stretches ts) :
    s.opening.kind = .beginMarker
      ∧ ∃ before after, ts = before ++ s.opening :: (s.inside ++ after) := by
  induction ts with
  | nil => cases hs
  | cons t ts ih =>
      unfold stretches at hs
      by_cases ht : t.kind = .beginMarker
      · rw [if_pos ht] at hs
        rcases List.mem_cons.mp hs with rfl | hs
        · refine ⟨ht, [], ts.dropWhile (·.kind ≠ .beginMarker), ?_⟩
          show t :: ts = t :: (ts.takeWhile (·.kind ≠ .beginMarker) ++ _)
          rw [List.takeWhile_append_dropWhile]
        · obtain ⟨hkind, before, after, rfl⟩ := ih hs
          exact ⟨hkind, t :: before, after, rfl⟩
      · rw [if_neg ht] at hs
        obtain ⟨hkind, before, after, rfl⟩ := ih hs
        exact ⟨hkind, t :: before, after, rfl⟩

theorem Stretch.Closes.delimited {ts : List Token} {s : Stretch} (hs : s ∈ stretches ts)
    {body : List Token} {e : Token} (h : s.Closes body e) {b : Block}
    (hbegin : b.beginToken = s.opening) (hend : b.endToken = e) : b.Delimited ts := by
  obtain ⟨rest, hinside, hkind, hbody⟩ := h
  obtain ⟨hopening, before, after, hts⟩ := exists_append_of_mem_stretches hs
  refine ⟨before, body, rest ++ after, ?_, hbegin ▸ hopening, hend ▸ hkind, ?_⟩
  · rw [hts, hinside, hbegin, hend]
    simp
  · intro t ht
    have hnot := kind_of_mem_inside hs (hinside ▸ List.mem_append_left _ ht)
    cases hk : t.kind with
    | beginMarker => exact absurd hk hnot
    | endMarker => exact absurd hk (hbody t ht)
    | _ => rfl

/-- Every block of a text is linked, to the label that its begin marker declares, and stands
between two markers of the text that have no marker between them. -/
theorem wellLinked_of_mem_blocks {r : Repository} {env : Environment} {source : Source}
    {text : String} {b : Block} (hb : b ∈ Outcome.blocks (Block.outcomes r env source text)) :
    ∃ declared, Label.parse b.beginToken.metadata = .ok declared ∧ b.WellLinked r declared
      ∧ b.Delimited (tokenize source text) := by
  have hmem := Outcome.mem_blocks.mp hb
  unfold Block.outcomes at hmem
  rw [Block.scan_eq] at hmem
  obtain ⟨s, hs, houtcome⟩ := List.mem_map.mp hmem
  have hyields := Stretch.yields_outcome r env s
  rw [houtcome] at hyields
  cases hyields with
  | @block declared linked body e value c hdeclares hcloses hvalue hcategory hlink =>
      refine ⟨declared, hdeclares.2, ?_, hcloses.delimited hs rfl rfl⟩
      obtain ⟨id, hidentified⟩ := Label.identify_eq declared value
      have hdeclared := Label.unstamped_of_parse hdeclares.2
      have hunstamped : ({ declared with id := id } : Label).Unstamped := hdeclared
      unfold Label.link at hlink
      rw [hidentified] at hlink
      obtain ⟨hlinked, hkept, hcontent, hid⟩ :=
        Label.linked_of_complete c.precedence_ne_structural hunstamped hlink
      -- parent and channel are read from the declared label, whatever the id
      refine ⟨⟨c, hkept.trans hcategory, rfl⟩, ⟨hlinked.hasId, hlinked.named, hlinked.stamped,
        hlinked.unstamped, hlinked.hasParent, hlinked.hasContent⟩, ?_⟩
      intro hnameId hsome
      obtain ⟨run, hrun, hne, hfirst⟩ := Label.isFirstId_of_mem hsome
      have htype : declared.contentType = some .nameId := hcontent.symm.trans hnameId
      rw [Label.identify_of_nameId htype hrun] at hidentified
      have hsame : run = id := congrArg Label.id hidentified
      rw [hid (hsame ▸ hne)]
      exact hsame ▸ hfirst

/-- A channel whose name is in its text, whatever id was declared. -/
def channelText : String :=
  "//+gendoc category=channel type=nameId id=x parent=s\n(orders.v1)\n//-gendoc"

theorem wellLinked_of_mem_blocks_channel :
    ∃ b ∈ Outcome.blocks (Block.outcomes {} [] ⟨"A.cs", "src/A.cs"⟩ channelText),
      b.label.id = "orders.v1"
      ∧ ∃ declared, Label.parse b.beginToken.metadata = .ok declared ∧ b.WellLinked {} declared
        ∧ b.Delimited (tokenize ⟨"A.cs", "src/A.cs"⟩ channelText) := by
  have hids : (Outcome.blocks (Block.outcomes {} [] ⟨"A.cs", "src/A.cs"⟩ channelText)).map
      (·.label.id) = ["orders.v1"] := by decide +kernel
  obtain ⟨b, hb, hid⟩ :
      ∃ b ∈ Outcome.blocks (Block.outcomes {} [] ⟨"A.cs", "src/A.cs"⟩ channelText),
        b.label.id = "orders.v1" := by
    apply List.mem_map.mp
    rw [hids]
    exact List.mem_singleton.mpr rfl
  exact ⟨b, hb, hid, wellLinked_of_mem_blocks hb⟩

end EventDocs
