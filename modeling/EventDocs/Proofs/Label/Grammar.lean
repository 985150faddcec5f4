import EventDocs.Label.Tags
import EventDocs.Proofs.InTurn

/-
What metadata may say, and what it then means.

A word is well-formed or offends in exactly one way, and the reader of words agrees with that
(`read_ok_iff`, `read_error_iff`). A label is then filled word by word (`Label.Becomes`). Seen
through its six settable fields (`Field.of`), a word sets the field that it addresses and leaves
the others as they were (`of_set_iff`), so in the end each field holds what the last word for it
says (`Becomes.of_iff`). Words for different fields can change places because setting commutes
(`set_comm`), and words that address no field can be put in or left out.
-/

namespace EventDocs

-- ============================================================ statement vocabulary

/-- The fields of a label that metadata can set. -/
inductive Field where
  | id
  | parent
  | serviceId
  | channelId
  | contentType
  | category
deriving DecidableEq, Repr

namespace Field

/-- The keys that address a field. -/
def keys : Field → List String
  | id => ["id"]
  | parent => ["parent", "p"]
  | serviceId => ["serviceId"]
  | channelId => ["channelId"]
  | contentType => ["type"]
  | category => ["category", "cat", "c"]

/-- Can a field hold a value? Content types and categories have to be known by name. -/
def Takes : Field → String → Prop
  | contentType, value => ∃ t : ContentType, t.name = value
  | category, value => ∃ c : Category, c.name = value
  | _, _ => True

/-- A text that says something. -/
def text? (s : String) : Option String := if s = "" then none else some s

/-- What a label says for a field, if anything. -/
def of (a : Label) : Field → Option String
  | id => text? a.id
  | parent => text? a.parent
  | serviceId => text? a.serviceId
  | channelId => text? a.channelId
  | contentType => a.contentType.map ContentType.name
  | category => a.category.map Category.name

end Field

namespace Tag

/-- A word is a key and a value with the only equals sign between them. -/
def IsPair (word : List Char) (key value : String) : Prop :=
  word = key.toList ++ '=' :: value.toList ∧ '=' ∉ key.toList ∧ '=' ∉ value.toList

/-- A word has one equals sign with something on both sides, and the value is one that the field
can hold, if the key addresses any. -/
def WellFormed (word : List Char) : Prop :=
  ∃ key value, IsPair word key value ∧ key ≠ "" ∧ value ≠ ""
    ∧ ∀ f : Field, key ∈ f.keys → f.Takes value

/-- What is wrong with a word. -/
inductive Offends : List Char → TagError → Prop
  | notAPair {word : List Char} (h : word.count '=' ≠ 1) : Offends word (.notAPair (.ofList word))
  | emptySide {word : List Char} {key value : String} (h : IsPair word key value)
    (hempty : key = "" ∨ value = "") : Offends word (.emptySide key value)
  | unknownContentType {word : List Char} {key value : String} (h : IsPair word key value)
    (hvalue : value ≠ "") (hkey : key ∈ Field.contentType.keys)
    (hnone : ∀ t : ContentType, t.name ≠ value) : Offends word (.unknownContentType value)
  | unknownCategory {word : List Char} {key value : String} (h : IsPair word key value)
    (hvalue : value ≠ "") (hkey : key ∈ Field.category.keys)
    (hnone : ∀ c : Category, c.name ≠ value) : Offends word (.unknownCategory value)

/-- A word gives a field a value, under any of the field's keys. -/
def Sets (word : List Char) (f : Field) (value : String) : Prop :=
  ∃ key ∈ f.keys, IsPair word key value

/-- The last of some words that address a field gives it this value. -/
def LastValue (words : List (List Char)) (f : Field) (value : String) : Prop :=
  LastGives (fun word v => Sets word f v) words value

/-- Words that only close a surrounding comment. -/
def closings : List String := ["-->", "#", "##"]

/-- A word that says nothing: it closes a comment, or is well-formed with a key that no field
has. -/
def Idle (word : List Char) : Prop :=
  String.ofList word ∈ closings
    ∨ ∃ key value, IsPair word key value ∧ key ≠ "" ∧ value ≠ "" ∧ ∀ f : Field, key ∉ f.keys

/-- Words get rearranged: idle ones are put in or left out anywhere, and neighbours that do not
address the same field change places. -/
inductive Rearranged (words : List (List Char)) : List (List Char) → Prop
  | refl : Rearranged words words
  | insert {before after : List (List Char)} {w : List Char}
    (h : Rearranged words (before ++ after)) (hw : Idle w) :
    Rearranged words (before ++ w :: after)
  | delete {before after : List (List Char)} {w : List Char}
    (h : Rearranged words (before ++ w :: after)) (hw : Idle w) :
    Rearranged words (before ++ after)
  | swap {before after : List (List Char)} {v w : List Char}
    (h : Rearranged words (before ++ v :: w :: after))
    (hvw : ∀ f x y, Sets v f x → ¬ Sets w f y) :
    Rearranged words (before ++ w :: v :: after)

end Tag

namespace Label

/-- Some words without those that only close a comment. -/
def told (words : List (List Char)) : List (List Char) :=
  words.filter fun w => String.ofList w ∉ Tag.closings

/-- A label holds what some words declare and nothing else: in each settable field the value of
the last word that addresses it, or nothing if there is none. -/
structure DeclaredBy (words : List (List Char)) (a : Label) : Prop where
  settable : ∀ (f : Field) (v : String), f.of a = some v ↔ Tag.LastValue words f v
  others : a.name = "" ∧ a.serviceUrn = "" ∧ a.repoUrl = "" ∧ a.repoLanguage = ""

end Label

-- ============================================================ keys

namespace Field

/-- No key addresses two fields. -/
theorem eq_of_mem_keys : ∀ f g : Field, ∀ key ∈ f.keys, key ∈ g.keys → f = g := by
  intro f g
  cases f <;> cases g <;> decide

theorem ne_empty_of_mem_keys (f : Field) : ∀ key ∈ f.keys, key ≠ "" := by
  cases f <;> decide

/-- The tag that gives a field a value, if it can hold it. -/
def tag : Field → String → Except TagError Tag
  | id, v => .ok (.id v)
  | parent, v => .ok (.parent v)
  | serviceId, v => .ok (.serviceId v)
  | channelId, v => .ok (.channelId v)
  | contentType, v => (ContentType.ofName v).map .contentType
  | category, v => (Category.ofName v).map .category

end Field

namespace Tag

/-- The field that a tag sets, and to what. -/
def target? : Tag → Option (Field × String)
  | .id v => some (.id, v)
  | .parent v => some (.parent, v)
  | .serviceId v => some (.serviceId, v)
  | .channelId v => some (.channelId, v)
  | .contentType t => some (.contentType, t.name)
  | .category c => some (.category, c.name)
  | .unknown _ _ => none

theorem ofPair_of_mem_keys {f : Field} {key : String} (h : key ∈ f.keys) (value : String) :
    ofPair key value = f.tag value := by
  cases f <;> simp only [Field.keys, List.mem_cons, List.not_mem_nil, or_false] at h
  case parent => rcases h with rfl | rfl <;> rfl
  case category => rcases h with rfl | rfl | rfl <;> rfl
  all_goals
    subst h
    rfl

theorem ofPair_of_not_mem_keys {key : String} (h : ∀ f : Field, key ∉ f.keys) (value : String) :
    ofPair key value = .ok (.unknown key value) := by
  have hid : key ≠ "id" := fun hkey => h .id (by simp [hkey, Field.keys])
  have hparent : ¬ (key = "parent" ∨ key = "p") := by simpa [Field.keys] using h .parent
  have hservice : key ≠ "serviceId" := fun hkey => h .serviceId (by simp [hkey, Field.keys])
  have hchannel : key ≠ "channelId" := fun hkey => h .channelId (by simp [hkey, Field.keys])
  have htype : key ≠ "type" := fun hkey => h .contentType (by simp [hkey, Field.keys])
  have hcategory : ¬ (key = "category" ∨ key = "cat" ∨ key = "c") := by
    simpa [Field.keys] using h .category
  unfold ofPair
  rw [if_neg hid, if_neg hparent, if_neg hservice, if_neg hchannel, if_neg htype, if_neg hcategory]

/-- A value that a field can hold gives the tag that sets it. -/
theorem exists_tag_of_takes {f : Field} {value : String} (h : f.Takes value) :
    ∃ t, f.tag value = .ok t ∧ t.target? = some (f, value) := by
  cases f with
  | contentType =>
      obtain ⟨t, rfl⟩ := h
      refine ⟨.contentType t, ?_, rfl⟩
      rw [Field.tag, ContentType.ofName, ContentType.ofName?_name]
      rfl
  | category =>
      obtain ⟨c, rfl⟩ := h
      refine ⟨.category c, ?_, rfl⟩
      rw [Field.tag, Category.ofName, Category.ofName?_name]
      rfl
  | _ => exact ⟨_, rfl, rfl⟩

-- ============================================================ words

variable {word : List Char} {key value : String}

theorem IsPair.splitOn (h : IsPair word key value) :
    word.splitOn '=' = [key.toList, value.toList] := by
  obtain ⟨rfl, hkey, hvalue⟩ := h
  rw [List.splitOn_append_cons_self_of_not_mem hkey, List.splitOn_eq_singleton hvalue]

/-- A word is a pair in one way only. -/
theorem IsPair.unique {key' value' : String} (h : IsPair word key value)
    (h' : IsPair word key' value') : key = key' ∧ value = value' := by
  have hparts := h.splitOn.symm.trans h'.splitOn
  simp only [List.cons.injEq, String.toList_inj, and_true] at hparts
  exact hparts

theorem exists_isPair (h : word.count '=' = 1) : ∃ key value, IsPair word key value := by
  have hmem : '=' ∈ word := List.count_pos_iff.mp (by omega)
  obtain ⟨before, after, rfl⟩ := List.append_of_mem hmem
  rw [List.count_append, List.count_cons_self] at h
  refine ⟨.ofList before, .ofList after, by simp, ?_, ?_⟩
  · rw [String.toList_ofList]
    exact List.count_eq_zero.mp (by omega)
  · rw [String.toList_ofList]
    exact List.count_eq_zero.mp (by omega)

theorem length_splitOn (word : List Char) :
    (word.splitOn '=').length = word.count '=' + 1 := by
  induction word with
  | nil => rfl
  | cons c word ih =>
      rw [List.splitOn_cons_eq_if_modifyHead, List.count_cons]
      split
      · rw [List.length_cons, ih]
      · rw [List.length_modifyHead, ih]

theorem read_of_isPair (h : IsPair word key value) : read word
    = if key = "" ∨ value = "" then .error (.emptySide key value) else ofPair key value := by
  unfold read
  rw [h.splitOn]
  simp [String.toList_eq_nil_iff]

theorem read_of_wellFormed (h : WellFormed word) :
    ∃ t, read word = .ok t ∧ ∀ f v, t.target? = some (f, v) ↔ Sets word f v := by
  obtain ⟨key, value, hpair, hkey, hvalue, htakes⟩ := h
  have hread : read word = ofPair key value := by
    rw [read_of_isPair hpair, if_neg (not_or.mpr ⟨hkey, hvalue⟩)]
  rw [hread]
  by_cases hknown : ∃ f : Field, key ∈ f.keys
  · obtain ⟨f, hf⟩ := hknown
    obtain ⟨t, htag, htarget⟩ := exists_tag_of_takes (htakes f hf)
    refine ⟨t, (ofPair_of_mem_keys hf value).trans htag, fun g v => ?_⟩
    rw [htarget]
    constructor
    · intro hsame
      cases hsame
      exact ⟨key, hf, hpair⟩
    · intro hsets
      obtain ⟨key', hg, hpair'⟩ := hsets
      obtain ⟨rfl, rfl⟩ := hpair.unique hpair'
      rw [Field.eq_of_mem_keys f g key hf hg]
  · have hnone : ∀ f : Field, key ∉ f.keys := not_exists.mp hknown
    refine ⟨.unknown key value, ofPair_of_not_mem_keys hnone value, fun g v => ?_⟩
    constructor
    · intro hsame
      cases hsame
    · intro hsets
      obtain ⟨key', hg, hpair'⟩ := hsets
      obtain ⟨rfl, rfl⟩ := hpair.unique hpair'
      exact absurd hg (hnone g)

theorem read_of_offends {e : TagError} (h : Offends word e) : read word = .error e := by
  cases h with
  | notAPair hcount =>
      have hlength := length_splitOn word
      unfold read
      split
      next hparts =>
        rw [hparts] at hlength
        simp only [List.length_cons, List.length_nil] at hlength
        omega
      next => rfl
  | emptySide hpair hempty => rw [read_of_isPair hpair, if_pos hempty]
  | @unknownContentType _ value hpair hvalue hkey hnone =>
      have hname : ContentType.ofName? value = none := by
        simpa [ContentType.ofName?] using fun t _ => hnone t
      rw [read_of_isPair hpair, if_neg (not_or.mpr ⟨Field.ne_empty_of_mem_keys _ _ hkey, hvalue⟩),
        ofPair_of_mem_keys hkey, Field.tag, ContentType.ofName, hname]
      rfl
  | @unknownCategory _ value hpair hvalue hkey hnone =>
      have hname : Category.ofName? value = none := by
        simpa [Category.ofName?] using fun c _ => hnone c
      rw [read_of_isPair hpair, if_neg (not_or.mpr ⟨Field.ne_empty_of_mem_keys _ _ hkey, hvalue⟩),
        ofPair_of_mem_keys hkey, Field.tag, Category.ofName, hname]
      rfl

/-- There is no third possibility. -/
theorem wellFormed_or_offends (word : List Char) : WellFormed word ∨ ∃ e, Offends word e := by
  by_cases hcount : word.count '=' = 1
  · obtain ⟨key, value, hpair⟩ := exists_isPair hcount
    by_cases hempty : key = "" ∨ value = ""
    · exact Or.inr ⟨_, .emptySide hpair hempty⟩
    · obtain ⟨hkey, hvalue⟩ := not_or.mp hempty
      by_cases htakes : ∀ f : Field, key ∈ f.keys → f.Takes value
      · exact Or.inl ⟨key, value, hpair, hkey, hvalue, htakes⟩
      · -- only two fields are particular about what they hold
        simp only [not_forall] at htakes
        obtain ⟨f, hf, hnot⟩ := htakes
        cases f with
        | contentType => exact Or.inr ⟨_, .unknownContentType hpair hvalue hf (not_exists.mp hnot)⟩
        | category => exact Or.inr ⟨_, .unknownCategory hpair hvalue hf (not_exists.mp hnot)⟩
        | _ => exact absurd trivial hnot
  · exact Or.inr ⟨_, .notAPair hcount⟩

theorem read_ok_iff : (∃ t, read word = .ok t) ↔ WellFormed word := by
  constructor
  · intro h
    obtain ⟨t, ht⟩ := h
    rcases wellFormed_or_offends word with hword | ⟨e, he⟩
    · exact hword
    · rw [read_of_offends he] at ht
      cases ht
  · intro h
    obtain ⟨t, ht, -⟩ := read_of_wellFormed h
    exact ⟨t, ht⟩

theorem read_error_iff {e : TagError} : read word = .error e ↔ Offends word e := by
  constructor
  · intro h
    rcases wellFormed_or_offends word with hword | ⟨d, hd⟩
    · obtain ⟨t, ht, -⟩ := read_of_wellFormed hword
      rw [ht] at h
      cases h
    · rw [read_of_offends hd] at h
      cases h
      exact hd
  · exact read_of_offends

/-- What is read from a word is what the word sets. -/
theorem target?_iff_sets {t : Tag} (h : read word = .ok t) (f : Field) (v : String) :
    t.target? = some (f, v) ↔ Sets word f v := by
  obtain ⟨t', ht', htarget⟩ := read_of_wellFormed (read_ok_iff.mp ⟨t, h⟩)
  rw [h] at ht'
  cases ht'
  exact htarget f v

theorem Sets.ne_empty {f : Field} {v : String} (hword : WellFormed word) (h : Sets word f v) :
    v ≠ "" := by
  obtain ⟨key, value, hpair, -, hvalue, -⟩ := hword
  obtain ⟨key', -, hpair'⟩ := h
  rw [← (hpair.unique hpair').2]
  exact hvalue

end Tag

-- ============================================================ labels

namespace Label

open Tag

variable {a b : Label} {t : Tag} {f : Field}

/-- A tag sets the field that it is for. -/
theorem of_set_self (a : Label) {v : String} (h : t.target? = some (f, v)) (hv : v ≠ "") :
    f.of (a.set t) = some v := by
  cases t <;> cases h
  case id | parent | serviceId | channelId => exact if_neg hv
  case contentType | category => rfl

/-- A tag leaves the other fields as they were. -/
theorem of_set_other (a : Label) (h : ∀ v, t.target? ≠ some (f, v)) : f.of (a.set t) = f.of a := by
  cases t with
  | id v =>
      cases f with
      | id => exact absurd rfl (h _)
      | _ => rfl
  | parent v =>
      cases f with
      | parent => exact absurd rfl (h _)
      | _ => rfl
  | serviceId v =>
      cases f with
      | serviceId => exact absurd rfl (h _)
      | _ => rfl
  | channelId v =>
      cases f with
      | channelId => exact absurd rfl (h _)
      | _ => rfl
  | contentType v =>
      cases f with
      | contentType => exact absurd rfl (h _)
      | _ => rfl
  | category v =>
      cases f with
      | category => exact absurd rfl (h _)
      | _ => rfl
  | unknown key v => rfl

theorem set_of_target?_eq_none (a : Label) (h : t.target? = none) : a.set t = a := by
  cases t with
  | unknown key v => rfl
  | _ => cases h

/-- The order of tags for different fields does not matter. -/
theorem set_comm (a : Label) {s : Tag}
    (h : ∀ f x y, s.target? = some (f, x) → t.target? ≠ some (f, y)) :
    (a.set s).set t = (a.set t).set s := by
  cases s with
  | id v =>
      cases t with
      | id w => exact absurd rfl (h _ _ _ rfl)
      | _ => rfl
  | parent v =>
      cases t with
      | parent w => exact absurd rfl (h _ _ _ rfl)
      | _ => rfl
  | serviceId v =>
      cases t with
      | serviceId w => exact absurd rfl (h _ _ _ rfl)
      | _ => rfl
  | channelId v =>
      cases t with
      | channelId w => exact absurd rfl (h _ _ _ rfl)
      | _ => rfl
  | contentType v =>
      cases t with
      | contentType w => exact absurd rfl (h _ _ _ rfl)
      | _ => rfl
  | category v =>
      cases t with
      | category w => exact absurd rfl (h _ _ _ rfl)
      | _ => rfl
  | unknown key v => rfl

theorem others_set (a : Label) (t : Tag) : (a.set t).name = a.name
    ∧ (a.set t).serviceUrn = a.serviceUrn ∧ (a.set t).repoUrl = a.repoUrl
    ∧ (a.set t).repoLanguage = a.repoLanguage := by
  cases t with
  | _ => exact ⟨rfl, rfl, rfl, rfl⟩

-- ============================================================ word after word

/-- What a label becomes by words that are read one after the other. -/
inductive Becomes : Label → List (List Char) → Label → Prop
  | nil (a : Label) : Becomes a [] a
  | cons {a b : Label} {word : List Char} {words : List (List Char)} {t : Tag}
    (head : Tag.read word = .ok t) (tail : Becomes (a.set t) words b) : Becomes a (word :: words) b

variable {words : List (List Char)} {word : List Char}

theorem becomes_iff : Becomes a words b ↔
    ∃ ts, List.Forall₂ (fun w t => Tag.read w = .ok t) words ts ∧ ts.foldl set a = b := by
  constructor
  · intro h
    induction h with
    | nil a => exact ⟨[], .nil, rfl⟩
    | cons head _ ih =>
        obtain ⟨ts, hts, hfold⟩ := ih
        exact ⟨_ :: ts, .cons head hts, hfold⟩
  · intro h
    obtain ⟨ts, hts, rfl⟩ := h
    induction hts generalizing a with
    | nil => exact .nil a
    | cons head _ ih => exact .cons head ih

theorem becomes_append {more : List (List Char)} :
    Becomes a (words ++ more) b ↔ ∃ c, Becomes a words c ∧ Becomes c more b := by
  constructor
  · intro h
    induction words generalizing a with
    | nil => exact ⟨a, .nil a, h⟩
    | cons w words ih =>
        cases h with
        | cons head tail =>
            obtain ⟨c, hc, hmore⟩ := ih tail
            exact ⟨c, .cons head hc, hmore⟩
  · intro h
    obtain ⟨c, hc, hmore⟩ := h
    induction hc with
    | nil => exact hmore
    | cons head _ ih => exact .cons head (ih hmore)

/-- What a field holds behind a word. -/
theorem of_set_iff (a : Label) (head : Tag.read word = .ok t) (f : Field) (v : String) :
    f.of (a.set t) = some v ↔ Sets word f v ∨ (∀ u, ¬ Sets word f u) ∧ f.of a = some v := by
  have hsets := target?_iff_sets head f
  have hself : ∀ u, Sets word f u → f.of (a.set t) = some u := fun u hu =>
    of_set_self a ((hsets u).mpr hu) (hu.ne_empty (read_ok_iff.mp ⟨t, head⟩))
  have hother : (∀ u, ¬ Sets word f u) → f.of (a.set t) = f.of a := fun hnone =>
    of_set_other a fun u hu => hnone u ((hsets u).mp hu)
  constructor
  · intro h
    by_cases hsome : ∃ u, Sets word f u
    · obtain ⟨u, hu⟩ := hsome
      obtain rfl := Option.some.inj ((hself u hu).symm.trans h)
      exact Or.inl hu
    · have hnone := not_exists.mp hsome
      exact Or.inr ⟨hnone, (hother hnone).symm.trans h⟩
  · intro h
    rcases h with hv | ⟨hnone, hv⟩
    · exact hself v hv
    · exact (hother hnone).trans hv

/-- Each field holds what the last word for it says, or what it held if there is none. -/
theorem Becomes.of_iff (h : Becomes a words b) (f : Field) (v : String) :
    f.of b = some v
      ↔ LastValue words f v ∨ (∀ w ∈ words, ∀ u, ¬ Sets w f u) ∧ f.of a = some v := by
  induction h with
  | nil a => simp [LastValue, not_lastGives_nil]
  | cons head _ ih =>
      rw [ih, of_set_iff _ head, List.forall_mem_cons, LastValue, LastValue, lastGives_cons]
      tauto

theorem Becomes.others (h : Becomes a words b) : b.name = a.name ∧ b.serviceUrn = a.serviceUrn
    ∧ b.repoUrl = a.repoUrl ∧ b.repoLanguage = a.repoLanguage := by
  induction h with
  | nil a => exact ⟨rfl, rfl, rfl, rfl⟩
  | @cons a b word words t head tail ih =>
      obtain ⟨hname, hurn, hurl, hlanguage⟩ := others_set a t
      rw [hname, hurn, hurl, hlanguage] at ih
      exact ih

theorem Becomes.declaredBy (h : Becomes {} words b) : DeclaredBy words b where
  settable f v := by
    have hempty : f.of {} ≠ some v := by
      cases f <;> simp [Field.of, Field.text?]
    rw [h.of_iff f v]
    exact ⟨fun hor => hor.resolve_right fun hboth => hempty hboth.2, Or.inl⟩
  others := h.others

-- ============================================================ rearrangement

/-- A word that sets nothing makes no difference. -/
theorem becomes_cons_of_not_sets (hword : WellFormed word) (hnone : ∀ f v, ¬ Sets word f v) :
    Becomes a (word :: words) b ↔ Becomes a words b := by
  have hset : ∀ t, Tag.read word = .ok t → a.set t = a := by
    intro t ht
    apply set_of_target?_eq_none
    rw [Option.eq_none_iff_forall_ne_some]
    intro target htarget
    exact hnone _ _ ((target?_iff_sets ht target.1 target.2).mp htarget)
  constructor
  · intro h
    cases h with
    | cons head tail =>
        rw [hset _ head] at tail
        exact tail
  · intro h
    obtain ⟨t, ht⟩ := read_ok_iff.mpr hword
    refine .cons ht ?_
    rw [hset t ht]
    exact h

/-- Words for different fields can change places. -/
theorem Becomes.swap {v w : List Char} (h : Becomes a (v :: w :: words) b)
    (hvw : ∀ f x y, Sets v f x → ¬ Sets w f y) : Becomes a (w :: v :: words) b := by
  cases h with
  | @cons _ _ _ _ s hv tail =>
      cases tail with
      | @cons _ _ _ _ t hw tail =>
          refine .cons hw (.cons hv ?_)
          rw [set_comm]
          · exact tail
          · intro f x y ht hs
            exact hvw f y x ((target?_iff_sets hv f y).mp hs) ((target?_iff_sets hw f x).mp ht)

theorem told_cons_of_mem {w : List Char} (h : String.ofList w ∈ closings)
    (words : List (List Char)) : told (w :: words) = told words :=
  List.filter_cons_of_neg (by simpa using h)

theorem told_cons_of_not_mem {w : List Char} (h : String.ofList w ∉ closings)
    (words : List (List Char)) : told (w :: words) = w :: told words :=
  List.filter_cons_of_pos (by simpa using h)

theorem becomes_told_cons_of_idle {w : List Char} (h : Idle w) :
    Becomes a (told (w :: words)) b ↔ Becomes a (told words) b := by
  by_cases hclosing : String.ofList w ∈ closings
  · rw [told_cons_of_mem hclosing]
  · obtain ⟨key, value, hpair, hkey, hvalue, hnone⟩ := h.resolve_left hclosing
    have hword : WellFormed w :=
      ⟨key, value, hpair, hkey, hvalue, fun f hf => absurd hf (hnone f)⟩
    rw [told_cons_of_not_mem hclosing]
    apply becomes_cons_of_not_sets hword
    intro f v hsets
    obtain ⟨key', hf, hpair'⟩ := hsets
    rw [← (hpair.unique hpair').1] at hf
    exact hnone f hf

theorem becomes_told_swap {v w : List Char} (hvw : ∀ f x y, Sets v f x → ¬ Sets w f y)
    (h : Becomes a (told (v :: w :: words)) b) : Becomes a (told (w :: v :: words)) b := by
  by_cases hv : String.ofList v ∈ closings
  · have hsame : told (w :: v :: words) = told (v :: w :: words) := by
      simp [told, List.filter_cons, hv]
    rwa [hsame]
  · by_cases hw : String.ofList w ∈ closings
    · have hsame : told (w :: v :: words) = told (v :: w :: words) := by
        simp [told, List.filter_cons, hw]
      rwa [hsame]
    · rw [told_cons_of_not_mem hv, told_cons_of_not_mem hw] at h
      rw [told_cons_of_not_mem hw, told_cons_of_not_mem hv]
      exact h.swap hvw

/-- What comes of some words depends on what comes of those at the end. -/
theorem becomes_told_append {before xs ys : List (List Char)}
    (hxy : ∀ a, Becomes a (told xs) b → Becomes a (told ys) b)
    (h : Becomes a (told (before ++ xs)) b) : Becomes a (told (before ++ ys)) b := by
  unfold told at h hxy ⊢
  rw [List.filter_append, becomes_append] at h ⊢
  obtain ⟨c, hbefore, hxs⟩ := h
  exact ⟨c, hbefore, hxy c hxs⟩

theorem Becomes.rearranged {words' : List (List Char)} (h : Becomes a (told words) b)
    (hwords : Rearranged words words') : Becomes a (told words') b := by
  induction hwords with
  | refl => exact h
  | insert _ hw ih => exact becomes_told_append (fun _ => (becomes_told_cons_of_idle hw).mpr) ih
  | delete _ hw ih => exact becomes_told_append (fun _ => (becomes_told_cons_of_idle hw).mp) ih
  | swap _ hvw ih => exact becomes_told_append (fun _ => becomes_told_swap hvw) ih

-- ============================================================ metadata

theorem tags_eq (metadata : String) :
    tags metadata = (told (Text.words metadata.toList)).mapM Tag.read := by
  have htext : ∀ (w : List Char) (s : String), String.ofList w = s ↔ w = s.toList := by
    intro w s
    rw [← String.toList_inj, String.toList_ofList]
  have hkept : ∀ w : List Char, (!closesComment w) = decide (String.ofList w ∉ closings) := by
    intro w
    simp [closesComment, closings, htext, Bool.and_assoc]
  unfold tags told
  simp only [hkept]

theorem parse_ok_iff {metadata : String} :
    parse metadata = .ok a ↔ Becomes {} (told (Text.words metadata.toList)) a := by
  rw [becomes_iff, parse, tags_eq, map_ok_iff]
  simp only [mapM_ok_iff]

theorem exists_parse_ok_iff {metadata : String} : (∃ a, parse metadata = .ok a) ↔
    ∀ w ∈ told (Text.words metadata.toList), WellFormed w := by
  rw [parse, tags_eq, exists_map_ok_iff, exists_mapM_ok_iff]
  simp only [read_ok_iff]

theorem parse_error_iff {metadata : String} {e : TagError} : parse metadata = .error e ↔
    ∃ before w after, told (Text.words metadata.toList) = before ++ w :: after
      ∧ (∀ v ∈ before, WellFormed v) ∧ Offends w e := by
  rw [parse, tags_eq, map_error_iff, mapM_error_iff]
  simp only [read_ok_iff, read_error_iff]

/-- Metadata are read if and only if every word in them is well-formed, those aside that only
close a comment. Each settable field then holds what the last word for it says, and nothing else is
set; otherwise the error is that of the first word that offends. Words that say nothing can be put
in and left out, and words for different fields can change places. -/
theorem parse_follows_grammar (metadata : String) :
    ((∃ a, parse metadata = .ok a) ↔ ∀ w ∈ told (Text.words metadata.toList), WellFormed w)
      ∧ (∀ a, parse metadata = .ok a → DeclaredBy (told (Text.words metadata.toList)) a)
      ∧ (∀ e, parse metadata = .error e ↔
          ∃ before w after, told (Text.words metadata.toList) = before ++ w :: after
            ∧ (∀ v ∈ before, WellFormed v) ∧ Offends w e)
      ∧ ∀ metadata', Rearranged (Text.words metadata.toList) (Text.words metadata'.toList) →
          ∀ a, parse metadata = .ok a → parse metadata' = .ok a := by
  refine ⟨exists_parse_ok_iff, ?_, fun e => parse_error_iff, ?_⟩
  · intro a h
    exact (parse_ok_iff.mp h).declaredBy
  · intro metadata' hwords a h
    exact parse_ok_iff.mpr ((parse_ok_iff.mp h).rearranged hwords)

/-- An alias, a field that is set twice, a key of some other tool and the closing of a comment;
then in another order, without the key and with another closing. -/
theorem parse_follows_grammar_channel :
    let metadata := "c=channel id=a team=x p=s id=b -->"
    let label : Label := { category := some .channel, id := "b", parent := "s" }
    DeclaredBy (told (Text.words metadata.toList)) label
      ∧ parse "c=channel\tp=s id=a id=b # -->" = .ok label := by
  intro metadata label
  have hparse : parse metadata = .ok label := by decide
  have hteam : Idle "team=x".toList :=
    Or.inr ⟨"team", "x", ⟨rfl, by decide, by decide⟩, by decide, by decide, by
      intro f
      cases f <;> decide⟩
  have hdiffer : ∀ f x y, Sets "id=a".toList f x → ¬ Sets "p=s".toList f y := by
    intro f x y hid hparent
    obtain ⟨key, hf, hpair⟩ := hid
    obtain ⟨key', hf', hpair'⟩ := hparent
    have hkey : IsPair "id=a".toList "id" "a" := ⟨rfl, by decide, by decide⟩
    have hkey' : IsPair "p=s".toList "p" "s" := ⟨rfl, by decide, by decide⟩
    rw [← (hkey.unique hpair).1] at hf
    rw [← (hkey'.unique hpair').1] at hf'
    cases f <;> revert hf hf' <;> decide
  have hfirst : Text.words metadata.toList = ["c=channel".toList, "id=a".toList, "team=x".toList,
      "p=s".toList, "id=b".toList, "-->".toList] := by decide
  have hsecond : Text.words "c=channel\tp=s id=a id=b # -->".toList = ["c=channel".toList,
      "p=s".toList, "id=a".toList, "id=b".toList, "#".toList, "-->".toList] := by decide
  have hwords : Rearranged (Text.words metadata.toList)
      (Text.words "c=channel\tp=s id=a id=b # -->".toList) := by
    rw [hfirst, hsecond]
    have hdelete := @Rearranged.delete _ ["c=channel".toList, "id=a".toList]
      ["p=s".toList, "id=b".toList, "-->".toList] _ .refl hteam
    have hswap := @Rearranged.swap _ ["c=channel".toList] _ _ _ hdelete hdiffer
    exact @Rearranged.insert _ ["c=channel".toList, "p=s".toList, "id=a".toList, "id=b".toList]
      ["-->".toList] "#".toList hswap (Or.inl (by decide))
  obtain ⟨-, hdeclared, -, hrearranged⟩ := parse_follows_grammar metadata
  exact ⟨hdeclared label hparse, hrearranged _ hwords label hparse⟩

end Label

end EventDocs
