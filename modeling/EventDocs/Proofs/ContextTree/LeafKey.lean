import EventDocs.ContextTree
import Mathlib.Data.List.Infix

/-
Leaf keys. The key of a leaf is the id of its entity, the leaf mark and a number.
Nothing keeps the mark out of the ids that authors choose, so two questions decide
all that follows: does a leaf key lead back to its entity, and can it be mistaken
for another key?

The digits of a number hold no underscore, so the mark that `Key.leaf` writes is
the last one in the text, whatever stands before it: a leaf key always gives back
its entity and its number (`owner_leaf`, `leaf_inj`). Two leaf keys are therefore
never mistaken for each other. A leaf key and the key of an entity can be, unless
the id of the entity is free of the mark (`leaf_ne_of_unmarked`).
-/

namespace EventDocs

-- ============================================================ occurrences

namespace Text

variable {sep cs : List Char}

/-- The first cut fails only on a text without the separator. -/
theorem cutOn_eq_none_iff : cutOn sep cs = none ↔ ¬ sep <:+: cs := by
  induction cs with
  | nil =>
    simp only [cutOn]
    split
    · next hs => simp [List.isEmpty_iff.mp hs]
    · next hs => simpa using hs
  | cons c cs ih =>
    rw [List.infix_cons_iff, ← List.isPrefixOf_iff_prefix]
    simp only [cutOn]
    split
    · next hp => simp [hp]
    · next hp => simp [hp, ih]

/-- The last cut fails only on a text without the separator. -/
theorem cutOnLast_eq_none_iff : cutOnLast sep cs = none ↔ ¬ sep <:+: cs := by
  induction cs with
  | nil =>
    simp only [cutOnLast]
    split
    · next hs => simp [List.isEmpty_iff.mp hs]
    · next hs => simpa using hs
  | cons c cs ih =>
    rw [List.infix_cons_iff, ← List.isPrefixOf_iff_prefix]
    simp only [cutOnLast]
    split
    · next b a hb =>
      have hin : sep <:+: cs := by
        rw [← not_not (a := sep <:+: cs), ← ih, hb]
        simp
      simp [hin]
    · next hn =>
      have hnot : ¬ sep <:+: cs := ih.mp hn
      split
      · next hp => simp [hp]
      · next hp => simp [hp, hnot]

/-- `occursIn` says whether the separator stands anywhere in the text. -/
theorem occursIn_iff_infix : occursIn sep cs = true ↔ sep <:+: cs := by
  unfold occursIn
  rw [← not_iff_not, ← cutOn_eq_none_iff]
  simp

/-- What stands before the last occurrence may be anything: the last cut passes
over it. -/
theorem cutOnLast_append {before after : List Char} (front : List Char)
    (h : cutOnLast sep cs = some (before, after)) :
    cutOnLast sep (front ++ cs) = some (front ++ before, after) := by
  induction front with
  | nil => exact h
  | cons c front ih => simp [cutOnLast, ih]

end Text

-- ============================================================ the last mark

namespace Key

/-- Digits hold no mark, not even together with an end piece of one before them. -/
theorem cutOnLast_leafMark_append {digits : List Char} (hd : ∀ c ∈ digits, c.isDigit) :
    Text.cutOnLast leafMark (leafMark ++ digits) = some ([], digits) := by
  have hnone : Text.cutOnLast leafMark digits = none := by
    rw [Text.cutOnLast_eq_none_iff]
    intro hin
    have hmem : '_' ∈ digits := hin.subset (by decide)
    exact absurd (hd '_' hmem) (by decide)
  -- the only shorter start of a mark is its last two underscores; a digit follows
  have hhead : ∀ c rest, digits = c :: rest → c ≠ 'l' ∧ c ≠ '_' := by
    rintro c rest rfl
    have hc := hd c List.mem_cons_self
    constructor <;> (rintro rfl; exact absurd hc (by decide))
  cases digits with
  | nil => decide
  | cons c rest =>
    obtain ⟨hl, hu⟩ := hhead c rest rfl
    have hl' : ('l' == c) = false := by simpa using hl.symm
    have hu' : ('_' == c) = false := by simpa using hu.symm
    simp [leafMark, Text.cutOnLast, List.isPrefixOf, hl', hu'] at hnone ⊢
    simp [hnone]

/-- The digits of a leaf's number are digits. -/
theorem isDigit_of_mem_number {n : Nat} : ∀ c ∈ Nat.toDigits 10 n, c.isDigit :=
  fun _ hc => Nat.isDigit_of_mem_toDigits (by decide) (by decide) hc

/-- The last mark of a leaf key stands between the id and the number. -/
theorem cutOnLast_leaf (k : Key) (n : Nat) :
    Text.cutOnLast leafMark (k.leaf n).id.toList
      = some (k.id.toList, Nat.toDigits 10 n) := by
  have h := Text.cutOnLast_append k.id.toList
    (cutOnLast_leafMark_append (isDigit_of_mem_number (n := n)))
  simpa [leaf, List.append_assoc] using h

-- ============================================================ leaf keys

@[simp] theorem precedence_leaf (k : Key) (n : Nat) :
    (k.leaf n).precedence = k.precedence := rfl

/-- A leaf key leads back to its entity. -/
@[simp] theorem owner_leaf (k : Key) (n : Nat) : (k.leaf n).owner = k := by
  unfold owner
  rw [cutOnLast_leaf]
  simp

/-- A leaf key tells its entity and its number. -/
theorem leaf_inj {k l : Key} {n m : Nat} (h : k.leaf n = l.leaf m) : k = l ∧ n = m := by
  refine ⟨by rw [← owner_leaf k n, h, owner_leaf], ?_⟩
  have hcut := cutOnLast_leaf k n
  rw [h, cutOnLast_leaf] at hcut
  have hdigits : Nat.toDigits 10 m = Nat.toDigits 10 n := by
    simpa using (congrArg Prod.snd (Option.some.inj hcut))
  rw [← Nat.ofDigitChars_ten_toDigits (n := n), ← hdigits,
    Nat.ofDigitChars_ten_toDigits]

/-- A leaf key is longer than the key of its entity. -/
theorem length_lt_leaf (k : Key) (n : Nat) : k.id.length < (k.leaf n).id.length := by
  rw [← String.length_toList, ← String.length_toList]
  simp [leaf, leafMark]

/-- Every leaf key holds the mark. -/
theorem leafMark_infix_leaf (k : Key) (n : Nat) : leafMark <:+: (k.leaf n).id.toList :=
  ⟨k.id.toList, Nat.toDigits 10 n, by simp [leaf]⟩

/-- A key whose id is free of the mark is the key of no leaf. -/
theorem leaf_ne_of_unmarked {k l : Key} {n : Nat}
    (h : Text.occursIn leafMark l.id.toList = false) : k.leaf n ≠ l := by
  rintro rfl
  rw [Text.occursIn_iff_infix.mpr (leafMark_infix_leaf k n)] at h
  cases h

end Key

-- ============================================================ unmarked blocks

/-- No id and no parent holds the leaf mark. -/
def Unmarked (blocks : List Block) : Prop :=
  ∀ b ∈ blocks, Text.occursIn Key.leafMark b.label.id.toList = false
    ∧ Text.occursIn Key.leafMark b.label.parent.toList = false

instance (blocks : List Block) : Decidable (Unmarked blocks) :=
  inferInstanceAs (Decidable (∀ b ∈ blocks, _ ∧ _))

namespace Unmarked

variable {blocks : List Block} {b : Block}

theorem key_ne_leaf (h : Unmarked blocks) (hb : b ∈ blocks) (k : Key) (n : Nat) :
    k.leaf n ≠ b.key :=
  Key.leaf_ne_of_unmarked (h b hb).1

theorem parentKey_ne_leaf (h : Unmarked blocks) (hb : b ∈ blocks) (k : Key) (n : Nat) :
    b.parentKey? ≠ some (k.leaf n) := by
  intro heq
  obtain ⟨level, -, hk⟩ := Option.map_eq_some_iff.mp heq
  exact Key.leaf_ne_of_unmarked (k := k) (n := n) (l := ⟨level, b.label.parent⟩)
    (h b hb).2 hk.symm

end Unmarked

end EventDocs
