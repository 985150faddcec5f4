import EventDocs.Text.Utf8
import Mathlib.Data.String.Basic

/-
Decoding gives back what was encoded, and the order of texts is the order of their bytes.

Both are facts about one character first. The bytes of a character are read as that character
whatever follows them, and its first byte says how many there are, so the bytes of a greater
character are greater before either of the two ends.
-/

namespace EventDocs.Utf8

-- ============================================================ the bytes of a character

/-- The values of the bytes of the character with a number. -/
def values (n : Nat) : List Nat :=
  if n < 0x80 then [n]
  else if n < 0x800 then [0xC0 + n / 64, 0x80 + n % 64]
  else if n < 0x10000 then [0xE0 + n / 4096, 0x80 + n / 64 % 64, 0x80 + n % 64]
  else [0xF0 + n / 262144, 0x80 + n / 4096 % 64, 0x80 + n / 64 % 64, 0x80 + n % 64]

theorem toNat_ofNat {n : Nat} (h : n < 256) : (UInt8.ofNat n).toNat = n := by
  rw [UInt8.toNat_ofNat']
  exact Nat.mod_eq_of_lt h

theorem char_bounds (c : Char) : c.toNat < 0xD800 ∨ 0xDFFF < c.toNat ∧ c.toNat < 0x110000 :=
  c.valid

theorem map_toNat_encodeChar (c : Char) : (encodeChar c).map UInt8.toNat = values c.toNat := by
  have hbounds := char_bounds c
  unfold encodeChar values
  generalize c.toNat = n at hbounds
  by_cases h1 : n < 0x80
  · simp only [if_pos h1, List.map_cons, List.map_nil]
    rw [toNat_ofNat (by omega)]
  · by_cases h2 : n < 0x800
    · simp only [if_neg h1, if_pos h2, List.map_cons, List.map_nil]
      rw [toNat_ofNat (by omega), toNat_ofNat (by omega)]
    · by_cases h3 : n < 0x10000
      · simp only [if_neg h1, if_neg h2, if_pos h3, List.map_cons, List.map_nil]
        rw [toNat_ofNat (by omega), toNat_ofNat (by omega), toNat_ofNat (by omega)]
      · simp only [if_neg h1, if_neg h2, if_neg h3, List.map_cons, List.map_nil]
        rw [toNat_ofNat (by omega), toNat_ofNat (by omega), toNat_ofNat (by omega),
          toNat_ofNat (by omega)]

-- ============================================================ decoding

theorem isTail_digit (n : Nat) : isTail (0x80 + n % 64) = true := by
  simp only [isTail, Bool.and_eq_true, decide_eq_true_eq]
  omega

theorem width_two {n : Nat} (h1 : ¬ n < 0x80) (h2 : n < 0x800) : width (0xC0 + n / 64) = 2 := by
  unfold width
  rw [if_neg (by omega), if_pos]
  simp only [Bool.and_eq_true, decide_eq_true_eq]
  omega

theorem width_three {n : Nat} (h3 : n < 0x10000) : width (0xE0 + n / 4096) = 3 := by
  unfold width
  rw [if_neg (by omega), if_neg, if_pos]
  · simp only [Bool.and_eq_true, decide_eq_true_eq]
    omega
  · simp only [Bool.and_eq_true, decide_eq_true_eq]
    omega

theorem width_four {n : Nat} (h4 : n < 0x110000) : width (0xF0 + n / 262144) = 4 := by
  unfold width
  rw [if_neg (by omega), if_neg, if_neg, if_pos]
  · simp only [Bool.and_eq_true, decide_eq_true_eq]
    omega
  · simp only [Bool.and_eq_true, decide_eq_true_eq]
    omega
  · simp only [Bool.and_eq_true, decide_eq_true_eq]
    omega

/-- The second byte of three: neither overlong nor a surrogate. -/
theorem isSecond_three {n : Nat} (h2 : ¬ n < 0x800) (hsurrogate : n < 0xD800 ∨ 0xDFFF < n)
    (h3 : n < 0x10000) : isSecond (0xE0 + n / 4096) (0x80 + n / 64 % 64) = true := by
  unfold isSecond isTail
  simp only [beq_iff_eq]
  split
  · simp only [Bool.and_eq_true, decide_eq_true_eq]
    omega
  · split
    · simp only [Bool.and_eq_true, decide_eq_true_eq]
      omega
    · rw [if_neg (by omega), if_neg (by omega)]
      simp only [Bool.and_eq_true, decide_eq_true_eq]
      omega

/-- The second byte of four: neither overlong nor beyond the last character. -/
theorem isSecond_four {n : Nat} (h3 : ¬ n < 0x10000) (h4 : n < 0x110000) :
    isSecond (0xF0 + n / 262144) (0x80 + n / 4096 % 64) = true := by
  unfold isSecond isTail
  simp only [beq_iff_eq]
  rw [if_neg (by omega), if_neg (by omega)]
  split
  · simp only [Bool.and_eq_true, decide_eq_true_eq]
    omega
  · split
    · simp only [Bool.and_eq_true, decide_eq_true_eq]
      omega
    · simp only [Bool.and_eq_true, decide_eq_true_eq]
      omega

/-- The bytes of a character are read as that character, whatever follows. -/
theorem firstChar_values {n : Nat} (hbounds : n < 0xD800 ∨ 0xDFFF < n ∧ n < 0x110000)
    (rest : List Nat) :
    ∃ b bs, values n = b :: bs ∧ firstChar b (bs ++ rest) = (.ofNat n, bs.length) := by
  unfold values
  by_cases h1 : n < 0x80
  · refine ⟨n, [], if_pos h1, ?_⟩
    have hwidth : width n = 1 := if_pos h1
    simp only [firstChar, hwidth, List.length_nil]
  · rw [if_neg h1]
    by_cases h2 : n < 0x800
    · refine ⟨_, _, if_pos h2, ?_⟩
      have hvalue : (0xC0 + n / 64 - 0xC0) * 64 + (0x80 + n % 64 - 0x80) = n := by omega
      simp only [firstChar, width_two h1 h2, List.cons_append, isTail_digit, if_true, hvalue,
        List.length_singleton]
    · rw [if_neg h2]
      by_cases h3 : n < 0x10000
      · refine ⟨_, _, if_pos h3, ?_⟩
        have hvalue : (0xE0 + n / 4096 - 0xE0) * 4096 + (0x80 + n / 64 % 64 - 0x80) * 64
            + (0x80 + n % 64 - 0x80) = n := by omega
        simp only [firstChar, width_three h3, List.cons_append, isTail_digit,
          isSecond_three h2 (by omega) h3, Bool.not_true, Bool.false_eq_true, if_false, hvalue,
          List.length_cons, List.length_nil]
      · refine ⟨_, _, if_neg h3, ?_⟩
        have hvalue : (0xF0 + n / 262144 - 0xF0) * 262144 + (0x80 + n / 4096 % 64 - 0x80) * 4096
            + (0x80 + n / 64 % 64 - 0x80) * 64 + (0x80 + n % 64 - 0x80) = n := by omega
        simp only [firstChar, width_four (show n < 0x110000 by omega), List.cons_append, isTail_digit,
          isSecond_four h3 (show n < 0x110000 by omega), Bool.not_true, Bool.false_eq_true, if_false,
          hvalue, List.length_cons, List.length_nil]

theorem decodeValues_values (c : Char) (rest : List Nat) :
    decodeValues (values c.toNat ++ rest) = c :: decodeValues rest := by
  obtain ⟨b, bs, hvalues, hfirst⟩ := firstChar_values (char_bounds c) rest
  rw [hvalues, List.cons_append, decodeValues, hfirst]
  simp [Char.ofNat_toNat]

/-- Decoding gives back what was encoded. -/
theorem decode_encode (s : String) : decode (encode s) = s := by
  have hchars : ∀ cs : List Char, decodeValues (cs.flatMap fun c => values c.toNat) = cs := by
    intro cs
    induction cs with
    | nil => rw [List.flatMap_nil, decodeValues]
    | cons c cs ih => rw [List.flatMap_cons, decodeValues_values, ih]
  unfold decode encode
  rw [List.map_flatMap, funext map_toNat_encodeChar, hchars, String.ofList_toList]

/-- There are no more characters than bytes. -/
theorem length_decodeValues_le (bs : List Nat) : (decodeValues bs).length ≤ bs.length := by
  fun_induction decodeValues bs with
  | case1 => exact Nat.le_refl _
  | case2 b bs first ih =>
      rw [List.length_drop] at ih
      simp only [List.length_cons]
      omega

theorem length_decode_le (bs : Bytes) : (decode bs).length ≤ bs.length := by
  have hlength := length_decodeValues_le (bs.map UInt8.toNat)
  rw [List.length_map] at hlength
  unfold decode
  rw [String.length_ofList]
  exact hlength

-- ============================================================ order

theorem values_ne_nil (n : Nat) : values n ≠ [] := by
  unfold values
  split
  · simp
  · split
    · simp
    · split
      · simp
      · simp

theorem cons_lt_cons_of_lt {a b : Nat} (h : a < b) (x y : List Nat) : a :: x < b :: y :=
  List.cons_lt_cons_iff.mpr (Or.inl h)

theorem cons_lt_cons_of_le {a b : Nat} {x y : List Nat} (h : a ≤ b) (hrest : a = b → x < y) :
    a :: x < b :: y := by
  rcases Nat.lt_or_eq_of_le h with h | h
  · exact cons_lt_cons_of_lt h x y
  · exact List.cons_lt_cons_iff.mpr (Or.inr ⟨h, hrest h⟩)

/-- The bytes of a greater character are greater, whatever follows. With more bytes the first
is greater; with as many, the first that differs. -/
theorem values_lt {m n : Nat} (h : m < n) (hn : n < 0x110000) (x y : List Nat) :
    values m ++ x < values n ++ y := by
  unfold values
  split_ifs
  all_goals simp only [List.cons_append, List.nil_append]
  any_goals omega
  any_goals (apply cons_lt_cons_of_lt; omega)
  · refine cons_lt_cons_of_le (by omega) fun h1 => ?_
    exact cons_lt_cons_of_lt (by omega) _ _
  · refine cons_lt_cons_of_le (by omega) fun h1 => cons_lt_cons_of_le (by omega) fun h2 => ?_
    exact cons_lt_cons_of_lt (by omega) _ _
  · refine cons_lt_cons_of_le (by omega) fun h1 => cons_lt_cons_of_le (by omega) fun h2 =>
      cons_lt_cons_of_le (by omega) fun h3 => ?_
    exact cons_lt_cons_of_lt (by omega) _ _

theorem lt_of_map_toNat_lt {xs ys : Bytes} (h : xs.map UInt8.toNat < ys.map UInt8.toNat) :
    xs < ys := by
  induction xs generalizing ys with
  | nil =>
      cases ys with
      | nil => exact absurd h (List.lt_irrefl _)
      | cons y ys => exact List.nil_lt_cons y ys
  | cons x xs ih =>
      cases ys with
      | nil => exact absurd h (List.not_lt_nil _)
      | cons y ys =>
          rw [List.map_cons, List.map_cons, List.cons_lt_cons_iff] at h
          rw [List.cons_lt_cons_iff]
          rcases h with h | ⟨h, hrest⟩
          · exact Or.inl (UInt8.lt_iff_toNat_lt.mpr h)
          · exact Or.inr ⟨UInt8.toNat_inj.mp h, ih hrest⟩

theorem append_lt_append {α : Type} [LT α] {xs ys : List α} (zs : List α) (h : xs < ys) :
    zs ++ xs < zs ++ ys := by
  induction zs with
  | nil => exact h
  | cons z zs ih => exact List.cons_lt_cons_iff.mpr (Or.inr ⟨rfl, ih⟩)

theorem encode_lt {s t : String} (h : s < t) : encode s < encode t := by
  have hchars : ∀ cs ds : List Char, cs < ds →
      (cs.flatMap fun c => values c.toNat) < ds.flatMap fun c => values c.toNat := by
    intro cs
    induction cs with
    | nil =>
        intro ds hds
        cases ds with
        | nil => exact absurd hds (List.lt_irrefl _)
        | cons d ds =>
            obtain ⟨b, bs, hb⟩ := List.exists_cons_of_ne_nil (values_ne_nil d.toNat)
            rw [List.flatMap_cons, hb]
            exact List.nil_lt_cons b _
    | cons c cs ih =>
        intro ds hds
        cases ds with
        | nil => exact absurd hds (List.not_lt_nil _)
        | cons d ds =>
            rw [List.flatMap_cons, List.flatMap_cons]
            rcases List.cons_lt_cons_iff.mp hds with hcd | ⟨rfl, hrest⟩
            · apply values_lt hcd
              rcases char_bounds d with hd | ⟨-, hd⟩
              · exact Nat.lt_trans hd (by decide)
              · exact hd
            · exact append_lt_append _ (ih ds hrest)
  apply lt_of_map_toNat_lt
  unfold encode
  rw [List.map_flatMap, List.map_flatMap, funext map_toNat_encodeChar]
  exact hchars _ _ (String.lt_iff.mp h)

theorem encode_lt_iff {s t : String} : encode s < encode t ↔ s < t := by
  constructor
  · intro h
    rcases lt_trichotomy s t with hst | rfl | hts
    · exact hst
    · exact absurd h (List.lt_irrefl _)
    · exact absurd h (List.lt_asymm (encode_lt hts))
  · exact encode_lt

end EventDocs.Utf8
