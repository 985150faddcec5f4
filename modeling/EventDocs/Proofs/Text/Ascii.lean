import EventDocs.Proofs.Text.Utf8

/-
The bytes of a text against its characters. A byte below 0x80 is an ASCII character and is found
in no other character (`toUInt8_not_mem`), so ASCII words are found by their bytes. Offsets at
which whole characters end are offsets at which a text may be cut (`slice?_encodeChars`).
-/

namespace EventDocs.Utf8

-- ============================================================ bytes of characters

/-- The bytes of some characters. -/
def encodeChars (cs : List Char) : Bytes := cs.flatMap encodeChar

theorem encodeChars_nil : encodeChars [] = [] := rfl

theorem encodeChars_cons (c : Char) (cs : List Char) :
    encodeChars (c :: cs) = encodeChar c ++ encodeChars cs := List.flatMap_cons

theorem encodeChars_append (xs ys : List Char) :
    encodeChars (xs ++ ys) = encodeChars xs ++ encodeChars ys := List.flatMap_append

theorem decode_encodeChars (cs : List Char) : decode (encodeChars cs) = .ofList cs := by
  have hdecode := decode_encode (.ofList cs)
  unfold encode at hdecode
  rwa [String.toList_ofList] at hdecode

theorem toNat_toUInt8 {c : Char} (h : c.toNat < 0x80) : c.toUInt8.toNat = c.toNat :=
  toNat_ofNat (show c.toNat < 256 by omega)

theorem toUInt8_inj {a c : Char} (ha : a.toNat < 0x80) (hc : c.toNat < 0x80)
    (h : c.toUInt8 = a.toUInt8) : c = a := by
  have hnat := congrArg UInt8.toNat h
  rw [toNat_toUInt8 hc, toNat_toUInt8 ha] at hnat
  exact Char.toNat_inj.mp hnat

theorem ne_of_not_lt {c : Char} (hc : ¬ c.toNat < 0x80) (a : Char) (ha : a.toNat < 0x80) :
    c ≠ a := by
  rintro rfl
  exact hc ha

theorem encodeChar_of_lt {c : Char} (h : c.toNat < 0x80) : encodeChar c = [c.toUInt8] := if_pos h

theorem encodeChars_cons_of_lt {c : Char} (h : c.toNat < 0x80) (cs : List Char) :
    encodeChars (c :: cs) = c.toUInt8 :: encodeChars cs := by
  rw [encodeChars_cons, encodeChar_of_lt h, List.singleton_append]

theorem length_encodeChars_of_lt {cs : List Char} (h : ∀ c ∈ cs, c.toNat < 0x80) :
    (encodeChars cs).length = cs.length := by
  induction cs with
  | nil => rfl
  | cons c cs ih =>
      obtain ⟨hc, hcs⟩ := List.forall_mem_cons.mp h
      rw [encodeChars_cons_of_lt hc, List.length_cons, List.length_cons, ih hcs]

theorem encodeChar_ne_nil (c : Char) : encodeChar c ≠ [] := by
  intro hnil
  have hvalues := map_toNat_encodeChar c
  rw [hnil] at hvalues
  exact values_ne_nil _ hvalues.symm

/-- The bytes of a character that is not ASCII: a first one that continues nothing, and others
that do. None of them is ASCII. -/
theorem encodeChar_of_not_lt {c : Char} (h : ¬ c.toNat < 0x80) :
    ∃ b bs, encodeChar c = b :: bs ∧ 0xC0 ≤ b.toNat ∧ ∀ t ∈ bs, isTail t.toNat = true := by
  obtain ⟨b, bs, hbytes⟩ := List.exists_cons_of_ne_nil (encodeChar_ne_nil c)
  refine ⟨b, bs, hbytes, ?_⟩
  have hvalues := map_toNat_encodeChar c
  rw [hbytes, List.map_cons, values, if_neg h] at hvalues
  have htail : ∀ {ns : List Nat}, bs.map UInt8.toNat = ns → (∀ n ∈ ns, isTail n = true) →
      ∀ t ∈ bs, isTail t.toNat = true :=
    fun hns hall t ht => hall _ (hns ▸ List.mem_map_of_mem ht)
  split_ifs at hvalues
  all_goals
    obtain ⟨hb, hbs⟩ := List.cons.inj hvalues
    exact ⟨by omega, htail hbs (by simp [isTail_digit])⟩

theorem isTail_iff {n : Nat} : isTail n = true ↔ 0x80 ≤ n ∧ n < 0xC0 := by
  simp only [isTail, Bool.and_eq_true, decide_eq_true_eq]
  omega

theorem isTail_eq_false {n : Nat} (h : n < 0x80 ∨ 0xC0 ≤ n) : isTail n = false :=
  Bool.eq_false_iff.mpr (mt isTail_iff.mp (by omega))

theorem le_of_mem_encodeChar {c : Char} (h : ¬ c.toNat < 0x80) {b : UInt8}
    (hb : b ∈ encodeChar c) : 0x80 ≤ b.toNat := by
  obtain ⟨lead, bs, hbytes, hlead, htail⟩ := encodeChar_of_not_lt h
  rw [hbytes] at hb
  rcases List.mem_cons.mp hb with rfl | hb
  · omega
  · exact (isTail_iff.mp (htail b hb)).1

/-- An ASCII byte is found in no character but its own. -/
theorem toUInt8_not_mem {a c : Char} (ha : a.toNat < 0x80) (h : c ≠ a) :
    a.toUInt8 ∉ encodeChar c := by
  intro hmem
  by_cases hc : c.toNat < 0x80
  · rw [encodeChar_of_lt hc, List.mem_singleton] at hmem
    exact h (toUInt8_inj ha hc hmem.symm)
  · have hle := le_of_mem_encodeChar hc hmem
    rw [toNat_toUInt8 ha] at hle
    omega

/-- Every character has a first byte, and that is no continuation. -/
theorem exists_encodeChar (c : Char) :
    ∃ b bs, encodeChar c = b :: bs ∧ isTail b.toNat = false
      ∧ ∀ t ∈ bs, isTail t.toNat = true := by
  by_cases hc : c.toNat < 0x80
  · exact ⟨c.toUInt8, [], encodeChar_of_lt hc, isTail_eq_false (by rw [toNat_toUInt8 hc]; omega),
      nofun⟩
  · obtain ⟨b, bs, hbytes, hlead, htail⟩ := encodeChar_of_not_lt hc
    exact ⟨b, bs, hbytes, isTail_eq_false (Or.inr hlead), htail⟩

/-- The first byte of a character tells which ASCII character it is. -/
theorem eq_toUInt8_iff {a c : Char} {b : UInt8} {bs : Bytes} (hbytes : encodeChar c = b :: bs)
    (ha : a.toNat < 0x80) : b = a.toUInt8 ↔ c = a := by
  constructor
  · rintro rfl
    by_contra hne
    exact toUInt8_not_mem ha hne (hbytes ▸ List.mem_cons_self)
  · rintro rfl
    exact (List.cons.inj (hbytes.symm.trans (encodeChar_of_lt ha))).1

theorem getElem?_encodeChars {a : Char} (ha : a.toNat < 0x80) (cs : List Char) :
    (encodeChars cs)[0]? = some a.toUInt8 ↔ cs.head? = some a := by
  cases cs with
  | nil => simp [encodeChars_nil]
  | cons c cs =>
      obtain ⟨b, bs, hbytes, -⟩ := exists_encodeChar c
      rw [encodeChars_cons, hbytes, List.cons_append, List.getElem?_cons_zero, List.head?_cons,
        Option.some.injEq, Option.some.injEq]
      exact eq_toUInt8_iff hbytes ha

theorem exists_cons_of_getElem? {a : Char} (ha : a.toNat < 0x80) {cs : List Char}
    (h : (encodeChars cs)[0]? = some a.toUInt8) : ∃ ds, cs = a :: ds :=
  List.head?_eq_some_iff.mp ((getElem?_encodeChars ha cs).mp h)

-- ============================================================ cuts

/-- Between two characters a text may be cut. -/
theorem isCut_encodeChars (xs ys : List Char) :
    isCut (encodeChars (xs ++ ys)) (encodeChars xs).length = true := by
  unfold isCut
  rw [encodeChars_append, List.getElem?_append_right (Nat.le_refl _), Nat.sub_self]
  cases ys with
  | nil => simp [encodeChars_nil]
  | cons c ys =>
      obtain ⟨b, bs, hbytes, hlead, -⟩ := exists_encodeChar c
      rw [encodeChars_cons, hbytes]
      simpa using hlead

theorem slice?_encodeChars (xs ys zs : List Char) :
    slice? (encodeChars (xs ++ ys ++ zs)) (encodeChars xs).length (encodeChars (xs ++ ys)).length
      = some (.ofList ys) := by
  have hle : (encodeChars xs).length ≤ (encodeChars (xs ++ ys)).length := by
    rw [encodeChars_append, List.length_append]
    exact Nat.le_add_right _ _
  have hstart := isCut_encodeChars xs (ys ++ zs)
  rw [← List.append_assoc] at hstart
  unfold slice?
  rw [hstart, isCut_encodeChars, decide_eq_true hle, if_pos (by rfl)]
  rw [encodeChars_append (xs ++ ys), List.take_left, encodeChars_append, List.drop_left,
    decode_encodeChars]

-- ============================================================ words

/-- A word of ASCII characters stands at the start of a text if its bytes stand at the start of
the bytes. -/
theorem isPrefixOf_encodeChars {word : List Char} (hw : ∀ a ∈ word, a.toNat < 0x80)
    (cs : List Char) : (encodeChars word).isPrefixOf (encodeChars cs) = word.isPrefixOf cs := by
  induction word generalizing cs with
  | nil => simp [encodeChars_nil]
  | cons a word ih =>
      obtain ⟨ha, hword⟩ := List.forall_mem_cons.mp hw
      rw [encodeChars_cons_of_lt ha]
      cases cs with
      | nil => rfl
      | cons c cs =>
          obtain ⟨b, bs, hbytes, -⟩ := exists_encodeChar c
          by_cases hca : c = a
          · subst hca
            rw [encodeChars_cons_of_lt ha, List.isPrefixOf_cons_cons, List.isPrefixOf_cons_cons,
              ih hword, beq_self_eq_true, beq_self_eq_true]
          · have hbyte : a.toUInt8 ≠ b := fun h => hca ((eq_toUInt8_iff hbytes ha).mp h.symm)
            have hchar : a ≠ c := fun h => hca h.symm
            rw [encodeChars_cons, hbytes, List.cons_append, List.isPrefixOf_cons_cons,
              List.isPrefixOf_cons_cons, beq_false_of_ne hbyte, beq_false_of_ne hchar,
              Bool.false_and, Bool.false_and]

/-- What holds of the first 128 characters holds of every ASCII character. -/
theorem ascii_of_forall {motive : Char → Prop} (h : ∀ n : Fin 128, motive (.ofNat n)) {c : Char}
    (hc : c.toNat < 0x80) : motive c := by
  have hn := h ⟨c.toNat, hc⟩
  rwa [Char.ofNat_toNat] at hn

theorem toUInt8_toLower {c : Char} (h : c.toNat < 0x80) :
    c.toLower.toUInt8 = lowerByte c.toUInt8 ∧ c.toLower.toNat < 0x80 :=
  ascii_of_forall (motive := fun c => c.toLower.toUInt8 = lowerByte c.toUInt8
    ∧ c.toLower.toNat < 0x80) (by decide +kernel) h

/-- Lower case leaves what is not ASCII as it is. -/
theorem toLower_of_not_lt {c : Char} (h : ¬ c.toNat < 0x80) : c.toLower = c := by
  unfold Char.toLower
  rw [dif_neg]
  rintro ⟨-, hle⟩
  have : c.toNat ≤ 90 := hle
  omega

theorem lowerByte_of_le {b : UInt8} (h : 0x80 ≤ b.toNat) : lowerByte b = b := by
  unfold lowerByte
  rw [if_neg]
  simp only [Bool.and_eq_true, decide_eq_true_eq, not_and]
  intro _ hle
  have : b.toNat ≤ 90 := hle
  omega

/-- A word in lower case stands at the start of a text, whatever the case there, if its bytes do
at the start of the bytes. -/
theorem map_lowerByte_take {word : List Char} (hw : ∀ a ∈ word, a.toNat < 0x80)
    (cs : List Char) :
    ((encodeChars cs).take word.length).map lowerByte = encodeChars word
      ↔ (cs.take word.length).map Char.toLower = word := by
  induction word generalizing cs with
  | nil => simp [encodeChars_nil]
  | cons a word ih =>
      obtain ⟨ha, hword⟩ := List.forall_mem_cons.mp hw
      rw [encodeChars_cons_of_lt ha, List.length_cons]
      cases cs with
      | nil => simp [encodeChars_nil]
      | cons c cs =>
          rw [List.take_succ_cons, List.map_cons, List.cons.injEq, ← ih hword cs]
          by_cases hc : c.toNat < 0x80
          · obtain ⟨hlower, hascii⟩ := toUInt8_toLower hc
            rw [encodeChars_cons_of_lt hc, List.take_succ_cons, List.map_cons, List.cons.injEq, ← hlower]
            exact and_congr_left' ⟨toUInt8_inj ha hascii, congrArg Char.toUInt8⟩
          · -- the first byte differs, and so does the character
            obtain ⟨b, bs, hbytes, -⟩ := exists_encodeChar c
            have hb : 0x80 ≤ b.toNat := le_of_mem_encodeChar hc (hbytes ▸ List.mem_cons_self)
            have hbyte : lowerByte b ≠ a.toUInt8 := by
              rw [lowerByte_of_le hb]
              rintro rfl
              rw [toNat_toUInt8 ha] at hb
              omega
            have hchar : c.toLower ≠ a := by
              rw [toLower_of_not_lt hc]
              exact ne_of_not_lt hc a ha
            rw [encodeChars_cons, hbytes, List.cons_append, List.take_succ_cons, List.map_cons,
              List.cons.injEq]
            exact iff_of_false (fun h => hbyte h.1) (fun h => hchar h.1)

end EventDocs.Utf8
