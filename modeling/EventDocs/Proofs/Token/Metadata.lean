import EventDocs.Proofs.Text.Blanks
import EventDocs.Proofs.Token.Lexemes

/-
A begin marker takes the metadata that belong to it, no more and no less.

What belongs to it can be said without the reader: the longest text behind the marker in which
every line feed is escaped (`Metadata.Belongs`). The reader goes from left to right with two
characters of look-ahead, and whether a line feed is escaped is a question about the characters
in front of it. The two agree because an escape ends in its line feed, so nothing in front of a
line feed can escape a later one (`Escaped.of_append`), and because the reader passes a backslash
on its own only where no line break follows.
-/

namespace EventDocs

namespace Metadata

-- ============================================================ statement vocabulary

/-- Every line feed has a backslash in front of it, or a backslash and a carriage return. -/
def Escaped (s : List Char) : Prop :=
  ∀ front back, s = front ++ '\n' :: back → ['\\'] <:+ front ∨ ['\\', '\r'] <:+ front

/-- The text `s` is the longest beginning of `behind` in which every line feed is escaped. -/
structure Belongs (behind s : List Char) : Prop where
  isPrefix : s <+: behind
  escaped : Escaped s
  longest : ∀ other, other <+: behind → Escaped other → other.length ≤ s.length

/-- A text without its escaped line breaks. -/
def unescape : List Char → List Char
  | [] => []
  | '\\' :: '\n' :: cs => unescape cs
  | '\\' :: '\r' :: '\n' :: cs => unescape cs
  | c :: cs => c :: unescape cs

-- ============================================================ escaped texts

theorem suffix_of_suffix_append_cons {w front back : List Char} {a : Char}
    (h : w <:+ front ++ a :: back) (ha : a ∉ w) : w <:+ back := by
  rcases List.suffix_or_suffix_of_suffix h (List.suffix_append front (a :: back)) with hw | hw
  · rcases List.suffix_cons_iff.mp hw with rfl | hw
    · exact absurd List.mem_cons_self ha
    · exact hw
  · exact absurd (hw.subset List.mem_cons_self) ha

theorem escaped_nil : Escaped [] := by
  intro front back h
  cases front with
  | nil => cases h
  | cons c front => cases h

theorem Escaped.append {s t : List Char} (hs : Escaped s) (ht : Escaped t) :
    Escaped (s ++ t) := by
  intro front back h
  rcases List.append_eq_append_iff.mp h with ⟨more, hfront, hmore⟩ | ⟨more, hs', hmore⟩
  · -- the line feed stands in `t`
    rw [hfront]
    rcases ht more back hmore with hslash | hslash
    · exact Or.inl (hslash.trans (List.suffix_append s more))
    · exact Or.inr (hslash.trans (List.suffix_append s more))
  · cases more with
    | nil =>
        -- it is the first character of `t`, which would not be escaped
        rcases ht [] back hmore.symm with hslash | hslash
        · cases List.suffix_nil.mp hslash
        · cases List.suffix_nil.mp hslash
    | cons c more =>
        obtain ⟨rfl, -⟩ := List.cons.inj hmore
        exact hs front more hs'

theorem escaped_of_not_mem {s : List Char} (h : '\n' ∉ s) : Escaped s := by
  intro front back hs
  exact absurd (hs ▸ List.mem_append_right front List.mem_cons_self) h

theorem escaped_break (front : List Char) (hfront : '\n' ∉ front)
    (hslash : ['\\'] <:+ front ∨ ['\\', '\r'] <:+ front) : Escaped (front ++ ['\n']) := by
  intro inner back h
  rcases List.append_eq_append_iff.mp h with ⟨more, rfl, hmore⟩ | ⟨more, rfl, hmore⟩
  · cases more with
    | nil => rwa [List.append_nil]
    | cons c more => cases more <;> cases hmore
  · cases more with
    | nil => rwa [List.append_nil] at hslash
    | cons c more =>
        obtain ⟨rfl, -⟩ := List.cons.inj hmore
        exact absurd (List.mem_append_right inner List.mem_cons_self) hfront

/-- Nothing in front of a line feed escapes what is behind it. -/
theorem Escaped.of_append {front s : List Char} (h : Escaped (front ++ '\n' :: s)) :
    Escaped s := by
  intro inner back hs
  have hall : front ++ '\n' :: s = (front ++ '\n' :: inner) ++ '\n' :: back := by
    rw [hs, List.append_assoc, List.cons_append]
  rcases h _ _ hall with hslash | hslash
  · exact Or.inl (suffix_of_suffix_append_cons hslash (by decide))
  · exact Or.inr (suffix_of_suffix_append_cons hslash (by decide))

/-- A character in front that starts no escape makes no difference. -/
theorem Escaped.of_cons {c : Char} {s : List Char} (h : Escaped (c :: s))
    (hbreak : ∀ back, c = '\\' → s = '\n' :: back → False)
    (hreturn : ∀ back, c = '\\' → s = '\r' :: '\n' :: back → False) : Escaped s := by
  intro front back hs
  rcases h (c :: front) back (by rw [hs, List.cons_append]) with hslash | hslash
  · rcases List.suffix_cons_iff.mp hslash with heq | hslash
    · obtain ⟨rfl, rfl⟩ := List.cons.inj heq
      exact absurd hs (hbreak back rfl)
    · exact Or.inl hslash
  · rcases List.suffix_cons_iff.mp hslash with heq | hslash
    · obtain ⟨rfl, rfl⟩ := List.cons.inj heq
      exact absurd hs (hreturn back rfl)
    · exact Or.inr hslash

-- ============================================================ the reader

/-- Metadata end at the end of the text or in front of a line feed. -/
theorem rest_split (cs : List Char) :
    (split cs).rest = [] ∨ ∃ more, (split cs).rest = '\n' :: more := by
  fun_induction split cs with
  | case1 => exact Or.inl rfl
  | case2 cs => exact Or.inr ⟨cs, rfl⟩
  | case3 cs m ih => exact ih
  | case4 cs m ih => exact ih
  | case5 c cs _ _ _ m ih => exact ih

theorem escaped_literal (cs : List Char) : Escaped (split cs).literal := by
  fun_induction split cs with
  | case1 => exact escaped_nil
  | case2 => exact escaped_nil
  | case3 cs m ih =>
      exact (escaped_break ['\\'] (by decide) (Or.inl List.suffix_rfl)).append ih
  | case4 cs m ih =>
      exact (escaped_break ['\\', '\r'] (by decide) (Or.inr List.suffix_rfl)).append ih
  | case5 c cs hc _ _ m ih =>
      have hsingle : Escaped [c] := escaped_of_not_mem fun h => hc (List.mem_singleton.mp h).symm
      exact hsingle.append ih

/-- What is escaped and reaches over a line feed goes on behind it. -/
theorem prefix_break (front : List Char) {cs literal s : List Char} (hs : s <+: front ++ '\n' :: cs)
    (hescaped : Escaped s) (ih : ∀ s, s <+: cs → Escaped s → s <+: literal) :
    s <+: front ++ '\n' :: literal := by
  rcases List.prefix_or_prefix_of_prefix hs (List.prefix_append front _) with hshort | ⟨more, rfl⟩
  · exact hshort.trans (List.prefix_append front _)
  · rw [List.prefix_append_right_inj] at hs ⊢
    cases more with
    | nil => exact List.nil_prefix
    | cons c more =>
        obtain ⟨rfl, hmore⟩ := List.cons_prefix_cons.mp hs
        exact List.cons_prefix_cons.mpr ⟨rfl, ih more hmore hescaped.of_append⟩

/-- Whatever is escaped and stands at the beginning is taken. -/
theorem prefix_literal (cs : List Char) :
    ∀ s, s <+: cs → Escaped s → s <+: (split cs).literal := by
  fun_induction split cs with
  | case1 => exact fun s hs _ => hs
  | case2 cs =>
      intro s hs hescaped
      cases s with
      | nil => exact List.nil_prefix
      | cons c s =>
          obtain ⟨rfl, -⟩ := List.cons_prefix_cons.mp hs
          rcases hescaped [] s rfl with hslash | hslash
          · cases List.suffix_nil.mp hslash
          · cases List.suffix_nil.mp hslash
  | case3 cs m ih => exact fun s hs hescaped => prefix_break ['\\'] hs hescaped ih
  | case4 cs m ih => exact fun s hs hescaped => prefix_break ['\\', '\r'] hs hescaped ih
  | case5 c cs hc hbreak hreturn m ih =>
      intro s hs hescaped
      cases s with
      | nil => exact List.nil_prefix
      | cons d s =>
          obtain ⟨rfl, more, rfl⟩ := List.cons_prefix_cons.mp hs
          have htail : Escaped s := by
            apply hescaped.of_cons
            · rintro back hslash rfl
              exact hbreak _ hslash rfl
            · rintro back hslash rfl
              exact hreturn _ hslash rfl
          exact List.cons_prefix_cons.mpr ⟨rfl, ih s (List.prefix_append s more) htail⟩

/-- The reader takes what belongs to the marker. -/
theorem belongs_literal (cs : List Char) : Belongs cs (split cs).literal where
  isPrefix := ⟨_, literal_append_rest cs⟩
  escaped := escaped_literal cs
  longest other hother hescaped := (prefix_literal cs other hother hescaped).length_le

/-- What is captured is what is taken, without the escaped line breaks. -/
theorem captured_eq_unescape (cs : List Char) :
    (split cs).captured = unescape (split cs).literal := by
  fun_induction split cs with
  | case1 => rfl
  | case2 => rfl
  | case3 cs m ih => rw [unescape, ih]
  | case4 cs m ih => rw [unescape, ih]
  | case5 c cs hc hbreak hreturn m ih =>
      have hwhole := literal_append_rest cs
      rw [unescape.eq_4, ih]
      · intro more hslash hmore
        exact hbreak (more ++ m.rest) hslash (by rw [← hwhole, hmore]; rfl)
      · intro more hslash hmore
        exact hreturn (more ++ m.rest) hslash (by rw [← hwhole, hmore]; rfl)

theorem newLine_not_mem_captured (cs : List Char) : '\n' ∉ (split cs).captured := by
  fun_induction split cs with
  | case1 => exact List.not_mem_nil
  | case2 => exact List.not_mem_nil
  | case3 cs m ih => exact ih
  | case4 cs m ih => exact ih
  | case5 c cs hc _ _ m ih =>
      intro hmem
      rcases List.mem_cons.mp hmem with h | h
      · exact hc h.symm
      · exact ih h

end Metadata

-- ============================================================ tokens

namespace Lexeme

/-- Only a begin marker has metadata. -/
theorem metadata_eq_nil {c : Char} {cs : List Char} (h : (read c cs).kind ≠ .beginMarker) :
    (read c cs).metadata = [] := by
  have hform := form_read c cs
  generalize read c cs = l at hform h
  cases hform with
  | beginMarker => exact absurd rfl h
  | endMarker => rfl
  | slashes => rfl
  | plain => rfl

end Lexeme

/-- What starts a block. -/
def beginMark : List Char := "//+gendoc".toList

/-- A begin marker covers itself and the metadata that belong to it, which are captured without
their escaped line breaks and trimmed. Behind it stands a line break or the end of the text.
Other tokens have no metadata. -/
theorem metadata_captured_exactly {source : Source} {text : String} {before after : List Token}
    {t : Token} (h : tokenize source text = before ++ t :: after) :
    (t.kind = .beginMarker →
      ∃ behind s, text.toList = Token.chars before ++ beginMark ++ behind
        ∧ Metadata.Belongs behind s
        ∧ t.literal.toList = beginMark ++ s
        ∧ t.metadata.toList = Text.trim (Metadata.unescape s)
        ∧ '\n' ∉ t.metadata.toList
        ∧ ((after.head?.getD (endToken source text)).kind = .newLine
          ∨ (after.head?.getD (endToken source text)).kind = .endOfText))
      ∧ (t.kind ≠ .beginMarker → t.metadata = "")
      ∧ (endToken source text).metadata = "" := by
  obtain ⟨c, ds, htext, ht, hafter⟩ := Token.scan_eq_append h
  refine ⟨?_, ?_, rfl⟩
  · intro hkind
    rw [ht] at hkind
    obtain ⟨rfl, behind, rfl⟩ := Lexeme.read_kind_beginMarker.mp hkind
    rw [Lexeme.read_beginMarker] at ht hafter
    refine ⟨behind, (Metadata.split behind).literal, ?_, Metadata.belongs_literal behind, ?_, ?_,
      ?_, ?_⟩
    · rw [htext, List.append_assoc]
      rfl
    · rw [ht, Token.toList_literal_ofLexeme]
      rfl
    · rw [ht, ← Metadata.captured_eq_unescape]
      exact String.toList_ofList
    · rw [ht]
      show '\n' ∉ (String.ofList (Text.trim (Metadata.split behind).captured)).toList
      rw [String.toList_ofList]
      exact fun hmem => Metadata.newLine_not_mem_captured behind (Text.mem_of_mem_trim hmem)
    · dsimp only at hafter
      rcases Metadata.rest_split behind with hrest | ⟨more, hrest⟩
      · rw [hafter, hrest, Token.scan]
        exact Or.inr rfl
      · rw [hafter, hrest, Token.scan_cons_white rfl]
        exact Or.inl rfl
  · intro hkind
    rw [ht] at hkind ⊢
    show String.ofList (Lexeme.read c ds).metadata = ""
    rw [Lexeme.metadata_eq_nil hkind]

/-- Both escapes, a doubled backslash in front of one, a character of two bytes, and a carriage
return that is trimmed. -/
def continuedText : String := "é //+gendoc id=a\\\n c=é\\\\\r\n\t \r\nbody"

def continuedMarker : Token where
  kind := .beginMarker
  literal := "//+gendoc id=a\\\n c=é\\\\\r\n\t \r"
  metadata := "id=a c=é\\"
  line := 1
  column := 3
  source := ⟨"A.cs", "src/A.cs"⟩

theorem metadata_captured_exactly_continued :
    let source : Source := ⟨"A.cs", "src/A.cs"⟩
    let before : List Token := [⟨.text, "é", "", 1, 1, source⟩, ⟨.space, " ", "", 1, 2, source⟩]
    let after : List Token :=
      [⟨.newLine, "\n", "", 3, 4, source⟩, ⟨.text, "body", "", 4, 1, source⟩]
    tokenize source continuedText = before ++ continuedMarker :: after
      ∧ ∃ behind s, continuedText.toList = Token.chars before ++ beginMark ++ behind
        ∧ Metadata.Belongs behind s
        ∧ continuedMarker.literal.toList = beginMark ++ s
        ∧ continuedMarker.metadata.toList = Text.trim (Metadata.unescape s) := by
  intro source before after
  have htokens : tokenize source continuedText = before ++ continuedMarker :: after := by
    decide +kernel
  obtain ⟨behind, s, htext, hbelongs, hliteral, hmetadata, -, -⟩ :=
    (metadata_captured_exactly htokens).1 rfl
  exact ⟨htokens, behind, s, htext, hbelongs, hliteral, hmetadata⟩

end EventDocs
