import EventDocs.Proofs.Token.Lines
import Mathlib.Data.List.TakeWhile

/-
What a lexeme can be, and where its token stands.

Two slashes start a marker, or they are a lexeme of their own. Every other lexeme is no marker,
and has no slash behind its first character (`Lexeme.form_read`). That is all there is to know
about slashes, and about what can hide a marker.

A token in the middle of all tokens is the first lexeme of what the tokens before it have left,
and stands where they end (`Token.scan_eq_append`).
-/

namespace EventDocs

-- ============================================================ two slashes

namespace Lexeme

variable {c : Char} {cs : List Char}

/-- What starts with a slash pair and a word that closes a block, in whatever letter case. -/
theorem ofSlashes_endMarker {word : List Char} (hword : word.map Char.toLower = endWord)
    (behind : List Char) :
    ofSlashes (word ++ behind) = ⟨.endMarker, '/' :: '/' :: word, [], behind⟩ := by
  have hlength : word.length = endWord.length := by rw [← hword, List.length_map]
  have hbegin : ¬ beginWord.isPrefixOf (word ++ behind) = true := by
    cases word with
    | nil => cases hword
    | cons d word =>
        intro hplus
        obtain ⟨rest, hrest⟩ := List.isPrefixOf_iff_prefix.mp hplus
        obtain rfl : '+' = d := (List.cons.inj hrest).1
        have hminus : Char.toLower '+' = '-' := (List.cons.inj hword).1
        revert hminus
        decide
  have hend : startsWithEnd (word ++ behind) = true := by
    unfold startsWithEnd
    rw [← hlength, List.take_left, hword]
    exact decide_eq_true rfl
  unfold ofSlashes
  rw [if_neg hbegin, if_pos hend, ← hlength, List.take_left, List.drop_left]

theorem exists_of_startsWithEnd (h : startsWithEnd cs = true) :
    ∃ word behind, cs = word ++ behind ∧ word.map Char.toLower = endWord :=
  ⟨cs.take endWord.length, cs.drop endWord.length, (List.take_append_drop _ _).symm,
    of_decide_eq_true h⟩

-- ============================================================ one lexeme

/-- What the first lexeme of `c :: cs` looks like. -/
inductive Form (c : Char) (cs : List Char) : Lexeme → Prop where
  | beginMarker {behind : List Char} : c = '/' → cs = '/' :: (beginWord ++ behind) →
      Form c cs ⟨.beginMarker, '/' :: '/' :: (beginWord ++ (Metadata.split behind).literal),
        Text.trim (Metadata.split behind).captured, (Metadata.split behind).rest⟩
  | endMarker {word behind : List Char} : c = '/' → cs = '/' :: (word ++ behind) →
      word.map Char.toLower = endWord → Form c cs ⟨.endMarker, '/' :: '/' :: word, [], behind⟩
  | slashes {behind : List Char} : c = '/' → cs = '/' :: behind →
      Form c cs ⟨.doubleSlash, ['/', '/'], [], behind⟩
  /-- No marker, and no slash but perhaps the first character. -/
  | plain {k : Kind} {tail rest : List Char} : k.isMarker = false → cs = tail ++ rest →
      '/' ∉ tail → (c = '/' → tail = [] ∧ rest.head? ≠ some '/') →
      Form c cs ⟨k, c :: tail, [], rest⟩

theorem form_ofSlashes (behind : List Char) : Form '/' ('/' :: behind) (ofSlashes behind) := by
  unfold ofSlashes
  split
  · next h =>
    obtain ⟨rest, rfl⟩ := List.isPrefixOf_iff_prefix.mp h
    rw [List.drop_left]
    exact .beginMarker rfl rfl
  · split
    · next h =>
      obtain ⟨word, rest, rfl, hword⟩ := exists_of_startsWithEnd h
      have hlength : word.length = endWord.length := by rw [← hword, List.length_map]
      rw [← hlength, List.take_left, List.drop_left]
      exact .endMarker rfl rfl hword
    · exact .slashes rfl rfl

theorem form_single {k : Kind} (hk : k.isMarker = false) (hc : c = '/' → cs.head? ≠ some '/') :
    Form c cs (single k c cs) :=
  .plain hk rfl (List.not_mem_nil) fun h => ⟨rfl, hc h⟩

theorem form_ofComment {k : Kind} (hk : k.isMarker = false) {d : Char} {delimiter : List Char}
    (hdelimiter : '/' ∉ d :: delimiter) (hc : c ≠ '/') :
    Form c cs (ofComment k (d :: delimiter) c cs) := by
  unfold ofComment
  split
  · next h =>
    obtain ⟨behind, hbehind⟩ := List.isPrefixOf_iff_prefix.mp h
    obtain ⟨rfl, hcs⟩ := List.cons.inj ((List.cons_append ..).symm.trans hbehind)
    have hspaces : '/' ∉ behind.takeWhile (· = ' ') := by
      intro hmem
      exact absurd (List.mem_takeWhile_imp hmem) (by decide)
    rw [← hbehind, List.drop_left]
    dsimp only
    rw [List.cons_append]
    refine .plain hk ?_ ?_ fun h => absurd h hc
    · rw [← hcs, List.append_assoc, List.takeWhile_append_dropWhile]
    · rw [List.mem_append]
      rintro (hmem | hmem)
      · exact hdelimiter (List.mem_cons_of_mem _ hmem)
      · exact hspaces hmem
  · exact form_single rfl fun h => absurd h hc

theorem form_ofText (hc : c ≠ '/') : Form c cs (ofText c cs) := by
  refine .plain rfl List.takeWhile_append_dropWhile.symm ?_ fun h => absurd h hc
  intro hmem
  exact absurd (List.mem_takeWhile_imp hmem) (by decide)

theorem isMarker_of_ofWhite? {k : Kind} (h : Kind.ofWhite? c = some k) : k.isMarker = false := by
  unfold Kind.ofWhite? at h
  split_ifs at h <;> (rw [← Option.some.inj h]; rfl)

/-- Every lexeme is of one of the forms. -/
theorem form_read (c : Char) (cs : List Char) : Form c cs (read c cs) := by
  unfold read
  split
  · next hslash =>
    subst hslash
    split
    · exact form_ofSlashes _
    · next hnot =>
      refine form_single rfl fun _ hhead => ?_
      obtain ⟨behind, rfl⟩ := List.head?_eq_some_iff.mp hhead
      exact hnot behind rfl
  · next hslash =>
    split
    · exact form_single rfl fun h => absurd h hslash
    · split
      · exact form_ofComment rfl (by decide) hslash
      · split
        · exact form_ofComment rfl (by decide) hslash
        · split
          · next k hk => exact form_single (isMarker_of_ofWhite? hk) fun h => absurd h hslash
          · split
            · exact form_single rfl fun h => absurd h hslash
            · exact form_ofText hslash

/-- Only a begin marker is read as one. -/
theorem read_kind_beginMarker : (read c cs).kind = .beginMarker ↔
    c = '/' ∧ ∃ behind, cs = '/' :: (beginWord ++ behind) := by
  constructor
  · intro hkind
    have hform := form_read c cs
    generalize read c cs = l at hform hkind
    cases hform with
    | beginMarker hc hcs => exact ⟨hc, _, hcs⟩
    | endMarker => cases hkind
    | slashes => cases hkind
    | plain hk =>
        obtain rfl : _ = Kind.beginMarker := hkind
        cases hk
  · rintro ⟨rfl, behind, rfl⟩
    rfl

/-- Only an end marker is read as one. -/
theorem read_kind_endMarker : (read c cs).kind = .endMarker ↔
    c = '/' ∧ ∃ word behind, cs = '/' :: (word ++ behind) ∧ word.map Char.toLower = endWord := by
  constructor
  · intro hkind
    have hform := form_read c cs
    generalize read c cs = l at hform hkind
    cases hform with
    | beginMarker => cases hkind
    | endMarker hc hcs hword => exact ⟨hc, _, _, hcs, hword⟩
    | slashes => cases hkind
    | plain hk =>
        obtain rfl : _ = Kind.endMarker := hkind
        cases hk
  · rintro ⟨rfl, word, behind, rfl, hword⟩
    show (ofSlashes (word ++ behind)).kind = .endMarker
    rw [ofSlashes_endMarker hword]

end Lexeme

-- ============================================================ tokens in their places

namespace Token

variable {source : Source} {p : Position} {cs : List Char} {before after : List Token} {t : Token}

/-- The characters that some tokens cover. -/
def chars (tokens : List Token) : List Char := tokens.flatMap (·.literal.toList)

@[simp] theorem chars_nil : chars [] = [] := rfl

@[simp] theorem chars_cons (t : Token) (ts : List Token) :
    chars (t :: ts) = t.literal.toList ++ chars ts := rfl

@[simp] theorem chars_append (ts us : List Token) : chars (ts ++ us) = chars ts ++ chars us :=
  List.flatMap_append

theorem chars_scan (source : Source) (p : Position) (cs : List Char) :
    chars (scan source p cs) = cs :=
  flatMap_literal_scan source p cs

theorem chars_tokenize (source : Source) (text : String) :
    chars (tokenize source text) = text.toList :=
  chars_scan source .start text.toList

/-- A token is the first lexeme of what the tokens before it have left, and stands where they
end. The tokens behind it are those of what it has left in turn. -/
theorem scan_eq_append (h : scan source p cs = before ++ t :: after) :
    ∃ c ds, cs = chars before ++ c :: ds
      ∧ t = ofLexeme source (p.after (chars before)) (Lexeme.read c ds)
      ∧ after
        = scan source (p.after (chars before ++ t.literal.toList)) (Lexeme.read c ds).rest := by
  induction before generalizing p cs with
  | nil =>
      cases cs with
      | nil =>
          rw [scan] at h
          cases h
      | cons c ds =>
          rw [scan_cons] at h
          obtain ⟨rfl, rfl⟩ := List.cons.inj h
          refine ⟨c, ds, rfl, rfl, ?_⟩
          rw [toList_literal_ofLexeme, chars_nil, List.nil_append]
  | cons b before ih =>
      cases cs with
      | nil =>
          rw [scan] at h
          cases h
      | cons c ds =>
          rw [scan_cons, List.cons_append] at h
          obtain ⟨rfl, hbefore⟩ := List.cons.inj h
          obtain ⟨d, more, hrest, ht, hafter⟩ := ih hbefore
          rw [chars_cons, toList_literal_ofLexeme]
          refine ⟨d, more, ?_, ?_, ?_⟩
          · rw [List.append_assoc, ← hrest, Lexeme.taken_append_rest]
          · rw [Position.after_append, ht]
          · rw [List.append_assoc, Position.after_append, hafter]

end Token

end EventDocs
