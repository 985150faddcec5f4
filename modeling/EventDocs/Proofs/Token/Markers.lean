import EventDocs.Proofs.Token.Metadata
import Mathlib.Algebra.Group.Nat.Even
import Mathlib.Data.List.DropRight

/-
Markers are recognised exactly where they stand, whatever stands in front of them.

A marker starts with two slashes, and slashes are read in pairs from the left, so it matters how
the characters in front of a marker were cut up. They are cut up in one way only: in front of a
token that starts with a slash stand evenly many slashes (`Aligned`), because a run of slashes
starts a token unless a begin marker has taken it. One lexeme keeps that (`Aligned.read`), and so
do all (`Token.aligned_of_scan`).

A place where a marker is written and that has evenly many slashes in front of it is therefore
the start of a token or lies inside a begin marker: the second slash of a pair has an odd number
in front of it, and no other lexeme has a slash behind its first character.
-/

namespace EventDocs

-- ============================================================ statement vocabulary

/-- The text starts with a begin marker. -/
def BeginWritten (ahead : List Char) : Prop := beginMark <+: ahead

/-- The text starts with an end marker, in any mixture of ASCII letter cases. -/
def EndWritten (ahead : List Char) : Prop :=
  ∃ word behind, ahead = "//".toList ++ word ++ behind
    ∧ word.map Char.toLower = "-gendoc".toList

/-- How many slashes a text ends in. -/
def trailingSlashes (front : List Char) : Nat := (front.rtakeWhile (· = '/')).length

namespace Token

/-- The token `t` starts behind `p` characters. -/
def StartsAt (tokens : List Token) (t : Token) (p : Nat) : Prop :=
  ∃ before after, tokens = before ++ t :: after ∧ (chars before).length = p

/-- A begin marker starts in front of the place behind `p` characters and goes on behind it. -/
def InsideBegin (tokens : List Token) (p : Nat) : Prop :=
  ∃ t q, StartsAt tokens t q ∧ t.kind = .beginMarker ∧ q < p ∧ p < q + t.literal.length

end Token

-- ============================================================ slashes

theorem trailingSlashes_concat (front : List Char) :
    trailingSlashes (front ++ ['/']) = trailingSlashes front + 1 := by
  unfold trailingSlashes
  rw [List.rtakeWhile_concat_pos _ _ _ (by decide), List.length_append]
  rfl

/-- Any other character ends a run of slashes. -/
theorem trailingSlashes_append {back : List Char} (hne : back ≠ []) (hback : '/' ∉ back)
    (front : List Char) : trailingSlashes (front ++ back) = 0 := by
  have hlast : back.getLast hne ≠ '/' := fun h => hback (h ▸ List.getLast_mem hne)
  unfold trailingSlashes
  rw [List.length_eq_zero_iff, List.rtakeWhile_eq_nil_iff]
  intro hall
  rw [List.getLast_append_of_ne_nil hall hne]
  exact fun h => hlast (of_decide_eq_true h)

/-- A token may start here: if it starts with a slash, there are evenly many in front of it. -/
def Aligned (front ahead : List Char) : Prop :=
  ahead.head? = some '/' → Even (trailingSlashes front)

theorem slash_not_mem_of_endWord {word : List Char}
    (hword : word.map Char.toLower = Lexeme.endWord) : '/' ∉ word := by
  intro hmem
  have hlower : Char.toLower '/' ∈ Lexeme.endWord := hword ▸ List.mem_map_of_mem hmem
  revert hlower
  decide

/-- Where one token may start, the next one may start behind it. -/
theorem Aligned.read {front : List Char} {c : Char} {cs : List Char} (h : Aligned front (c :: cs)) :
    Aligned (front ++ (Lexeme.read c cs).taken) (Lexeme.read c cs).rest := by
  intro hslash
  have hform := Lexeme.form_read c cs
  generalize Lexeme.read c cs = l at hform hslash ⊢
  cases hform with
  | @beginMarker behind =>
      -- what follows is a line break, or nothing
      rcases Metadata.rest_split behind with hrest | ⟨more, hrest⟩
      · rw [hrest] at hslash
        cases hslash
      · rw [hrest] at hslash
        cases hslash
  | @endMarker word behind hc hcs hword =>
      have hne : word ≠ [] := by
        rintro rfl
        cases hword
      have hnone := slash_not_mem_of_endWord hword
      have hzero := trailingSlashes_append hne hnone (front ++ ['/', '/'])
      rw [List.append_assoc] at hzero
      show Even (trailingSlashes (front ++ (['/', '/'] ++ word)))
      rw [hzero]
      exact Even.zero
  | slashes hc hcs =>
      have heven := Nat.even_iff.mp (h (by rw [hc]; rfl))
      show Even (trailingSlashes (front ++ (['/'] ++ ['/'])))
      rw [← List.append_assoc, trailingSlashes_concat, trailingSlashes_concat, Nat.even_iff]
      omega
  | @plain k tail rest hk hcs htail hsingle =>
      by_cases hc : c = '/'
      · exact absurd hslash (hsingle hc).2
      · have hnone : '/' ∉ c :: tail := by
          rintro (_ | ⟨_, hmem⟩)
          · exact hc rfl
          · exact htail hmem
        show Even (trailingSlashes (front ++ c :: tail))
        rw [trailingSlashes_append (List.cons_ne_nil c tail) hnone]
        exact Even.zero

/-- A slash inside a lexeme that is no begin marker is the second one of a pair. -/
theorem Lexeme.eq_of_taken_eq_append {c : Char} {cs a b : List Char}
    (hkind : (read c cs).kind ≠ .beginMarker) (ha : a ≠ [])
    (htaken : (read c cs).taken = a ++ '/' :: b) : c = '/' ∧ a = ['/'] := by
  obtain ⟨d, a, rfl⟩ := List.exists_cons_of_ne_nil ha
  -- behind a pair there is no further slash
  have hpair : ∀ word, '/' ∉ word → '/' :: '/' :: word = d :: a ++ '/' :: b → d :: a = ['/'] := by
    intro word hword h
    obtain ⟨rfl, hsecond⟩ := List.cons.inj h
    cases a with
    | nil => rfl
    | cons e a =>
        obtain ⟨-, rfl⟩ := List.cons.inj hsecond
        exact absurd (List.mem_append_right a List.mem_cons_self) hword
  have hform := form_read c cs
  generalize read c cs = l at hform hkind htaken
  cases hform with
  | beginMarker => exact absurd rfl hkind
  | endMarker hc hcs hword => exact ⟨hc, hpair _ (slash_not_mem_of_endWord hword) htaken⟩
  | slashes hc hcs => exact ⟨hc, hpair [] List.not_mem_nil htaken⟩
  | plain hk hcs htail _ =>
      obtain ⟨-, rfl⟩ := List.cons.inj htaken
      exact absurd (List.mem_append_right a List.mem_cons_self) htail

-- ============================================================ places of tokens

namespace Token

variable {source : Source} {text : String} {t : Token} {p : Nat}

/-- Wherever the tokens are cut, a token may start. -/
theorem aligned_of_scan {front cs : List Char} {place : Position} {before after : List Token}
    (h : Aligned front cs) (hscan : scan source place cs = before ++ after) :
    Aligned (front ++ chars before) (chars after) := by
  induction before generalizing front cs place with
  | nil =>
      rw [List.nil_append] at hscan
      rw [chars_nil, List.append_nil, ← hscan, chars_scan]
      exact h
  | cons b before ih =>
      cases cs with
      | nil =>
          rw [scan] at hscan
          cases hscan
      | cons c cs =>
          rw [scan_cons, List.cons_append] at hscan
          obtain ⟨rfl, hrest⟩ := List.cons.inj hscan
          rw [chars_cons, toList_literal_ofLexeme, ← List.append_assoc]
          exact ih h.read hrest

/-- What stands where a token starts: the token's lexeme, and evenly many slashes in front of it
if it starts with one. -/
theorem exists_of_startsAt (h : StartsAt (tokenize source text) t p) :
    ∃ front c ds, text.toList = front ++ c :: ds ∧ front.length = p
      ∧ t.kind = (Lexeme.read c ds).kind ∧ t.literal.toList = (Lexeme.read c ds).taken
      ∧ Aligned front (c :: ds) := by
  obtain ⟨before, after, htokens, hp⟩ := h
  obtain ⟨c, ds, htext, ht, -⟩ := scan_eq_append htokens
  have hahead : chars (t :: after) = c :: ds := by
    have hwhole := chars_tokenize source text
    rw [htokens, chars_append, htext] at hwhole
    exact List.append_cancel_left hwhole
  have haligned : Aligned [] text.toList := fun _ => Even.zero
  refine ⟨chars before, c, ds, htext, hp, ?_, ?_, ?_⟩
  · rw [ht]
    rfl
  · rw [ht, toList_literal_ofLexeme]
  · rw [← hahead]
    exact aligned_of_scan haligned htokens

/-- Every character is covered by a token. -/
theorem exists_startsAt_le {tokens : List Token} (hp : p < (chars tokens).length) :
    ∃ t q, StartsAt tokens t q ∧ q ≤ p ∧ p < q + t.literal.length := by
  induction tokens generalizing p with
  | nil => exact absurd hp (Nat.not_lt_zero p)
  | cons t tokens ih =>
      rw [chars_cons, List.length_append, String.length_toList] at hp
      by_cases hfirst : p < t.literal.length
      · exact ⟨t, 0, ⟨[], tokens, rfl, rfl⟩, Nat.zero_le p, by omega⟩
      · obtain ⟨u, q, ⟨before, after, rfl, hq⟩, hle, hlt⟩ :=
          ih (p := p - t.literal.length) (by omega)
        refine ⟨u, t.literal.length + q, ⟨t :: before, after, rfl, ?_⟩, by omega, by omega⟩
        rw [chars_cons, List.length_append, String.length_toList, hq]

/-- A token ends before the next one starts. -/
theorem le_of_startsAt {tokens : List Token} {u : Token} {q : Nat} (ht : StartsAt tokens t p)
    (hu : StartsAt tokens u q) (hlt : q < p) : q + u.literal.length ≤ p := by
  obtain ⟨before, after, rfl, rfl⟩ := ht
  obtain ⟨before', after', htokens, rfl⟩ := hu
  rcases List.append_eq_append_iff.mp htokens with ⟨more, rfl, -⟩ | ⟨more, rfl, hmore⟩
  · rw [chars_append, List.length_append] at hlt
    omega
  · cases more with
    | nil =>
        rw [List.append_nil] at hlt
        exact absurd hlt (Nat.lt_irrefl _)
    | cons v more =>
        obtain ⟨rfl, -⟩ := List.cons.inj hmore
        rw [chars_append, chars_cons, List.length_append, List.length_append,
          String.length_toList]
        omega

/-- The start of a token lies inside no begin marker. -/
theorem not_insideBegin_of_startsAt {tokens : List Token} (h : StartsAt tokens t p) :
    ¬ InsideBegin tokens p := by
  rintro ⟨u, q, hu, -, hlt, hinside⟩
  have hle := le_of_startsAt h hu hlt
  omega

/-- A place inside a token divides the token's lexeme. -/
theorem exists_of_inside {q : Nat} (ht : StartsAt (tokenize source text) t q) (hlt : q < p)
    (hinside : p < q + t.literal.length) :
    ∃ front c ds a d b, text.toList.take p = front ++ a
      ∧ (text.toList.drop p).head? = some d ∧ (Lexeme.read c ds).taken = a ++ d :: b ∧ a ≠ []
      ∧ t.kind = (Lexeme.read c ds).kind ∧ Aligned front (c :: ds) := by
  obtain ⟨front, c, ds, htext, rfl, hkind, hliteral, haligned⟩ := exists_of_startsAt ht
  rw [← String.length_toList, hliteral] at hinside
  rw [← Lexeme.taken_append_rest] at htext
  generalize (Lexeme.read c ds).rest = rest at htext
  have hcut : p - front.length < (Lexeme.read c ds).taken.length := by omega
  have hb : (Lexeme.read c ds).taken.drop (p - front.length) ≠ [] := by
    rw [← List.length_pos_iff, List.length_drop]
    omega
  obtain ⟨d, b, hb⟩ := List.exists_cons_of_ne_nil hb
  refine ⟨front, c, ds, (Lexeme.read c ds).taken.take (p - front.length), d, b, ?_, ?_, ?_, ?_,
    hkind, haligned⟩
  · rw [htext, List.take_append, List.take_of_length_le (Nat.le_of_lt hlt),
      List.take_append_of_le_length (Nat.le_of_lt hcut)]
  · rw [htext, List.drop_append, List.drop_eq_nil_of_le (Nat.le_of_lt hlt), List.nil_append,
      List.drop_append_of_le_length (Nat.le_of_lt hcut), hb]
    rfl
  · rw [← hb, List.take_append_drop]
  · rw [← List.length_pos_iff, List.length_take]
    omega

/-- A place with evenly many slashes in front of it and one behind is the start of a token, or it
lies inside a begin marker. -/
theorem exists_startsAt_of_slash (hslash : (text.toList.drop p).head? = some '/')
    (heven : Even (trailingSlashes (text.toList.take p)))
    (hfree : ¬ InsideBegin (tokenize source text) p) :
    ∃ t, StartsAt (tokenize source text) t p := by
  have hp : p < (chars (tokenize source text)).length := by
    rw [chars_tokenize]
    by_contra hpast
    rw [List.drop_eq_nil_of_le (Nat.le_of_not_lt hpast)] at hslash
    cases hslash
  obtain ⟨t, q, ht, hle, hinside⟩ := exists_startsAt_le hp
  rcases Nat.eq_or_lt_of_le hle with rfl | hlt
  · exact ⟨t, ht⟩
  -- the place would be inside a token, and the slash the second one of a pair
  obtain ⟨front, c, ds, a, d, b, htake, hdrop, htaken, ha, hkind, haligned⟩ :=
    exists_of_inside ht hlt hinside
  obtain rfl : d = '/' := Option.some.inj (hdrop.symm.trans hslash)
  have hnot : (Lexeme.read c ds).kind ≠ .beginMarker :=
    fun h => hfree ⟨t, q, ht, hkind.trans h, hlt, hinside⟩
  obtain ⟨rfl, rfl⟩ := Lexeme.eq_of_taken_eq_append hnot ha htaken
  have hodd := Nat.even_iff.mp (haligned rfl)
  rw [htake, trailingSlashes_concat, Nat.even_iff] at heven
  omega

-- ============================================================ markers

/-- What is read as a token of a certain kind is recognised exactly where it is written, if it
starts with a slash. -/
theorem exists_startsAt_iff {k : Kind} {Written : List Char → Prop}
    (hread : ∀ c ds, (Lexeme.read c ds).kind = k ↔ Written (c :: ds))
    (hslash : ∀ ahead, Written ahead → ahead.head? = some '/') :
    (∃ t, StartsAt (tokenize source text) t p ∧ t.kind = k) ↔
      Written (text.toList.drop p) ∧ Even (trailingSlashes (text.toList.take p))
        ∧ ¬ InsideBegin (tokenize source text) p := by
  -- both ways, a token starts at the place and its lexeme is what stands there
  have hplace : ∀ t, StartsAt (tokenize source text) t p → ∃ c ds, text.toList.drop p = c :: ds
      ∧ t.kind = (Lexeme.read c ds).kind ∧ Aligned (text.toList.take p) (c :: ds) := by
    intro t ht
    obtain ⟨front, c, ds, htext, rfl, hkind, -, haligned⟩ := exists_of_startsAt ht
    refine ⟨c, ds, ?_, hkind, ?_⟩
    · rw [htext, List.drop_left]
    · rw [htext, List.take_left]
      exact haligned
  constructor
  · rintro ⟨t, ht, hkind⟩
    obtain ⟨c, ds, hdrop, hlexeme, haligned⟩ := hplace t ht
    have hwritten : Written (c :: ds) := (hread c ds).mp (hlexeme.symm.trans hkind)
    exact ⟨hdrop ▸ hwritten, haligned (hslash _ hwritten), not_insideBegin_of_startsAt ht⟩
  · rintro ⟨hwritten, heven, hfree⟩
    obtain ⟨t, ht⟩ := exists_startsAt_of_slash (hslash _ hwritten) heven hfree
    obtain ⟨c, ds, hdrop, hlexeme, -⟩ := hplace t ht
    rw [hdrop] at hwritten
    exact ⟨t, ht, hlexeme.trans ((hread c ds).mpr hwritten)⟩

end Token

/-- Markers of both sorts are recognised exactly where they are written, with evenly many slashes
in front of them and outside of the begin markers before them. -/
theorem markers_where_written (source : Source) (text : String) (p : Nat) :
    let tokens := tokenize source text
    let ahead := text.toList.drop p
    let free := Even (trailingSlashes (text.toList.take p)) ∧ ¬ Token.InsideBegin tokens p
    ((∃ t, Token.StartsAt tokens t p ∧ t.kind = .beginMarker) ↔ BeginWritten ahead ∧ free)
      ∧ ((∃ t, Token.StartsAt tokens t p ∧ t.kind = .endMarker) ↔ EndWritten ahead ∧ free) := by
  constructor
  · apply Token.exists_startsAt_iff
    · intro c ds
      rw [Lexeme.read_kind_beginMarker]
      constructor
      · rintro ⟨rfl, behind, rfl⟩
        exact ⟨behind, rfl⟩
      · rintro ⟨behind, hbehind⟩
        obtain ⟨rfl, rfl⟩ := List.cons.inj hbehind
        exact ⟨rfl, behind, rfl⟩
    · rintro ahead ⟨behind, rfl⟩
      rfl
  · apply Token.exists_startsAt_iff
    · intro c ds
      rw [Lexeme.read_kind_endMarker]
      constructor
      · rintro ⟨rfl, word, behind, rfl, hword⟩
        exact ⟨word, behind, rfl, hword⟩
      · rintro ⟨word, behind, hbehind, hword⟩
        obtain ⟨rfl, rfl⟩ := List.cons.inj hbehind
        exact ⟨rfl, word, behind, rfl, hword⟩
    · rintro ahead ⟨word, behind, rfl, -⟩
      rfl

end EventDocs
