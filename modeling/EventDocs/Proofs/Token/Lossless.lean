import EventDocs.Token.Lexer
import Mathlib.Algebra.Ring.Nat
import Mathlib.Tactic.SplitIfs

/-
Reading is lossless and always gets on. A reader is asked for the next token again and
again. What it has ahead is taken off token by token, nothing is dropped and nothing is
taken twice, and when nothing is left it says so for ever and stays where it is.

Everything rests on one step (`Cursor.next`): with something ahead, the token's literal is
a non-empty beginning of it and the rest stays ahead; with nothing ahead, the reader stays.
Two things that can be said of a reader survive the step and carry the run: the tokens
still to come lose their first one, and the token at the end of all does not change.

Literals are made of whole characters, so the byte offsets at which a text is cut are
character boundaries of its UTF-8 form, and each literal is the slice between two of them.
-/

namespace EventDocs

-- ============================================================ statement vocabulary

/-- The reader after `i` calls of `next`. -/
def Cursor.skip (r : Cursor) : Nat → Cursor
  | 0 => r
  | i + 1 => r.next.2.skip i

/-- The answer to call number `i` of `next`, counted from zero. -/
def Cursor.call (r : Cursor) (i : Nat) : Token := (r.skip i).next.1

/-- Where token number `i` starts, in bytes. -/
def Token.byteOffset (tokens : List Token) (i : Nat) : String.Pos.Raw :=
  ⟨((tokens.take i).map (·.literal.utf8ByteSize)).sum⟩

/-- The tokens cut the UTF-8 form of a text between characters, and each literal is the
slice between two cuts. -/
structure Token.Slices (tokens : List Token) (text : String) : Prop where
  boundary : ∀ i, (byteOffset tokens i).IsValid text
  slice : ∀ i t, tokens[i]? = some t →
    text.toByteArray.extract (byteOffset tokens i).byteIdx (byteOffset tokens (i + 1)).byteIdx
      = t.literal.toByteArray

-- ============================================================ one lexeme

namespace Lexeme

theorem ofSlashes_kind_ne (cs : List Char) : (ofSlashes cs).kind ≠ .endOfText := by
  unfold ofSlashes
  split
  · simp
  · split <;> simp

theorem ofComment_kind_ne {k : Kind} (hk : k ≠ .endOfText) (delimiter : List Char) (c : Char)
    (cs : List Char) : (ofComment k delimiter c cs).kind ≠ .endOfText := by
  unfold ofComment
  split
  · exact hk
  · simp [single]

theorem ofWhite?_ne_endOfText {c : Char} {k : Kind} (h : Kind.ofWhite? c = some k) :
    k ≠ .endOfText := by
  rintro rfl
  unfold Kind.ofWhite? at h
  split_ifs at h <;> cases h

/-- No character is read as the end of the text. -/
theorem read_kind_ne (c : Char) (cs : List Char) : (read c cs).kind ≠ .endOfText := by
  unfold read
  split
  · split
    · exact ofSlashes_kind_ne _
    · simp [single]
  · split
    · simp [single]
    · split
      · exact ofComment_kind_ne (k := .openComment) (by decide) opener c cs
      · split
        · exact ofComment_kind_ne (k := .closeComment) (by decide) closer c cs
        · split
          · next k hk => exact ofWhite?_ne_endOfText hk
          · split <;> simp [single, ofText]

end Lexeme

theorem Position.after_append (p : Position) (cs ds : List Char) :
    p.after (cs ++ ds) = (p.after cs).after ds :=
  List.foldl_append

-- ============================================================ one call

namespace Cursor

variable {r : Cursor}

/-- The tokens that are still to come. -/
def pending (r : Cursor) : List Token := Token.scan r.source r.position r.ahead

/-- The token at the end of what is ahead. -/
def last (r : Cursor) : Token := .atEnd r.source (r.position.after r.ahead)

theorem pending_ofText (source : Source) (text : String) :
    (ofText source text).pending = tokenize source text := rfl

/-- With nothing ahead, a call gives the end token and the reader stays. -/
theorem next_of_done (h : r.ahead = []) : r.next = (r.last, r) := by
  unfold next last
  simp only [h]
  rfl

/-- With something ahead, a call gives the first token that is to come. -/
theorem pending_cons {c : Char} {cs : List Char} (h : r.ahead = c :: cs) :
    r.pending = r.next.1 :: r.next.2.pending := by
  unfold pending next
  rw [h, Token.scan]

/-- What a call takes is the literal of its token. -/
theorem literal_append_ahead (r : Cursor) :
    r.next.1.literal.toList ++ r.next.2.ahead = r.ahead := by
  cases h : r.ahead with
  | nil =>
      rw [next_of_done h]
      simp [last, Token.atEnd, h]
  | cons c cs =>
      unfold next
      simp only [h, Token.ofLexeme, String.toList_ofList]
      exact Lexeme.taken_append_rest c cs

/-- The end stays where it is, whatever a call takes. -/
theorem last_next (r : Cursor) : r.next.2.last = r.last := by
  cases h : r.ahead with
  | nil => rw [next_of_done h]
  | cons c cs =>
      have hwhole := r.literal_append_ahead
      unfold last
      rw [← hwhole, Position.after_append]
      unfold next
      simp only [h, Token.ofLexeme, String.toList_ofList]

/-- A token that is not the last one takes something and says so. -/
theorem next_of_ahead {c : Char} {cs : List Char} (h : r.ahead = c :: cs) :
    r.next.1.kind ≠ .endOfText ∧ r.next.1.literal ≠ "" := by
  unfold next
  simp only [h, Token.ofLexeme]
  refine ⟨Lexeme.read_kind_ne c cs, ?_⟩
  intro hempty
  have htaken := congrArg String.toList hempty
  rw [String.toList_ofList] at htaken
  exact Lexeme.taken_ne_nil c cs (by simpa using htaken)

theorem pending_eq_nil_iff : r.pending = [] ↔ r.ahead = [] := by
  cases h : r.ahead with
  | nil => simp [pending, h, Token.scan]
  | cons c cs => simp [pending_cons h]

-- ============================================================ many calls

/-- Call by call, the tokens to come are handed out, and then the end token. -/
theorem call_eq (r : Cursor) (i : Nat) : r.call i = (r.pending[i]?).getD r.last := by
  unfold call
  induction i generalizing r with
  | zero =>
      cases h : r.ahead with
      | nil =>
          rw [pending_eq_nil_iff.mpr h]
          exact congrArg Prod.fst (next_of_done h)
      | cons c cs =>
          rw [pending_cons h]
          rfl
  | succ i ih =>
      show (r.next.2.skip i).next.1 = _
      rw [ih, last_next]
      cases h : r.ahead with
      | nil => rw [next_of_done h, pending_eq_nil_iff.mpr h]; rfl
      | cons c cs => rw [pending_cons h]; rfl

/-- A call takes something off what is ahead, so this is an induction. -/
theorem byCalls {motive : Cursor → Prop} (done : ∀ r, r.ahead = [] → motive r)
    (call : ∀ r c cs, r.ahead = c :: cs → motive r.next.2 → motive r) (r : Cursor) :
    motive r := by
  induction hlen : r.ahead.length using Nat.strongRecOn generalizing r with
  | _ len ih =>
      cases h : r.ahead with
      | nil => exact done r h
      | cons c cs =>
          refine call r c cs h (ih _ ?_ r.next.2 rfl)
          unfold next
          rw [← hlen]
          simp only [h]
          exact Nat.lt_succ_of_le (Lexeme.rest_length_le c cs)

/-- Every token to come takes something, and none of them is the end. -/
theorem of_mem_pending (r : Cursor) {t : Token} (ht : t ∈ r.pending) :
    t.kind ≠ .endOfText ∧ t.literal ≠ "" := by
  induction r using byCalls with
  | done r h =>
      rw [pending_eq_nil_iff.mpr h] at ht
      cases ht
  | call r c cs h ih =>
      rw [pending_cons h] at ht
      rcases List.mem_cons.mp ht with rfl | ht
      · exact next_of_ahead h
      · exact ih ht

/-- The tokens to come are what is ahead. -/
theorem flatMap_literal_pending (r : Cursor) :
    r.pending.flatMap (·.literal.toList) = r.ahead := by
  induction r using byCalls with
  | done r h => rw [pending_eq_nil_iff.mpr h, h, List.flatMap_nil]
  | call r c cs h ih =>
      rw [pending_cons h, List.flatMap_cons, ih]
      exact r.literal_append_ahead

end Cursor

-- ============================================================ whole texts

theorem join_literal_tokenize (source : Source) (text : String) :
    String.join ((tokenize source text).map (·.literal)) = text := by
  rw [← String.toList_inj, String.toList_join, List.flatMap_map, ← Cursor.pending_ofText,
    Cursor.flatMap_literal_pending]
  rfl

/-- There are no more tokens than characters: each takes one at least. -/
theorem length_le_length_flatMap {tokens : List Token} (h : ∀ t ∈ tokens, t.literal ≠ "") :
    tokens.length ≤ (tokens.flatMap (·.literal.toList)).length := by
  induction tokens with
  | nil => exact Nat.le_refl _
  | cons t tokens ih =>
      have hrest := ih fun u hu => h u (List.mem_cons_of_mem t hu)
      have hpos : 0 < t.literal.toList.length :=
        List.length_pos_iff.mpr fun hnil =>
          h t List.mem_cons_self (String.toList_eq_nil_iff.mp hnil)
      rw [List.flatMap_cons, List.length_append, List.length_cons]
      omega

-- ============================================================ bytes

namespace Token

theorem byteOffset_eq (tokens : List Token) (i : Nat) :
    byteOffset tokens i = (String.join ((tokens.take i).map (·.literal))).rawEndPos := by
  have hsum : ∀ l : List String, (l.map String.utf8ByteSize).sum = (String.join l).utf8ByteSize := by
    intro l
    induction l with
    | nil => rfl
    | cons s l ih => rw [List.map_cons, List.sum_cons, ih, String.join_cons,
        String.utf8ByteSize_append]
  have h := hsum ((tokens.take i).map (·.literal))
  rw [List.map_map] at h
  exact congrArg String.Pos.Raw.mk h

theorem extract_middle (before middle after : String) :
    (before ++ (middle ++ after)).toByteArray.extract before.utf8ByteSize
        (before.utf8ByteSize + middle.utf8ByteSize)
      = middle.toByteArray := by
  have hskip := ByteArray.extract_append_size_add (a := before.toByteArray)
    (b := (middle ++ after).toByteArray) (i := 0) (j := middle.toByteArray.size)
  rw [Nat.add_zero] at hskip
  rw [String.toByteArray_append, ← String.size_toByteArray, ← String.size_toByteArray, hskip,
    String.toByteArray_append, ByteArray.extract_append_eq_left rfl]

/-- The tokens of a text slice it: each stands behind the literals of those before it. -/
theorem slices_tokenize (source : Source) (text : String) :
    Slices (tokenize source text) text := by
  have hjoin := join_literal_tokenize source text
  generalize tokenize source text = tokens at hjoin
  refine ⟨fun i => ?_, fun i t ht => ?_⟩
  · refine String.Pos.Raw.isValid_iff_exists_append.mpr
      ⟨_, String.join ((tokens.drop i).map (·.literal)), ?_, byteOffset_eq tokens i⟩
    rw [← hjoin, ← String.join_append, ← List.map_append, List.take_append_drop]
  · obtain ⟨hi, hget⟩ := List.getElem?_eq_some_iff.mp ht
    have hcut : tokens = tokens.take i ++ t :: tokens.drop (i + 1) := by
      rw [← hget, ← List.drop_eq_getElem_cons hi, List.take_append_drop]
    have hliterals := congrArg (List.map (·.literal)) hcut
    rw [List.map_append, List.map_cons] at hliterals
    have hnext : (byteOffset tokens (i + 1)).byteIdx
        = (byteOffset tokens i).byteIdx + t.literal.utf8ByteSize := by
      unfold byteOffset
      rw [List.take_succ_eq_append_getElem hi, hget]
      simp
    rw [← hjoin, hnext, byteOffset_eq, hliterals, String.join_append, String.join_cons]
    exact extract_middle _ _ _

end Token

/-- Reading gives the tokens of a text one by one and then its end for ever; none of them is
empty, and their literals, cut between characters, make up the text. -/
theorem tokenize_lossless (source : Source) (text : String) :
    (∀ i, (Cursor.ofText source text).call i
        = ((tokenize source text)[i]?).getD (endToken source text))
      ∧ (tokenize source text).length ≤ text.length
      ∧ (∀ t ∈ tokenize source text, t.kind ≠ .endOfText ∧ t.literal ≠ "")
      ∧ (endToken source text).kind = .endOfText ∧ (endToken source text).literal = ""
      ∧ String.join ((tokenize source text).map (·.literal)) = text
      ∧ Token.Slices (tokenize source text) text := by
  have hmem : ∀ t ∈ tokenize source text, t.kind ≠ .endOfText ∧ t.literal ≠ "" :=
    fun t ht => (Cursor.ofText source text).of_mem_pending ht
  refine ⟨fun i => (Cursor.ofText source text).call_eq i, ?_, hmem, rfl, rfl,
    join_literal_tokenize source text, Token.slices_tokenize source text⟩
  have hlength := length_le_length_flatMap fun t ht => (hmem t ht).2
  rw [← Cursor.pending_ofText, Cursor.flatMap_literal_pending] at hlength
  exact String.length_toList ▸ hlength

end EventDocs
