import EventDocs.Proofs.Text.Ascii
import EventDocs.Proofs.Token.Lossless
import EventDocs.Token.Bytes

/-
Reading the bytes of a text gives the tokens of the text, with their literals, metadata and
places, and no text is ever cut between the bytes of one character.

The reader of bytes and the reader of characters go side by side. Between two tokens the reader
of bytes stands in front of a whole character (`between`), and each of its readers takes it to
such a place again. Inside a character it stands only while it passes over metadata, and there
it stops at ASCII bytes; no byte of a longer character is one (`toUInt8_not_mem`).
-/

namespace EventDocs

open Utf8

-- ============================================================ statement vocabulary

namespace ByteCursor

/-- The reader after `i` calls of `next`, if none of them failed. -/
def skip? (r : ByteCursor) : Nat → Option ByteCursor
  | 0 => some r
  | i + 1 => r.next.bind fun call => call.2.skip? i

/-- The answer to call number `i` of `next`, counted from zero. -/
def call? (r : ByteCursor) (i : Nat) : Option Token :=
  (r.skip? i).bind fun behind => behind.next.map Prod.fst

end ByteCursor

-- ============================================================ places

namespace Position

theorem and_mask_iff (b : UInt8) : b &&& 0xC0 = 0x80 ↔ isTail b.toNat = true := by
  have hall : ∀ n : Fin 256, UInt8.ofNat n &&& 0xC0 = 0x80 ↔ isTail n = true := by
    decide +kernel
  have hb := hall ⟨b.toNat, b.toNat_lt⟩
  rwa [UInt8.ofNat_toNat] at hb

/-- The bytes that continue a character do not count. -/
theorem foldl_stepByte_tails {bs : Bytes} (h : ∀ t ∈ bs, isTail t.toNat = true) (p : Position) :
    bs.foldl stepByte p = p := by
  induction bs with
  | nil => rfl
  | cons b bs ih =>
      have hb := h b List.mem_cons_self
      have hbreak : b ≠ '\n'.toUInt8 := by
        rintro rfl
        cases hb
      rw [List.foldl_cons, stepByte, if_neg hbreak, if_neg (not_not.mpr ((and_mask_iff b).mpr hb))]
      exact ih fun t ht => h t (List.mem_cons_of_mem b ht)

/-- The bytes of a character move the place as the character does. -/
theorem foldl_stepByte_encodeChar (p : Position) (c : Char) :
    (encodeChar c).foldl stepByte p = p.step c := by
  obtain ⟨b, bs, hbytes, hlead, htail⟩ := exists_encodeChar c
  have hbreak : b = '\n'.toUInt8 ↔ c = '\n' := eq_toUInt8_iff hbytes (by decide)
  have hcount : b &&& 0xC0 ≠ 0x80 := by
    rw [ne_eq, and_mask_iff, hlead]
    exact Bool.false_ne_true
  rw [hbytes, List.foldl_cons, foldl_stepByte_tails htail, stepByte, step, if_pos hcount]
  simp only [hbreak]

theorem foldl_stepByte (p : Position) (cs : List Char) :
    (encodeChars cs).foldl stepByte p = p.after cs := by
  induction cs generalizing p with
  | nil => rfl
  | cons c cs ih =>
      rw [encodeChars_cons, List.foldl_append, foldl_stepByte_encodeChar, ih]
      rfl

end Position

-- ============================================================ moves

namespace ByteCursor

theorem peek_eq (r : ByteCursor) (n : Nat) : r.peek n = r.rest[n]? :=
  (List.getElem?_drop ..).symm

theorem advance_zero {r : ByteCursor} (h : r.pos ≤ r.input.length) : r.advance 0 = r := by
  unfold advance
  rw [Nat.add_zero, Nat.min_eq_left h]
  rfl

theorem advance_advance (r : ByteCursor) (m n : Nat) :
    (r.advance m).advance n = r.advance (m + n) := by
  have hpos : min (min (r.pos + m) r.input.length + n) r.input.length
      = min (r.pos + (m + n)) r.input.length := by omega
  unfold advance
  simp only [mk.injEq, true_and]
  refine ⟨hpos, ?_⟩
  rw [← List.foldl_append, List.take_add]
  exact congrArg (fun bs => (r.rest.take m ++ bs.take n).foldl _ r.position) (rest_advance r m)

/-- The reader that stands behind some characters and before others. -/
def between (source : Source) (p : Position) (before ahead : List Char) : ByteCursor :=
  ⟨source, encodeChars (before ++ ahead), (encodeChars before).length, p⟩

variable {source : Source} {p : Position}

theorem rest_between (before ahead : List Char) :
    (between source p before ahead).rest = encodeChars ahead := by
  unfold rest between
  rw [encodeChars_append, List.drop_left]

theorem peek_between (before ahead : List Char) (n : Nat) :
    (between source p before ahead).peek n = (encodeChars ahead)[n]? := by
  rw [peek_eq, rest_between]

theorem peek_between_iff {a : Char} (ha : a.toNat < 0x80) (before ahead : List Char) :
    (between source p before ahead).peek 0 = some a.toUInt8 ↔ ahead.head? = some a := by
  rw [peek_between]
  exact getElem?_encodeChars ha ahead

/-- By the length of whole characters the reader moves to behind them. -/
theorem advance_between (before passed ahead : List Char) :
    (between source p before (passed ++ ahead)).advance (encodeChars passed).length
      = between source (p.after passed) (before ++ passed) ahead := by
  have hlength : (encodeChars before).length + (encodeChars passed).length
      = (encodeChars (before ++ passed)).length := by
    rw [encodeChars_append, List.length_append]
  have hle : (encodeChars (before ++ passed)).length
      ≤ (encodeChars (before ++ (passed ++ ahead))).length := by
    rw [← List.append_assoc, encodeChars_append (before ++ passed), List.length_append]
    exact Nat.le_add_right _ _
  unfold advance
  rw [rest_between, encodeChars_append, List.take_left, between, between, mk.injEq]
  refine ⟨rfl, congrArg encodeChars (List.append_assoc _ _ _).symm, ?_,
    Position.foldl_stepByte p passed⟩
  show min ((encodeChars before).length + _) (encodeChars _).length = _
  rw [hlength, Nat.min_eq_left hle]

theorem advance_one {c : Char} (hc : c.toNat < 0x80) (before ahead : List Char) :
    (between source p before (c :: ahead)).advance 1
      = between source (p.step c) (before ++ [c]) ahead := by
  have h := @advance_between source p before [c] ahead
  rwa [encodeChars_cons, encodeChar_of_lt hc] at h

/-- What stands behind an offset is cut out whole. -/
theorem since?_between (before segment ahead : List Char) :
    (between source p (before ++ segment) ahead).since? (encodeChars before).length
      = some (.ofList segment) :=
  slice?_encodeChars before segment ahead

-- ============================================================ spaces and metadata

theorem skipSpaces_between (before ahead : List Char) :
    (between source p before ahead).skipSpaces
      = between source (p.after (ahead.takeWhile (· = ' '))) (before ++ ahead.takeWhile (· = ' '))
          (ahead.dropWhile (· = ' ')) := by
  have hpeek := @peek_between_iff source p ' ' (by decide) before ahead
  induction ahead generalizing p before with
  | nil =>
      rw [skipSpaces, dif_neg (mt hpeek.mp (by simp))]
      simp [Position.after]
  | cons c ahead ih =>
      by_cases hc : c = ' '
      · subst hc
        rw [skipSpaces, dif_pos (hpeek.mpr rfl), advance_one (by decide),
          ih _ (peek_between_iff (by decide) _ _)]
        simp [Position.after]
      · rw [skipSpaces, dif_neg (mt hpeek.mp (by simpa using hc))]
        simp [hc, Position.after]

/-- One round of the loop, with a byte ahead. -/
theorem passMetadata_eq {r : ByteCursor} {b : UInt8} (h : r.peek 0 = some b) (start : Nat)
    (captured : String) :
    r.passMetadata start captured
      = if b = '\n'.toUInt8 then some (start, captured, r)
        else if b = '\\'.toUInt8 ∧ r.peek 1 = some '\n'.toUInt8 then
          (r.since? start).bind fun segment =>
            (r.advance 2).passMetadata (r.advance 2).pos (captured ++ segment)
        else if b = '\\'.toUInt8 ∧ r.peek 1 = some '\r'.toUInt8 ∧ r.peek 2 = some '\n'.toUInt8 then
          (r.since? start).bind fun segment =>
            (r.advance 3).passMetadata (r.advance 3).pos (captured ++ segment)
        else (r.advance 1).passMetadata start captured := by
  rw [passMetadata]
  split
  · next hnone =>
    rw [h] at hnone
    cases hnone
  · next b' hsome =>
    obtain rfl := Option.some.inj (h.symm.trans hsome)
    rfl

/-- Bytes that are neither a line break nor a backslash are passed over. -/
theorem passMetadata_of_plain {r : ByteCursor} (hpos : r.pos ≤ r.input.length) {n : Nat}
    (hn : n ≤ r.rest.length)
    (hplain : ∀ b ∈ r.rest.take n, b ≠ '\n'.toUInt8 ∧ b ≠ '\\'.toUInt8) (start : Nat)
    (captured : String) :
    r.passMetadata start captured = (r.advance n).passMetadata start captured := by
  induction n generalizing r with
  | zero => rw [advance_zero hpos]
  | succ n ih =>
      obtain ⟨b, bs, hrest⟩ := List.exists_cons_of_length_pos (Nat.lt_of_lt_of_le n.succ_pos hn)
      rw [hrest, List.take_succ_cons] at hplain
      obtain ⟨⟨hbreak, hescape⟩, hplain⟩ := List.forall_mem_cons.mp hplain
      have hpeek : r.peek 0 = some b := by rw [peek_eq, hrest, List.getElem?_cons_zero]
      have hone : (r.advance 1).rest = bs := by rw [rest_advance, hrest, List.drop_one, List.tail_cons]
      have hstep : r.passMetadata start captured = (r.advance 1).passMetadata start captured := by
        rw [passMetadata_eq hpeek, if_neg hbreak, if_neg fun h => hescape h.1,
          if_neg fun h => hescape h.1]
      rw [hstep, Nat.add_comm, ← advance_advance]
      refine ih (Nat.min_le_right _ _) ?_ (hone ▸ hplain)
      rw [hone]
      simpa [hrest] using hn

/-- So is a whole character that is neither. -/
theorem passMetadata_between_of_plain {c : Char} (hbreak : c ≠ '\n') (hescape : c ≠ '\\')
    (before ahead : List Char) (start : Nat) (captured : String) :
    (between source p before (c :: ahead)).passMetadata start captured
      = (between source (p.step c) (before ++ [c]) ahead).passMetadata start captured := by
  have hmove := @advance_between source p before [c] ahead
  rw [encodeChars_cons, encodeChars_nil, List.append_nil] at hmove
  refine (passMetadata_of_plain (n := (encodeChar c).length) ?_ ?_ ?_ start captured).trans
    (congrArg (fun r => passMetadata r start captured) hmove)
  · show (encodeChars before).length ≤ (encodeChars (before ++ _)).length
    rw [encodeChars_append, List.length_append]
    exact Nat.le_add_right _ _
  · rw [rest_between, encodeChars_cons, List.length_append]
    exact Nat.le_add_right _ _
  · rw [rest_between, encodeChars_cons, List.take_left]
    intro b hb
    exact ⟨fun h => toUInt8_not_mem (by decide) hbreak (h ▸ hb),
      fun h => toUInt8_not_mem (by decide) hescape (h ▸ hb)⟩

/-- An escaped line break ends a segment, and the next one starts behind it. -/
theorem passMetadata_escaped {escaped : List Char}
    (h : escaped = ['\\', '\n'] ∨ escaped = ['\\', '\r', '\n']) (before segment cs : List Char)
    (captured : String) :
    (between source p (before ++ segment) (escaped ++ cs)).passMetadata (encodeChars before).length
        captured
      = (between source (p.after escaped) (before ++ segment ++ escaped) cs).passMetadata
          (encodeChars (before ++ segment ++ escaped)).length (captured ++ .ofList segment) := by
  have hmove := @advance_between source p (before ++ segment) escaped cs
  rcases h with rfl | rfl
  · have hbytes : encodeChars (['\\', '\n'] ++ cs)
        = '\\'.toUInt8 :: '\n'.toUInt8 :: encodeChars cs := rfl
    rw [passMetadata_eq (by rw [peek_between, hbytes]; rfl), if_neg (by decide),
      if_pos ⟨rfl, by rw [peek_between, hbytes]; rfl⟩, since?_between, Option.bind_some]
    exact congrArg (fun r : ByteCursor => r.passMetadata r.pos _) hmove
  · have hbytes : encodeChars (['\\', '\r', '\n'] ++ cs)
        = '\\'.toUInt8 :: '\r'.toUInt8 :: '\n'.toUInt8 :: encodeChars cs := rfl
    have hreturn : (between source p (before ++ segment) (['\\', '\r', '\n'] ++ cs)).peek 1
        = some '\r'.toUInt8 := by rw [peek_between, hbytes]; rfl
    rw [passMetadata_eq (by rw [peek_between, hbytes]; rfl), if_neg (by decide),
      if_neg (by rw [hreturn]; decide), if_pos ⟨rfl, hreturn, by rw [peek_between, hbytes]; rfl⟩,
      since?_between, Option.bind_some]
    exact congrArg (fun r : ByteCursor => r.passMetadata r.pos _) hmove

/-- A backslash that escapes no line break is passed over. -/
theorem passMetadata_backslash {cs : List Char} (hlf : ∀ ds, cs ≠ '\n' :: ds)
    (hcrlf : ∀ ds, cs ≠ '\r' :: '\n' :: ds) (before : List Char) (start : Nat)
    (captured : String) :
    (between source p before ('\\' :: cs)).passMetadata start captured
      = (between source (p.step '\\') (before ++ ['\\']) cs).passMetadata start captured := by
  have hbytes : encodeChars ('\\' :: cs) = '\\'.toUInt8 :: encodeChars cs := rfl
  have hfirst {a : Char} (ha : a.toNat < 0x80)
      (h : (between source p before ('\\' :: cs)).peek 1 = some a.toUInt8) :
      ∃ ds, cs = a :: ds := by
    rw [peek_between, hbytes, List.getElem?_cons_succ] at h
    exact exists_cons_of_getElem? ha h
  rw [passMetadata_eq (by rw [peek_between, hbytes]; rfl), if_neg (by decide), if_neg, if_neg,
    advance_one (by decide)]
  · rintro ⟨-, hreturn, hbreak⟩
    obtain ⟨ds, rfl⟩ := hfirst (by decide) hreturn
    rw [peek_between] at hbreak
    have hsecond : (encodeChars ds)[0]? = some '\n'.toUInt8 := hbreak
    obtain ⟨es, rfl⟩ := exists_cons_of_getElem? (by decide) hsecond
    exact hcrlf es rfl
  · rintro ⟨-, hbreak⟩
    obtain ⟨ds, hds⟩ := hfirst (by decide) hbreak
    exact hlf ds hds

/-- The loop ends in front of the rest, with a last segment that is not captured yet. -/
theorem exists_passMetadata (source : Source) (cs : List Char) :
    ∀ (p : Position) (before segment : List Char) (captured : String),
      ∃ before' segment' captured',
        (between source p (before ++ segment) cs).passMetadata (encodeChars before).length captured
            = some ((encodeChars before').length, captured',
                between source (p.after (Metadata.split cs).literal) (before' ++ segment')
                  (Metadata.split cs).rest)
          ∧ before' ++ segment' = before ++ segment ++ (Metadata.split cs).literal
          ∧ captured'.toList ++ segment'
            = captured.toList ++ segment ++ (Metadata.split cs).captured := by
  fun_induction Metadata.split cs with
  | case1 =>
      intro p before segment captured
      refine ⟨before, segment, captured, ?_, by simp, by simp⟩
      rw [passMetadata]
      split
      · rfl
      · next b h =>
        rw [peek_between, encodeChars_nil] at h
        cases h
  | case2 cs =>
      intro p before segment captured
      refine ⟨before, segment, captured, ?_, by simp, by simp⟩
      rw [passMetadata_eq ((peek_between_iff (by decide) _ _).mpr rfl), if_pos rfl]
      rfl
  | case3 cs m ih =>
      intro p before segment captured
      obtain ⟨before', segment', captured', hrun, hchars, hcaptured⟩ :=
        ih (p.after ['\\', '\n']) (before ++ segment ++ ['\\', '\n']) []
          (captured ++ .ofList segment)
      rw [List.append_nil] at hrun
      refine ⟨before', segment', captured', ?_, by simpa using hchars, by simpa using hcaptured⟩
      exact (passMetadata_escaped (Or.inl rfl) before segment cs captured).trans hrun
  | case4 cs m ih =>
      intro p before segment captured
      obtain ⟨before', segment', captured', hrun, hchars, hcaptured⟩ :=
        ih (p.after ['\\', '\r', '\n']) (before ++ segment ++ ['\\', '\r', '\n']) []
          (captured ++ .ofList segment)
      rw [List.append_nil] at hrun
      refine ⟨before', segment', captured', ?_, by simpa using hchars, by simpa using hcaptured⟩
      exact (passMetadata_escaped (Or.inr rfl) before segment cs captured).trans hrun
  | case5 c cs hbreak hlf hcrlf m ih =>
      intro p before segment captured
      obtain ⟨before', segment', captured', hrun, hchars, hcaptured⟩ :=
        ih (p.step c) before (segment ++ [c]) captured
      rw [← List.append_assoc] at hrun
      refine ⟨before', segment', captured', ?_, by simpa using hchars, by simpa using hcaptured⟩
      refine Eq.trans ?_ hrun
      by_cases hescape : c = '\\'
      · subst hescape
        exact passMetadata_backslash (fun ds h => hlf ds rfl h) (fun ds h => hcrlf ds rfl h) _ _ _
      · exact passMetadata_between_of_plain (fun h => hbreak h) hescape _ _ _ _

/-- Of the metadata everything is captured but the escaped line breaks. -/
theorem readMetadata_between (before cs : List Char) :
    (between source p before cs).readMetadata
      = some (.ofList (Text.trim (Metadata.split cs).captured),
          between source (p.after (Metadata.split cs).literal)
            (before ++ (Metadata.split cs).literal) (Metadata.split cs).rest) := by
  obtain ⟨before', segment', captured', hrun, hchars, hcaptured⟩ :=
    exists_passMetadata source cs p before [] ""
  rw [List.append_nil] at hrun hchars
  have hwhole : (captured' ++ .ofList segment').toList = (Metadata.split cs).captured := by
    rw [String.toList_append, String.toList_ofList]
    exact hcaptured
  unfold readMetadata
  show (passMetadata _ (encodeChars before).length "").bind _ = _
  rw [hrun, Option.bind_some]
  show (since? _ (encodeChars before').length).bind _ = _
  rw [since?_between, Option.bind_some, hwhole, hchars]
  rfl

-- ============================================================ one token

/-- Kind and metadata of a lexeme, and the reader behind it. -/
def afterLexeme (source : Source) (p : Position) (before : List Char) (l : Lexeme) :
    Kind × String × ByteCursor :=
  (l.kind, .ofList l.metadata, between source (p.after l.taken) (before ++ l.taken) l.rest)

theorem lt_of_mem_endWord : ∀ a ∈ Lexeme.endWord, a.toNat < 0x80 := by
  simp [Lexeme.endWord]

theorem startsWithEnd_iff (cs : List Char) :
    endWord.length ≤ (encodeChars cs).length
        ∧ ((encodeChars cs).take endWord.length).map lowerByte = endWord.map lowerByte
      ↔ Lexeme.startsWithEnd cs = true := by
  have hword := map_lowerByte_take lt_of_mem_endWord cs
  have hlower : endWord.map lowerByte = encodeChars Lexeme.endWord := rfl
  rw [hlower, show endWord.length = Lexeme.endWord.length from rfl, hword, Lexeme.startsWithEnd,
    decide_eq_true_iff]
  refine ⟨fun h => h.2, fun h => ⟨?_, h⟩⟩
  have hlength := congrArg List.length (hword.mpr h)
  have hseven : (encodeChars Lexeme.endWord).length = Lexeme.endWord.length := rfl
  rw [List.length_map, List.length_take, hseven] at hlength
  omega

/-- Whatever is the end word in lower case has as many bytes as characters. -/
theorem length_encodeChars_take {cs : List Char} (h : Lexeme.startsWithEnd cs = true) :
    (encodeChars (cs.take Lexeme.endWord.length)).length = endWord.length := by
  have hlower := decide_eq_true_iff.mp h
  have hascii : ∀ c ∈ cs.take Lexeme.endWord.length, c.toNat < 0x80 := by
    intro c hc
    by_contra hnot
    apply hnot
    rw [← toLower_of_not_lt hnot]
    exact lt_of_mem_endWord _ (hlower ▸ List.mem_map_of_mem hc)
  rw [length_encodeChars_of_lt hascii, ← List.length_map Char.toLower, hlower]
  rfl

theorem readSlash_between_pair (before cs : List Char) :
    (between source p before ('/' :: '/' :: cs)).readSlash
      = some (afterLexeme source p before (Lexeme.ofSlashes cs)) := by
  have hrest : (between source p before ('/' :: '/' :: cs)).rest.drop 2 = encodeChars cs := by
    rw [rest_between]
    rfl
  have hword : ∀ a ∈ Lexeme.beginWord, a.toNat < 0x80 := by simp [Lexeme.beginWord]
  have hbegin : beginWord.isPrefixOf (encodeChars cs) = Lexeme.beginWord.isPrefixOf cs :=
    isPrefixOf_encodeChars hword cs
  have hmove {passed ahead : List Char} (h : passed ++ ahead = cs) :
      (between source p before ('/' :: '/' :: cs)).advance (2 + (encodeChars passed).length)
        = between source (p.after ('/' :: '/' :: passed)) (before ++ '/' :: '/' :: passed)
            ahead := by
    rw [Nat.add_comm, ← h]
    exact advance_between before ('/' :: '/' :: passed) ahead
  unfold readSlash Lexeme.ofSlashes
  rw [if_neg (not_not.mpr (by rw [peek_between]; rfl)), hrest]
  dsimp only
  rw [hbegin]
  by_cases hopens : Lexeme.beginWord.isPrefixOf cs = true
  · obtain ⟨ds, hds⟩ := List.isPrefixOf_iff_prefix.mp hopens
    rw [if_pos hopens, if_pos hopens, show beginWord = encodeChars Lexeme.beginWord from rfl,
      hmove hds, readMetadata_between, ← hds, List.drop_left]
    simp only [Option.bind_eq_bind, Option.bind_some, afterLexeme, Position.after, List.foldl_cons,
      List.foldl_append, List.append_assoc, List.cons_append]
    rfl
  · rw [if_neg hopens, if_neg hopens]
    by_cases hends : Lexeme.startsWithEnd cs = true
    · rw [if_pos ((startsWithEnd_iff cs).mpr hends), if_pos hends,
        ← length_encodeChars_take hends, hmove (List.take_append_drop _ cs)]
      rfl
    · rw [if_neg (mt (startsWithEnd_iff cs).mp hends), if_neg hends]
      exact congrArg (fun r => some (Kind.doubleSlash, "", r)) (hmove (List.nil_append cs))

theorem readSlash_between_single {cs : List Char} (h : ∀ ds, cs ≠ '/' :: ds)
    (before : List Char) :
    (between source p before ('/' :: cs)).readSlash
      = some (afterLexeme source p before (Lexeme.single .slash '/' cs)) := by
  unfold readSlash
  rw [if_pos, advance_one (by decide)]
  · rfl
  · rw [peek_between]
    intro hsecond
    obtain ⟨ds, hds⟩ := exists_cons_of_getElem? (by decide) hsecond
    exact h ds hds

theorem readComment_between {delimiter : List Char} (hd : ∀ a ∈ delimiter, a.toNat < 0x80)
    {c : Char} (hc : c.toNat < 0x80) (k : Kind) (before cs : List Char) :
    (between source p before (c :: cs)).readComment (encodeChars delimiter) k
      = afterLexeme source p before (Lexeme.ofComment k delimiter c cs) := by
  unfold readComment Lexeme.ofComment
  rw [rest_between, isPrefixOf_encodeChars hd]
  by_cases hopens : delimiter.isPrefixOf (c :: cs) = true
  · obtain ⟨ds, hds⟩ := List.isPrefixOf_iff_prefix.mp hopens
    rw [if_pos hopens, if_pos hopens, ← hds, advance_between, skipSpaces_between, List.drop_left]
    simp only [afterLexeme, Position.after_append, List.append_assoc]
  · rw [if_neg hopens, if_neg hopens, advance_one hc]
    rfl

-- ============================================================ runs of text

theorem isBoundary_toUInt8 {c : Char} (h : c.toNat < 0x80) :
    isBoundary c.toUInt8 = Lexeme.isBoundary c :=
  ascii_of_forall (motive := fun c => isBoundary c.toUInt8 = Lexeme.isBoundary c)
    (by decide +kernel) h

/-- No byte of a longer character stops a run of text, and nor does the character. -/
theorem isBoundary_of_le {b : UInt8} (h : 0x80 ≤ b.toNat) : isBoundary b = false := by
  have hall : ∀ n : Fin 256, 0x80 ≤ n.val → isBoundary (.ofNat n) = false := by decide +kernel
  have hb := hall ⟨b.toNat, b.toNat_lt⟩ h
  rwa [UInt8.ofNat_toNat] at hb

theorem isBoundary_of_not_lt {c : Char} (h : ¬ c.toNat < 0x80) : Lexeme.isBoundary c = false := by
  have hvisible : ¬ c.toNat ≤ 0x20 := by omega
  unfold Lexeme.isBoundary
  simp (disch := decide) [ne_of_not_lt h, hvisible]

/-- The first byte that stops a run is the first character that does. -/
theorem findIdx_isBoundary (cs : List Char) :
    (encodeChars cs).findIdx isBoundary
      = (encodeChars (cs.takeWhile (!Lexeme.isBoundary ·))).length := by
  induction cs with
  | nil => rfl
  | cons c cs ih =>
      by_cases hstop : Lexeme.isBoundary c = true
      · have hc : c.toNat < 0x80 := by
          by_contra hnot
          rw [isBoundary_of_not_lt hnot] at hstop
          cases hstop
        rw [encodeChars_cons_of_lt hc, List.findIdx_cons, isBoundary_toUInt8 hc, hstop]
        simp [hstop, encodeChars_nil]
      · have hpass : ∀ b ∈ encodeChar c, isBoundary b = false := by
          intro b hb
          by_cases hc : c.toNat < 0x80
          · rw [encodeChar_of_lt hc, List.mem_singleton] at hb
            rw [hb, isBoundary_toUInt8 hc]
            exact Bool.eq_false_iff.mpr hstop
          · exact isBoundary_of_le (le_of_mem_encodeChar hc hb)
        rw [encodeChars_cons, List.findIdx_append, List.findIdx_eq_length_of_false hpass,
          if_neg (Nat.lt_irrefl _), ih, List.takeWhile_cons_of_pos (by simpa using hstop),
          encodeChars_cons, List.length_append, Nat.add_comm]

theorem readText_between {c : Char} (h : Lexeme.isBoundary c = false) (before cs : List Char) :
    (between source p before (c :: cs)).readText
      = between source (p.after (Lexeme.ofText c cs).taken) (before ++ (Lexeme.ofText c cs).taken)
          (Lexeme.ofText c cs).rest := by
  have hrun : (c :: cs).takeWhile (!Lexeme.isBoundary ·) = (Lexeme.ofText c cs).taken :=
    List.takeWhile_cons_of_pos (by rw [h]; rfl)
  have hwhole : (Lexeme.ofText c cs).taken ++ (Lexeme.ofText c cs).rest = c :: cs :=
    congrArg (c :: ·) (List.takeWhile_append_dropWhile ..)
  have hsome : 1 ≤ (encodeChars (Lexeme.ofText c cs).taken).length := by
    obtain ⟨b, bs, hbytes, -⟩ := exists_encodeChar c
    show 1 ≤ (encodeChars (c :: _)).length
    rw [encodeChars_cons, hbytes]
    exact Nat.succ_le_succ (Nat.zero_le _)
  unfold readText
  rw [rest_between, findIdx_isBoundary, hrun, Nat.max_eq_left hsome, ← hwhole]
  exact advance_between before _ _

-- ============================================================ whole texts

theorem lt_space_iff {c : Char} {b : UInt8} {bs : Bytes} (hbytes : encodeChar c = b :: bs) :
    b < 0x20 ↔ c.toNat < 0x20 := by
  rw [UInt8.lt_iff_toNat_lt]
  by_cases hc : c.toNat < 0x80
  · obtain ⟨rfl, -⟩ := List.cons.inj (hbytes.symm.trans (encodeChar_of_lt hc))
    rw [toNat_toUInt8 hc]
    rfl
  · have hb := le_of_mem_encodeChar hc (hbytes ▸ List.mem_cons_self)
    show b.toNat < 32 ↔ _
    omega

theorem ofWhiteByte?_eq {c : Char} {b : UInt8} {bs : Bytes} (hbytes : encodeChar c = b :: bs) :
    Kind.ofWhiteByte? b = Kind.ofWhite? c := by
  unfold Kind.ofWhiteByte? Kind.ofWhite?
  rw [show (0x0C : UInt8) = '\x0c'.toUInt8 from rfl]
  simp (disch := decide) only [eq_toUInt8_iff hbytes]

theorem lt_of_ofWhite? {c : Char} {k : Kind} (h : Kind.ofWhite? c = some k) : c.toNat < 0x80 := by
  by_contra hnot
  unfold Kind.ofWhite? at h
  simp (disch := decide) only [ne_of_not_lt hnot, if_false] at h
  cases h

/-- What is neither told apart by itself nor white space nor illegal starts a run of text. -/
theorem isBoundary_eq_false {c : Char} (hslash : c ≠ '/') (hhash : c ≠ '#') (hopener : c ≠ '<')
    (hcloser : c ≠ '-') (hk : Kind.ofWhite? c = none) (hillegal : ¬ c.toNat < 0x20) :
    Lexeme.isBoundary c = false := by
  have hspace : c ≠ ' ' := by
    rintro rfl
    cases hk
  have hvisible : ¬ c.toNat ≤ 0x20 := by
    intro hle
    exact hspace (Char.toNat_inj.mp (show c.toNat = 0x20 by omega))
  simp [Lexeme.isBoundary, hslash, hhash, hopener, hcloser, hvisible]

/-- One lexeme at a time, both readers take the same. -/
theorem read_between (before : List Char) (c : Char) (cs : List Char) :
    (between source p before (c :: cs)).read = some (afterLexeme source p before (Lexeme.read c cs)) := by
  obtain ⟨b, bs, hbytes, -⟩ := exists_encodeChar c
  have hpeek : (between source p before (c :: cs)).peek 0 = some b := by
    rw [peek_between, encodeChars_cons, hbytes]
    rfl
  have hone {k : Kind} (hc : c.toNat < 0x80) :
      some (k, "", (between source p before (c :: cs)).advance 1)
        = some (afterLexeme source p before (Lexeme.single k c cs)) := by
    rw [advance_one hc]
    rfl
  unfold read Lexeme.read
  rw [hpeek]
  dsimp only
  simp (disch := decide) only [eq_toUInt8_iff hbytes, ofWhiteByte?_eq hbytes, lt_space_iff hbytes]
  by_cases hslash : c = '/'
  · subst hslash
    rw [if_pos rfl, if_pos rfl]
    split
    · exact readSlash_between_pair before _
    · next hsingle => exact readSlash_between_single hsingle before
  rw [if_neg hslash, if_neg hslash]
  by_cases hhash : c = '#'
  · subst hhash
    rw [if_pos rfl, if_pos rfl]
    exact hone (by decide)
  rw [if_neg hhash, if_neg hhash]
  by_cases hopener : c = '<'
  · subst hopener
    rw [if_pos rfl, if_pos rfl]
    have hword : ∀ a ∈ Lexeme.opener, a.toNat < 0x80 := by simp [Lexeme.opener]
    exact congrArg some (readComment_between hword (by decide) .openComment before cs)
  rw [if_neg hopener, if_neg hopener]
  by_cases hcloser : c = '-'
  · subst hcloser
    rw [if_pos rfl, if_pos rfl]
    have hword : ∀ a ∈ Lexeme.closer, a.toNat < 0x80 := by simp [Lexeme.closer]
    exact congrArg some (readComment_between hword (by decide) .closeComment before cs)
  rw [if_neg hcloser, if_neg hcloser]
  cases hk : Kind.ofWhite? c with
  | some k => exact hone (lt_of_ofWhite? hk)
  | none =>
      by_cases hillegal : c.toNat < 0x20
      · dsimp only
        rw [if_pos hillegal, if_pos hillegal]
        exact hone (by omega)
      · have hrun := isBoundary_eq_false hslash hhash hopener hcloser hk hillegal
        dsimp only
        rw [if_neg hillegal, if_neg hillegal, readText_between hrun]
        rfl

theorem next_between_nil (before : List Char) :
    (between source p before []).next = some (.atEnd source p, between source p before []) := by
  have hread : (between source p before []).read
      = some (.endOfText, "", between source p before []) := by
    unfold read
    rw [peek_between]
    rfl
  have hslice := @since?_between source p before [] []
  rw [List.append_nil] at hslice
  unfold next
  rw [hread]
  show (since? _ (encodeChars before).length).bind _ = _
  rw [hslice]
  rfl

theorem next_between_cons (before : List Char) (c : Char) (cs : List Char) :
    (between source p before (c :: cs)).next
      = some (.ofLexeme source p (Lexeme.read c cs),
          between source (p.after (Lexeme.read c cs).taken) (before ++ (Lexeme.read c cs).taken)
            (Lexeme.read c cs).rest) := by
  unfold next
  rw [read_between]
  unfold afterLexeme
  show (since? _ (encodeChars before).length).bind _ = _
  rw [since?_between]
  rfl

theorem tokens_of_end {r r' : ByteCursor} {t : Token} (h : r.next = some (t, r'))
    (ht : t.kind = .endOfText) : r.tokens = some [] := by
  rw [tokens]
  split
  · next hnone =>
    rw [h] at hnone
    cases hnone
  · next hsome =>
    rw [h] at hsome
    cases hsome
    rw [dif_pos ht]

theorem tokens_of_next {r r' : ByteCursor} {t : Token} (h : r.next = some (t, r'))
    (ht : t.kind ≠ .endOfText) : r.tokens = r'.tokens.map (t :: ·) := by
  rw [tokens]
  split
  · next hnone =>
    rw [h] at hnone
    cases hnone
  · next hsome =>
    rw [h] at hsome
    cases hsome
    rw [dif_neg ht]
    cases r'.tokens <;> rfl

/-- Call by call, both readers answer the same. -/
theorem next_between (r : Cursor) (before : List Char) :
    ∃ before', (between r.source r.position before r.ahead).next
      = some (r.next.1, between r.next.2.source r.next.2.position before' r.next.2.ahead) := by
  obtain ⟨source, p, ahead⟩ := r
  cases ahead with
  | nil => exact ⟨before, next_between_nil before⟩
  | cons c cs => exact ⟨_, next_between_cons before c cs⟩

theorem call?_between (r : Cursor) (before : List Char) (i : Nat) :
    (between r.source r.position before r.ahead).call? i = some (r.call i) := by
  induction i generalizing r before with
  | zero =>
      obtain ⟨before', hnext⟩ := next_between r before
      show (next _).map Prod.fst = _
      rw [hnext]
      rfl
  | succ i ih =>
      obtain ⟨before', hnext⟩ := next_between r before
      show ((next _).bind fun call => call.2.skip? i).bind _ = _
      rw [hnext]
      exact ih r.next.2 before'

theorem tokens_between (r : Cursor) (before : List Char) :
    (between r.source r.position before r.ahead).tokens = some r.pending := by
  induction r using Cursor.byCalls generalizing before with
  | done r h =>
      obtain ⟨before', hnext⟩ := next_between r before
      rw [Cursor.next_of_done h] at hnext
      rw [Cursor.pending_eq_nil_iff.mpr h, tokens_of_end hnext rfl]
  | call r c cs h ih =>
      obtain ⟨before', hnext⟩ := next_between r before
      rw [Cursor.pending_cons h, tokens_of_next hnext (Cursor.next_of_ahead h).1, ih before']
      rfl

/-- Reading the bytes of a text never cuts a character, and gives the tokens of the text one by
one and then its end for ever. -/
theorem reads_encode (source : Source) (text : String) :
    (ofBytes source (encode text)).tokens = some (tokenize source text)
      ∧ ∀ i, (ofBytes source (encode text)).call? i
        = some (((tokenize source text)[i]?).getD (endToken source text)) := by
  have hstart : ofBytes source (encode text) = between source .start [] text.toList := rfl
  rw [hstart]
  exact ⟨tokens_between (.ofText source text) [], fun i =>
    (call?_between (.ofText source text) [] i).trans
      (congrArg some ((Cursor.ofText source text).call_eq i))⟩

end ByteCursor

end EventDocs
