import EventDocs.Proofs.Token.Lossless

/-
Texts are read line by line. No lexeme but a begin marker reaches over a line break, so the
tokens of a text that is followed by a line break are those of the text alone, and then those
of what follows (`Token.scan_append`). It rests on one lexeme at a time (`Lexeme.read_append`):
each reader stops in front of a line break, or has stopped before.

A begin marker takes its metadata with it, which ends at the line break all the same unless a
backslash stands in front of it (`Metadata.split_line`).

Where a text stands decides the places of its tokens and nothing else (`Token.map_kind_scan`).
-/

namespace EventDocs

-- ============================================================ line breaks

/-- What ends a line. -/
inductive LineEnd where
  | lf
  | crlf
deriving DecidableEq, Repr

/-- What stands in front of the line feed. -/
def LineEnd.carriage : LineEnd → List Char
  | lf => []
  | crlf => ['\r']

/-- The characters of a line end. -/
def LineEnd.chars (e : LineEnd) : List Char := e.carriage ++ ['\n']

/-- A text that is empty or starts with a character of a line break. -/
def StartsBroken (rest : List Char) : Prop := ∀ c ∈ rest.head?, c = '\n' ∨ c = '\r'

theorem LineEnd.startsBroken (e : LineEnd) (rest : List Char) : StartsBroken (e.chars ++ rest) := by
  intro c hc
  cases e with
  | lf => exact Or.inl (Option.some.inj hc).symm
  | crlf => exact Or.inr (Option.some.inj hc).symm

theorem LineEnd.eq_of_mem_carriage (e : LineEnd) {c : Char} (hc : c ∈ e.carriage) : c = '\r' := by
  cases e with
  | lf => cases hc
  | crlf => exact List.mem_singleton.mp hc

theorem LineEnd.isSome_of_mem_chars (e : LineEnd) :
    ∀ c ∈ e.chars, (Kind.ofWhite? c).isSome := by
  intro c hc
  rcases List.mem_append.mp hc with hc | hc
  · rw [e.eq_of_mem_carriage hc]
    rfl
  · rw [List.mem_singleton.mp hc]
    rfl

-- ============================================================ one lexeme

namespace Lexeme

/-- The same lexeme with more behind it. -/
def before (l : Lexeme) (rest : List Char) : Lexeme := { l with rest := l.rest ++ rest }

variable {rest : List Char} {p : Char → Bool} {cs : List Char}

/-- A run goes no further than what it cannot hold. -/
theorem takeWhile_append_of_stop (hstop : ∀ c ∈ rest.head?, p c = false) :
    (cs ++ rest).takeWhile p = cs.takeWhile p := by
  induction cs with
  | nil =>
      cases rest with
      | nil => rfl
      | cons d rest => exact List.takeWhile_cons_of_neg (by simpa using hstop d rfl)
  | cons c cs ih =>
      rw [List.cons_append, List.takeWhile_cons, List.takeWhile_cons, ih]

theorem dropWhile_append_of_stop (hstop : ∀ c ∈ rest.head?, p c = false) :
    (cs ++ rest).dropWhile p = cs.dropWhile p ++ rest := by
  induction cs with
  | nil =>
      cases rest with
      | nil => rfl
      | cons d rest => exact List.dropWhile_cons_of_neg (by simpa using hstop d rfl)
  | cons c cs ih =>
      rw [List.cons_append, List.dropWhile_cons, List.dropWhile_cons, ih]
      split
      · rfl
      · rfl

/-- A word without what `rest` starts with is found across the seam only if it is found in front
of it. -/
theorem isPrefixOf_append_of_stop {w : List Char} (hstop : ∀ c ∈ rest.head?, c ∉ w) :
    w.isPrefixOf (cs ++ rest) = w.isPrefixOf cs := by
  induction w generalizing cs with
  | nil => simp
  | cons a w ih =>
      cases cs with
      | nil =>
          cases rest with
          | nil => rfl
          | cons d rest =>
              have hne : a ≠ d := fun h => hstop d rfl (h ▸ List.mem_cons_self)
              simp [List.isPrefixOf, hne]
      | cons c cs =>
          rw [List.cons_append, List.isPrefixOf_cons_cons, List.isPrefixOf_cons_cons,
            ih fun c hc hw => hstop c hc (List.mem_cons_of_mem a hw)]

theorem startsWithEnd_eq (cs : List Char) :
    startsWithEnd cs = endWord.isPrefixOf (cs.map Char.toLower) := by
  rw [Bool.eq_iff_iff, List.isPrefixOf_iff_prefix, List.prefix_iff_eq_take, ← List.map_take,
    startsWithEnd, decide_eq_true_iff]
  exact eq_comm

theorem length_of_startsWithEnd (h : startsWithEnd cs = true) : endWord.length ≤ cs.length := by
  rw [startsWithEnd_eq, List.isPrefixOf_iff_prefix] at h
  simpa using h.length_le

section

variable (hrest : StartsBroken rest)
include hrest

theorem ofSlashes_append (hkind : (ofSlashes cs).kind ≠ .beginMarker) :
    ofSlashes (cs ++ rest) = (ofSlashes cs).before rest := by
  have hbegin : beginWord.isPrefixOf (cs ++ rest) = beginWord.isPrefixOf cs := by
    apply isPrefixOf_append_of_stop
    intro c hc
    rcases hrest c hc with rfl | rfl
    · decide
    · decide
  have hend : startsWithEnd (cs ++ rest) = startsWithEnd cs := by
    rw [startsWithEnd_eq, startsWithEnd_eq, List.map_append]
    apply isPrefixOf_append_of_stop
    intro c hc
    rw [List.head?_map] at hc
    obtain ⟨d, hd, rfl⟩ := Option.map_eq_some_iff.mp hc
    rcases hrest d hd with rfl | rfl
    · decide
    · decide
  unfold ofSlashes at hkind ⊢
  rw [hbegin, hend]
  by_cases hb : beginWord.isPrefixOf cs = true
  · rw [if_pos hb] at hkind
    exact absurd rfl hkind
  · rw [if_neg hb, if_neg hb]
    by_cases he : startsWithEnd cs = true
    · have hlen := length_of_startsWithEnd he
      rw [if_pos he, if_pos he, List.take_append_of_le_length hlen,
        List.drop_append_of_le_length hlen]
      rfl
    · rw [if_neg he, if_neg he]
      rfl

theorem ofComment_append (k : Kind) {delimiter : List Char}
    (hdelimiter : '\n' ∉ delimiter ∧ '\r' ∉ delimiter) (c : Char) (cs : List Char) :
    ofComment k delimiter c (cs ++ rest) = (ofComment k delimiter c cs).before rest := by
  have hfound : delimiter.isPrefixOf (c :: (cs ++ rest)) = delimiter.isPrefixOf (c :: cs) := by
    rw [← List.cons_append]
    apply isPrefixOf_append_of_stop
    intro d hd
    rcases hrest d hd with rfl | rfl
    · exact hdelimiter.1
    · exact hdelimiter.2
  have hspace : ∀ d ∈ rest.head?, decide (d = ' ') = false := by
    intro d hd
    rcases hrest d hd with rfl | rfl
    · rfl
    · rfl
  unfold ofComment
  rw [hfound]
  by_cases hd : delimiter.isPrefixOf (c :: cs) = true
  · have hlen := (List.isPrefixOf_iff_prefix.mp hd).length_le
    have hbehind : (c :: (cs ++ rest)).drop delimiter.length
        = (c :: cs).drop delimiter.length ++ rest := List.drop_append_of_le_length hlen
    rw [if_pos hd, if_pos hd, hbehind]
    simp only [takeWhile_append_of_stop hspace, dropWhile_append_of_stop hspace]
    rfl
  · rw [if_neg hd, if_neg hd]
    rfl

theorem ofText_append (c : Char) (cs : List Char) :
    ofText c (cs ++ rest) = (ofText c cs).before rest := by
  have hstop : ∀ d ∈ rest.head?, (!isBoundary d) = false := by
    intro d hd
    rcases hrest d hd with rfl | rfl
    · decide
    · decide
  unfold ofText
  rw [takeWhile_append_of_stop hstop, dropWhile_append_of_stop hstop]
  rfl

/-- What is read in front of a line break is not changed by what follows, unless it is a begin
marker. -/
theorem read_append {c : Char} (hkind : (read c cs).kind ≠ .beginMarker) :
    read c (cs ++ rest) = (read c cs).before rest := by
  unfold read at hkind ⊢
  by_cases hslash : c = '/'
  · rw [if_pos hslash] at hkind ⊢
    rw [if_pos hslash]
    cases cs with
    | nil =>
        -- a slash at the end of the text, and no second one behind the seam
        cases rest with
        | nil => rfl
        | cons d rest =>
            rcases hrest d rfl with rfl | rfl
            · rfl
            · rfl
    | cons d cs =>
        by_cases hd : d = '/'
        · subst hd
          exact ofSlashes_append hrest hkind
        · rw [List.cons_append]
          split
          · next h => exact absurd (List.cons.inj h).1 hd
          · split
            · next h => exact absurd (List.cons.inj h).1 hd
            · rfl
  · rw [if_neg hslash, if_neg hslash]
    by_cases hhash : c = '#'
    · rw [if_pos hhash, if_pos hhash]
      rfl
    · rw [if_neg hhash, if_neg hhash]
      by_cases hopen : c = '<'
      · rw [if_pos hopen, if_pos hopen]
        exact ofComment_append hrest .openComment (by decide) c cs
      · rw [if_neg hopen, if_neg hopen]
        by_cases hclose : c = '-'
        · rw [if_pos hclose, if_pos hclose]
          exact ofComment_append hrest .closeComment (by decide) c cs
        · rw [if_neg hclose, if_neg hclose]
          cases Kind.ofWhite? c with
          | some k => rfl
          | none =>
              dsimp only
              split
              · rfl
              · exact ofText_append hrest c cs

end

theorem read_beginMarker (cs : List Char) :
    read '/' ('/' :: (beginWord ++ cs))
      = ⟨.beginMarker, '/' :: '/' :: beginWord ++ (Metadata.split cs).literal,
          Text.trim (Metadata.split cs).captured, (Metadata.split cs).rest⟩ := rfl

theorem read_endMarker (cs : List Char) :
    read '/' ('/' :: (endWord ++ cs)) = ⟨.endMarker, '/' :: '/' :: endWord, [], cs⟩ := rfl

/-- White space is read one character at a time. -/
theorem read_white {c : Char} {k : Kind} (hc : Kind.ofWhite? c = some k) (cs : List Char) :
    read c cs = single k c cs := by
  have hne : c ≠ '/' ∧ c ≠ '#' ∧ c ≠ '<' ∧ c ≠ '-' := by
    refine ⟨?_, ?_, ?_, ?_⟩ <;> (rintro rfl; cases hc)
  unfold read
  rw [if_neg hne.1, if_neg hne.2.1, if_neg hne.2.2.1, if_neg hne.2.2.2, hc]

theorem ofSlashes_kind_isWhite (cs : List Char) : (ofSlashes cs).kind.isWhite = false := by
  unfold ofSlashes
  split
  · rfl
  · split
    · rfl
    · rfl

theorem ofComment_kind_isWhite {k : Kind} (hk : k.isWhite = false) (delimiter : List Char)
    (c : Char) (cs : List Char) : (ofComment k delimiter c cs).kind.isWhite = false := by
  unfold ofComment
  split
  · exact hk
  · rfl

/-- Nothing but white space is read as white space. -/
theorem read_kind_isWhite {c : Char} (hc : Kind.ofWhite? c = none) (cs : List Char) :
    (read c cs).kind.isWhite = false := by
  unfold read
  rw [hc]
  split
  · split
    · exact ofSlashes_kind_isWhite _
    · rfl
  · split
    · rfl
    · split
      · exact ofComment_kind_isWhite (k := .openComment) rfl opener c cs
      · split
        · exact ofComment_kind_isWhite (k := .closeComment) rfl closer c cs
        · dsimp only
          split
          · rfl
          · rfl

theorem eq_of_ofWhite? {c d : Char} {k : Kind} (hc : Kind.ofWhite? c = some k)
    (hd : Kind.ofWhite? d = some k) : c = d := by
  grind [Kind.ofWhite?]

theorem isWhite_of_ofWhite? {c : Char} {k : Kind} (h : Kind.ofWhite? c = some k) :
    k.isWhite = true := by
  unfold Kind.ofWhite? at h
  split_ifs at h <;> (rw [← Option.some.inj h]; rfl)

/-- Only the white space character of a kind is read as that kind. -/
theorem read_of_kind {c d : Char} {k : Kind} (hd : Kind.ofWhite? d = some k)
    (h : (read c cs).kind = k) : c = d ∧ read c cs = single k d cs := by
  cases hc : Kind.ofWhite? c with
  | none =>
      have hwhite := read_kind_isWhite hc cs
      rw [h, isWhite_of_ofWhite? hd] at hwhite
      cases hwhite
  | some k' =>
      rw [read_white hc] at h ⊢
      obtain rfl : k' = k := h
      obtain rfl := eq_of_ofWhite? hc hd
      exact ⟨rfl, rfl⟩

end Lexeme

-- ============================================================ metadata

/-- Metadata ends with its line, if the line does not end in a backslash. A carriage return in
front of the line feed is part of it. -/
theorem Metadata.split_line (e : LineEnd) {line : List Char}
    (hline : ∀ c ∈ line, c ≠ '\n' ∧ c ≠ '\r') (hlast : line.getLast? ≠ some '\\')
    (rest : List Char) :
    split (line ++ e.chars ++ rest)
      = ⟨line ++ e.carriage, line ++ e.carriage, '\n' :: rest⟩ := by
  induction line with
  | nil =>
      cases e with
      | lf => rfl
      | crlf => rfl
  | cons c line ih =>
      have htail : ∀ d ∈ line, d ≠ '\n' ∧ d ≠ '\r' :=
        fun d hd => hline d (List.mem_cons_of_mem c hd)
      -- a backslash has a character of the line behind it
      have hbehind : c = '\\' → ∃ d more, line = d :: more := by
        rintro rfl
        cases line with
        | nil => exact absurd rfl hlast
        | cons d more => exact ⟨d, more, rfl⟩
      have hescape : ∀ x : Char, x = '\n' ∨ x = '\r' → ∀ more, c = '\\' →
          line ++ e.chars ++ rest ≠ x :: more := by
        intro x hx more hc h
        obtain ⟨d, tail, rfl⟩ := hbehind hc
        have hd := htail d List.mem_cons_self
        obtain rfl : d = x := (List.cons.inj h).1
        rcases hx with rfl | rfl
        · exact hd.1 rfl
        · exact hd.2 rfl
      have hlast' : line.getLast? ≠ some '\\' := by
        intro h
        apply hlast
        cases line with
        | nil => cases h
        | cons d tail => rw [List.getLast?_cons_cons, h]
      rw [List.cons_append, List.cons_append, split.eq_5 _ _ (hline c List.mem_cons_self).1
        (fun more hc h => hescape _ (Or.inl rfl) _ hc h)
        (fun more hc h => hescape _ (Or.inr rfl) _ hc h), ih htail hlast']
      rfl

-- ============================================================ whole texts

theorem Kind.ofWhite?_newLine : ofWhite? '\n' = some .newLine := rfl

theorem Kind.ofWhite?_carriageReturn : ofWhite? '\r' = some .carriageReturn := rfl

namespace Token

variable {source : Source} {p : Position}

@[simp] theorem toList_literal_ofLexeme (source : Source) (p : Position) (l : Lexeme) :
    (ofLexeme source p l).literal.toList = l.taken :=
  String.toList_ofList

theorem scan_cons (c : Char) (cs : List Char) :
    scan source p (c :: cs) = ofLexeme source p (Lexeme.read c cs)
      :: scan source (p.after (Lexeme.read c cs).taken) (Lexeme.read c cs).rest := by
  rw [scan]

/-- Every token is one lexeme. -/
theorem exists_read_of_mem_scan {cs : List Char} {t : Token} (ht : t ∈ scan source p cs) :
    ∃ q c ds, t = ofLexeme source q (Lexeme.read c ds) := by
  fun_induction scan source p cs with
  | case1 => cases ht
  | case2 p c cs l ih =>
      rcases List.mem_cons.mp ht with rfl | ht
      · exact ⟨p, c, cs, rfl⟩
      · exact ih ht

theorem flatMap_literal_scan (source : Source) (p : Position) (cs : List Char) :
    (scan source p cs).flatMap (·.literal.toList) = cs :=
  Cursor.flatMap_literal_pending ⟨source, p, cs⟩

/-- Where a text stands is nothing to the kinds of its tokens. -/
theorem map_kind_scan (q : Position) (cs : List Char) :
    (scan source p cs).map (·.kind) = (scan source q cs).map (·.kind) := by
  fun_induction scan source p cs generalizing q with
  | case1 => rw [scan]
  | case2 p c cs l ih =>
      rw [scan_cons, List.map_cons, List.map_cons, ih]
      rfl

/-- The tokens of a text in front of a line break are those of the text alone. -/
theorem scan_append {cs rest : List Char} (hrest : StartsBroken rest)
    (hkind : ∀ t ∈ scan source p cs, t.kind ≠ .beginMarker) :
    scan source p (cs ++ rest) = scan source p cs ++ scan source (p.after cs) rest := by
  fun_induction scan source p cs with
  | case1 => rfl
  | case2 p c cs l ih =>
      have hread : Lexeme.read c (cs ++ rest) = l.before rest :=
        Lexeme.read_append hrest (hkind _ List.mem_cons_self)
      have hpos : p.after (c :: cs) = (p.after l.taken).after l.rest := by
        rw [← Position.after_append, Lexeme.taken_append_rest]
      rw [List.cons_append, scan_cons, hread, hpos, List.cons_append,
        ← ih fun t ht => hkind t (List.mem_cons_of_mem _ ht)]
      rfl

theorem scan_cons_white {c : Char} {k : Kind} (hc : Kind.ofWhite? c = some k) (cs : List Char) :
    scan source p (c :: cs)
      = ofLexeme source p (Lexeme.single k c cs) :: scan source (p.after [c]) cs := by
  rw [scan_cons, Lexeme.read_white hc]
  rfl

/-- White space has its own tokens, whatever follows. -/
theorem scan_append_of_white {cs : List Char} (hcs : ∀ c ∈ cs, (Kind.ofWhite? c).isSome)
    (rest : List Char) :
    scan source p (cs ++ rest) = scan source p cs ++ scan source (p.after cs) rest := by
  induction cs generalizing p with
  | nil =>
      rw [scan]
      rfl
  | cons c cs ih =>
      obtain ⟨k, hk⟩ := Option.isSome_iff_exists.mp (hcs c List.mem_cons_self)
      rw [List.cons_append, scan_cons_white hk, scan_cons_white hk, List.cons_append,
        ih fun d hd => hcs d (List.mem_cons_of_mem c hd)]
      rfl

/-- Each token of white space is one character. -/
theorem exists_ofWhite?_of_mem_scan {cs : List Char} (hcs : ∀ c ∈ cs, (Kind.ofWhite? c).isSome)
    {t : Token} (ht : t ∈ scan source p cs) : ∃ c ∈ cs, Kind.ofWhite? c = some t.kind := by
  induction cs generalizing p with
  | nil =>
      rw [scan] at ht
      cases ht
  | cons c cs ih =>
      obtain ⟨k, hk⟩ := Option.isSome_iff_exists.mp (hcs c List.mem_cons_self)
      rw [scan_cons_white hk] at ht
      rcases List.mem_cons.mp ht with rfl | ht
      · exact ⟨c, List.mem_cons_self, hk⟩
      · obtain ⟨d, hd, hkind⟩ := ih (fun d hd => hcs d (List.mem_cons_of_mem c hd)) ht
        exact ⟨d, List.mem_cons_of_mem c hd, hkind⟩

/-- A token of white space covers the one character that is of its kind. -/
theorem literal_of_white {cs : List Char} {t : Token} {d : Char} {k : Kind}
    (hd : Kind.ofWhite? d = some k) (ht : t ∈ scan source p cs) (hkind : t.kind = k) :
    t.literal = .ofList [d] := by
  obtain ⟨q, c, ds, rfl⟩ := exists_read_of_mem_scan ht
  obtain ⟨-, hread⟩ := Lexeme.read_of_kind hd hkind
  rw [hread]
  rfl

end Token

end EventDocs
