import EventDocs.Proofs.Block.Outcomes
import EventDocs.Proofs.Expansion.Substitution
import EventDocs.Proofs.Text.Blanks
import EventDocs.Proofs.Token.Lines

/-
What an author writes between two markers is what is captured, character by character.

The body of a block is rebuilt from tokens, and those are trimmed at both ends: the line break
behind the begin marker goes, and at the end marker the blanks, one comment delimiter, the
blanks before it, and one line break. All of that is layout and none of it text, because line
breaks are tokens of their own (`Token.scan_append`): what the trimming meets first, coming from
either end, is the layout (`Body.trim_layout`), and with the line break it stops.

The metadata lose nothing either. They have the closing of a comment and a carriage return
behind them, which add no word that counts (`Label.parse_trim`).
-/

namespace EventDocs

-- ============================================================ statement vocabulary

/-- How the two markers of a block stand in their lines. -/
inductive Wrapping where
  | bare
  /-- Each in a markup comment of its own. -/
  | comment
deriving DecidableEq, Repr

/-- The text in front of a marker. -/
def Wrapping.opening : Wrapping → String
  | bare => ""
  | comment => "<!-- "

/-- The text behind a marker. -/
def Wrapping.closing : Wrapping → String
  | bare => ""
  | comment => " -->"

/-- A block as an author writes it. -/
structure Manuscript where
  wrapping : Wrapping
  lineEnd : LineEnd
  /-- In front of the line of the begin marker. -/
  beginIndent : String
  metadata : String
  body : String
  /-- In front of the line of the end marker. -/
  endIndent : String
deriving DecidableEq, Repr

namespace Manuscript

/-- A line with a marker, without its end. -/
def line (m : Manuscript) (marker : String) : String :=
  m.wrapping.opening ++ marker ++ m.wrapping.closing

/-- The text of the file. -/
def text (m : Manuscript) : String :=
  m.beginIndent ++ m.line ("//+gendoc " ++ m.metadata) ++ .ofList m.lineEnd.chars
    ++ m.body ++ .ofList m.lineEnd.chars
    ++ m.endIndent ++ m.line "//-gendoc"

/-- Characters to indent with. -/
def blanks : List Char := [' ', '\t', '\x0c']

/-- What an author may write where, if it is to be captured. -/
structure Plain (source : Source) (m : Manuscript) : Prop where
  beginIndent : ∀ c ∈ m.beginIndent.toList, c ∈ blanks
  endIndent : ∀ c ∈ m.endIndent.toList, c ∈ blanks
  /-- No control characters in the metadata. -/
  metadata : ∀ c ∈ m.metadata.toList, 0x20 ≤ c.toNat ∧ c.toNat ≠ 0x7F
  /-- The metadata do not go on in the next line. -/
  unescaped : m.metadata.toList.getLast? ≠ some '\\'
  /-- No marker is read in the body. -/
  unmarked : ∀ t ∈ tokenize source m.body, t.kind.isMarker = false
  /-- No reference stands in the body. -/
  constant : '$' ∉ m.body.toList
  /-- The body does not end in a part of another line end. -/
  unbroken : m.lineEnd = .lf → m.body.toList.getLast? ≠ some '\r'

end Manuscript

-- ============================================================ metadata

/-- The closing of a comment and a carriage return add nothing to the metadata. -/
theorem Label.parse_trim (w : Wrapping) (e : LineEnd) (metadata : String) :
    Label.parse (.ofList (Text.trim (' ' :: metadata.toList ++ w.closing.toList ++ e.carriage)))
      = Label.parse metadata := by
  have hreturn : ∀ c ∈ e.carriage, Text.isWhite c = true := by
    intro c hc
    rw [e.eq_of_mem_carriage hc]
    rfl
  have hwords : Text.words (' ' :: metadata.toList ++ w.closing.toList ++ e.carriage)
      = Text.words metadata.toList ++ Text.words w.closing.toList := by
    have hspace : ∀ xs, Text.words (' ' :: xs) = Text.words xs :=
      fun xs => Text.words_append_cons rfl [] xs
    rw [Text.words_append_of_white_right hreturn, List.cons_append, hspace]
    cases w with
    | bare =>
        show Text.words (metadata.toList ++ []) = Text.words metadata.toList ++ []
        rw [List.append_nil, List.append_nil]
    | comment => exact Text.words_append_cons rfl metadata.toList ['-', '-', '>']
  have hclosing : (Text.words w.closing.toList).filter (!Tag.closesComment ·) = [] := by
    cases w with
    | bare => rfl
    | comment => decide
  unfold Label.parse Label.tags
  rw [String.toList_ofList, Text.words_trim, hwords, List.filter_append, hclosing, List.append_nil]

/-- Metadata without control characters are legal. -/
theorem firstIllegal?_trim {cs : List Char}
    (hcs : ∀ c ∈ cs, c = '\r' ∨ 0x20 ≤ c.toNat ∧ c.toNat ≠ 0x7F) :
    firstIllegal? (.ofList (Text.trim cs)) = none := by
  unfold firstIllegal?
  rw [String.toList_ofList, List.find?_eq_none]
  intro c hc hillegal
  rcases hcs c (Text.mem_of_mem_trim hc) with rfl | ⟨hlow, hhigh⟩
  · revert hillegal
    decide
  · simp only [Bool.and_eq_true, Bool.or_eq_true, decide_eq_true_eq] at hillegal
    omega

-- ============================================================ bodies

/-- A text without a dollar sign stands for itself. -/
theorem expand_of_not_mem {text : String} (h : '$' ∉ text.toList)
    (lookup : List Char → Except Missing (List Char)) : expand lookup text = .ok text := by
  have hplain : Passage.Compose [.plain text.toList] := ⟨h, trivial⟩
  have htext : String.ofList ([Passage.plain text.toList].flatMap Passage.written) = text := by
    rw [List.flatMap_singleton, Passage.written, String.ofList_toList]
  have hexpand := @Passage.expand_text lookup _ hplain
  rw [Passage.text, htext] at hexpand
  rw [hexpand]
  show Except.ok (String.ofList [text.toList].flatten) = _
  rw [List.flatten_singleton, String.ofList_toList]

/-- The tokens in front of a marker in its line: none, or the delimiter that opens a comment. -/
def Token.AreOpening (opening : List Token) : Prop :=
  opening = [] ∨ ∃ o, opening = [o] ∧ o.kind = .openComment

namespace Body

variable {ts : List Token} {t : Token}

theorem dropFirstBreak_cons (h : t.kind = .newLine) : dropFirstBreak (t :: ts) = ts := by
  unfold dropFirstBreak
  exact if_pos h

theorem dropBlanks_append {more : List Token} (hmore : ∀ u ∈ more, u.kind.isBlank = true)
    (ht : t.kind.isBlank = false) : dropBlanks (ts ++ t :: more) = ts ++ [t] := by
  unfold dropBlanks Text.dropTrailing
  rw [List.append_cons, List.reverse_append,
    List.dropWhile_append_of_pos fun u hu => hmore u (List.mem_reverse.mp hu)]
  exact Text.dropTrailing_append_of_not _ ts ht

theorem dropComment_append_of_comment (h : t.kind.isComment = true) :
    dropComment (ts ++ [t]) = dropBlanks ts := by
  unfold dropComment
  rw [List.getLast?_concat, List.dropLast_concat]
  exact if_pos h

theorem dropComment_append (h : t.kind.isComment = false) :
    dropComment (ts ++ [t]) = ts ++ [t] := by
  unfold dropComment
  rw [List.getLast?_concat]
  exact if_neg (by rw [h]; exact nofun)

theorem dropLastBreak_append (h : t.kind = .newLine) :
    dropLastBreak (ts ++ [t]) = dropLastIf (· = .carriageReturn) ts := by
  unfold dropLastBreak
  rw [List.getLast?_concat, List.dropLast_concat]
  exact if_pos h

theorem dropLastIf_append {p : Kind → Bool} (h : p t.kind = true) :
    dropLastIf p (ts ++ [t]) = ts := by
  unfold dropLastIf
  rw [List.getLast?_concat, List.dropLast_concat]
  exact if_pos h

theorem dropLastIf_of_not {p : Kind → Bool} (h : ∀ t ∈ ts.getLast?, p t.kind = false) :
    dropLastIf p ts = ts := by
  unfold dropLastIf
  cases hlast : ts.getLast? with
  | none => rfl
  | some t =>
      have ht := h t hlast
      exact if_neg (by rw [ht]; exact nofun)

/-- A line end behind a body is one line feed and all that belongs to it. -/
theorem exists_scan_lineEnd (e : LineEnd) (source : Source) (p : Position)
    (hreturn : e = .lf → ∀ t ∈ ts.getLast?, t.kind ≠ .carriageReturn) :
    ∃ returns feed, Token.scan source p e.chars = returns ++ [feed] ∧ feed.kind = .newLine
      ∧ dropLastIf (· = .carriageReturn) (ts ++ returns) = ts := by
  have hfeed : ∀ q, ∃ feed, Token.scan source q ['\n'] = [feed] ∧ feed.kind = .newLine := by
    intro q
    rw [Token.scan_cons_white rfl, Token.scan]
    exact ⟨_, rfl, rfl⟩
  cases e with
  | lf =>
      obtain ⟨feed, hscan, hkind⟩ := hfeed p
      refine ⟨[], feed, hscan, hkind, ?_⟩
      rw [List.append_nil]
      exact dropLastIf_of_not fun t ht => decide_eq_false (hreturn rfl t ht)
  | crlf =>
      obtain ⟨feed, hscan, hkind⟩ := hfeed (p.after ['\r'])
      refine ⟨[.ofLexeme source p (.single .carriageReturn '\r' ['\n'])], feed, ?_, hkind,
        dropLastIf_append rfl⟩
      show Token.scan source p ['\r', '\n'] = _
      rw [Token.scan_cons_white rfl, hscan]
      rfl

/-- Trimming takes the layout off a body and leaves everything else: the line end behind the
begin marker, the line end in front of the end marker, and what stands in that line. -/
theorem trim_layout (e : LineEnd) {source : Source} {p : Position} {first : Token}
    {indent opening : List Token} (hfirst : first.kind = .newLine)
    (hreturn : e = .lf → ∀ t ∈ ts.getLast?, t.kind ≠ .carriageReturn)
    (hindent : ∀ t ∈ indent, t.kind.isBlank = true)
    (hopening : Token.AreOpening opening) :
    trim (first :: (ts ++ (Token.scan source p e.chars ++ (indent ++ opening)))) = ts := by
  obtain ⟨returns, feed, hend, hfeed, hcarriage⟩ := exists_scan_lineEnd e source p hreturn
  have hnotBlank : feed.kind.isBlank = false := by rw [hfeed]; rfl
  have hnotComment : feed.kind.isComment = false := by rw [hfeed]; rfl
  have hblanks : dropBlanks (ts ++ returns ++ feed :: indent) = ts ++ returns ++ [feed] :=
    dropBlanks_append hindent hnotBlank
  have hlayout : ts ++ (Token.scan source p e.chars ++ (indent ++ opening))
      = ts ++ returns ++ feed :: indent ++ opening := by
    rw [hend]
    simp
  unfold trim
  rw [dropFirstBreak_cons hfirst, hlayout]
  rcases hopening with rfl | ⟨o, rfl, ho⟩
  · rw [List.append_nil, hblanks, dropComment_append hnotComment, dropLastBreak_append hfeed,
      hcarriage]
  · -- the comment delimiter stops the first round of blanks, and the line feed the second
    have hstop : o.kind.isBlank = false := by rw [ho]; rfl
    have hcomment : o.kind.isComment = true := by rw [ho]; rfl
    rw [dropBlanks_append (List.forall_mem_nil _) hstop, dropComment_append_of_comment hcomment,
      hblanks, dropLastBreak_append hfeed, hcarriage]

end Body

-- ============================================================ tokens

theorem Kind.ne_beginMarker {k : Kind} (h : k.isMarker = false) : k ≠ .beginMarker := by
  rintro rfl
  cases h

theorem Kind.ne_endMarker {k : Kind} (h : k.isMarker = false) : k ≠ .endMarker := by
  rintro rfl
  cases h

theorem Manuscript.exists_ofWhite?_of_mem_blanks {c : Char} (hc : c ∈ blanks) :
    ∃ k, Kind.ofWhite? c = some k ∧ k.isBlank = true := by
  simp only [blanks, List.mem_cons, List.not_mem_nil, or_false] at hc
  rcases hc with rfl | rfl | rfl
  · exact ⟨.space, rfl, rfl⟩
  · exact ⟨.tab, rfl, rfl⟩
  · exact ⟨.formFeed, rfl, rfl⟩

theorem Manuscript.isSome_of_blanks {cs : List Char} (hcs : ∀ c ∈ cs, c ∈ blanks) :
    ∀ c ∈ cs, (Kind.ofWhite? c).isSome := by
  intro c hc
  obtain ⟨k, hk, -⟩ := exists_ofWhite?_of_mem_blanks (hcs c hc)
  rw [hk]
  rfl

namespace Token

variable {source : Source} {p : Position}

/-- Blanks are read as blanks. -/
theorem kind_of_mem_scan_blanks {cs : List Char} (hcs : ∀ c ∈ cs, c ∈ Manuscript.blanks) {t : Token}
    (ht : t ∈ scan source p cs) : t.kind.isBlank = true := by
  obtain ⟨c, hc, hkind⟩ := exists_ofWhite?_of_mem_scan (Manuscript.isSome_of_blanks hcs) ht
  obtain ⟨k, hk, hblank⟩ := Manuscript.exists_ofWhite?_of_mem_blanks (hcs c hc)
  rw [Option.some.inj (hkind.symm.trans hk)]
  exact hblank

/-- White space holds no marker. -/
theorem isMarker_of_mem_scan_white {cs : List Char} (hcs : ∀ c ∈ cs, (Kind.ofWhite? c).isSome)
    {t : Token} (ht : t ∈ scan source p cs) : t.kind.isMarker = false := by
  obtain ⟨c, -, hkind⟩ := exists_ofWhite?_of_mem_scan hcs ht
  unfold Kind.ofWhite? at hkind
  split_ifs at hkind <;> (rw [← Option.some.inj hkind]; rfl)

theorem isMarker_of_mem_opening {opening : List Token} (h : AreOpening opening) {t : Token}
    (ht : t ∈ opening) : t.kind.isMarker = false := by
  rcases h with rfl | ⟨o, rfl, ho⟩
  · cases ht
  · rw [List.mem_singleton.mp ht, ho]
    rfl

/-- The wrapping in front of a marker is one token at most. -/
theorem exists_scan_opening (w : Wrapping) (source : Source) (p : Position) (more : List Char) :
    ∃ opening, AreOpening opening
      ∧ scan source p (w.opening.toList ++ '/' :: more)
        = opening ++ scan source (p.after w.opening.toList) ('/' :: more) := by
  cases w with
  | bare => exact ⟨[], Or.inl rfl, rfl⟩
  | comment =>
      refine ⟨[_], Or.inr ⟨_, rfl, ?_⟩, scan_cons '<' _⟩
      rfl

/-- A begin marker takes the rest of its line. -/
theorem exists_scan_beginLine (e : LineEnd) {line : List Char}
    (hline : ∀ c ∈ line, c ≠ '\n' ∧ c ≠ '\r') (hlast : line.getLast? ≠ some '\\')
    (source : Source) (p : Position) (rest : List Char) :
    ∃ marker feed q,
      scan source p ('/' :: '/' :: (Lexeme.beginWord ++ (line ++ e.chars ++ rest)))
        = marker :: feed :: scan source q rest
      ∧ marker.kind = .beginMarker ∧ marker.metadata = .ofList (Text.trim (line ++ e.carriage))
      ∧ feed.kind = .newLine := by
  have hfeed : Kind.ofWhite? '\n' = some .newLine := rfl
  rw [scan_cons, Lexeme.read_beginMarker, Metadata.split_line e hline hlast, scan_cons_white hfeed]
  exact ⟨_, _, _, rfl, rfl, rfl, rfl⟩

/-- Behind the end marker stands no other marker. -/
theorem exists_scan_endLine (w : Wrapping) (source : Source) (p : Position) :
    ∃ marker behind,
      scan source p ('/' :: '/' :: (Lexeme.endWord ++ w.closing.toList)) = marker :: behind
      ∧ marker.kind = .endMarker ∧ ∀ t ∈ behind, t.kind ≠ .beginMarker := by
  rw [scan_cons, Lexeme.read_endMarker]
  refine ⟨_, _, rfl, rfl, ?_⟩
  intro t ht
  cases w with
  | bare =>
      rw [show Wrapping.bare.closing.toList = [] from rfl, scan] at ht
      cases ht
  | comment =>
      have hclose : Lexeme.read '-' ['-', '>'] = ⟨.closeComment, Lexeme.closer, [], []⟩ := rfl
      have hspace : Kind.ofWhite? ' ' = some .space := rfl
      rw [show Wrapping.comment.closing.toList = [' ', '-', '-', '>'] from rfl,
        scan_cons_white hspace, scan_cons, hclose, scan] at ht
      rcases List.mem_cons.mp ht with rfl | ht
      · show Kind.space ≠ .beginMarker
        decide
      · obtain rfl := List.mem_singleton.mp ht
        show Kind.closeComment ≠ .beginMarker
        decide

end Token

-- ============================================================ whole files

/-- Tokens with one begin marker have one outcome, and it is decided by all that follows. -/
theorem Block.scan_single {r : Repository} {env : Environment} {front ts : List Token}
    {marker : Token} (hfront : ∀ t ∈ front, t.kind ≠ .beginMarker)
    (hmarker : marker.kind = .beginMarker) (hts : ∀ t ∈ ts, t.kind ≠ .beginMarker) :
    scan r env (front ++ marker :: ts) = [Stretch.outcome r env ⟨marker, ts⟩] := by
  have hinside : ts.takeWhile (·.kind ≠ .beginMarker) = ts :=
    List.takeWhile_eq_self_iff.mpr fun t ht => decide_eq_true (hts t ht)
  have hstretch : Stretch.before marker ts = ⟨marker, ts⟩ := congrArg (Stretch.mk marker) hinside
  have hnone : scan r env ts = [] := by
    rw [← List.append_nil ts, scan_append hts, scan]
  rw [scan_append hfront, scan_begin hmarker, hstretch, hnone]

namespace Manuscript

variable {m : Manuscript} {source : Source}

/-- What the begin marker takes with it, up to the line end. -/
def tagLine (m : Manuscript) : List Char :=
  ' ' :: m.metadata.toList ++ m.wrapping.closing.toList

/-- The line of the end marker, without its indentation. -/
def endLine (m : Manuscript) : List Char :=
  m.wrapping.opening.toList ++ '/' :: '/' :: (Lexeme.endWord ++ m.wrapping.closing.toList)

/-- All that stands behind the line of the begin marker. -/
def remainder (m : Manuscript) : List Char :=
  m.body.toList ++ (m.lineEnd.chars ++ (m.endIndent.toList ++ m.endLine))

theorem toList_text (m : Manuscript) :
    m.text.toList = m.beginIndent.toList ++ (m.wrapping.opening.toList
      ++ ('/' :: '/' :: (Lexeme.beginWord ++ (m.tagLine ++ m.lineEnd.chars ++ m.remainder)))) := by
  have hbegin : "//+gendoc ".toList = '/' :: '/' :: (Lexeme.beginWord ++ [' ']) := rfl
  have hend : "//-gendoc".toList = '/' :: '/' :: Lexeme.endWord := rfl
  unfold text line tagLine remainder endLine
  simp only [String.toList_append, String.toList_ofList, hbegin, hend, List.append_assoc,
    List.cons_append, List.nil_append]

theorem Plain.of_mem_tagLine (hm : m.Plain source) {c : Char} (hc : c ∈ m.tagLine) :
    0x20 ≤ c.toNat ∧ c.toNat ≠ 0x7F := by
  have hclosing : ∀ c ∈ m.wrapping.closing.toList, 0x20 ≤ c.toNat ∧ c.toNat ≠ 0x7F := by
    cases m.wrapping with
    | bare => simp [Wrapping.closing]
    | comment => simp [Wrapping.closing]
  rcases List.mem_append.mp hc with hc | hc
  · rcases List.mem_cons.mp hc with rfl | hc
    · decide
    · exact hm.metadata c hc
  · exact hclosing c hc

theorem Plain.getLast?_tagLine (hm : m.Plain source) : m.tagLine.getLast? ≠ some '\\' := by
  unfold tagLine
  cases m.wrapping with
  | bare =>
      show (' ' :: m.metadata.toList ++ []).getLast? ≠ _
      have hlast := hm.unescaped
      rw [List.append_nil, List.getLast?_cons]
      cases h : m.metadata.toList.getLast? with
      | none => decide
      | some c => exact h ▸ hlast
  | comment =>
      show (' ' :: m.metadata.toList ++ [' ', '-', '-', '>']).getLast? ≠ _
      rw [List.getLast?_append]
      show some '>' ≠ some '\\'
      decide

/-- The tokens of the body do not end in a carriage return that would pass for a part of the
line end behind it. -/
theorem Plain.getLast?_scan_body (hm : m.Plain source) (p : Position) (he : m.lineEnd = .lf) :
    ∀ t ∈ (Token.scan source p m.body.toList).getLast?, t.kind ≠ .carriageReturn := by
  intro t ht hkind
  have hreturn : Kind.ofWhite? '\r' = some .carriageReturn := rfl
  have hliteral := Token.literal_of_white hreturn (List.mem_of_getLast? ht) hkind
  obtain ⟨init, hinit⟩ := List.getLast?_eq_some_iff.mp ht
  apply hm.unbroken he
  rw [← Token.flatMap_literal_scan source p m.body.toList, hinit, List.flatMap_append,
    List.flatMap_singleton, hliteral]
  exact List.getLast?_concat

theorem Plain.kind_of_mem_scan_body (hm : m.Plain source) (p : Position) {t : Token}
    (ht : t ∈ Token.scan source p m.body.toList) : t.kind.isMarker = false := by
  have hkind : t.kind ∈ (tokenize source m.body).map (·.kind) := by
    unfold tokenize
    rw [← Token.map_kind_scan]
    exact List.mem_map_of_mem ht
  obtain ⟨u, hu, hsame⟩ := List.mem_map.mp hkind
  rw [← hsame]
  exact hm.unmarked u hu

/-- Behind the line of the begin marker: the body, its layout, and the end marker. -/
theorem Plain.exists_scan_remainder (hm : m.Plain source) (p : Position) :
    ∃ inner stop behind, Token.scan source p m.remainder = inner ++ stop :: behind
      ∧ (∀ t ∈ inner, t.kind.isMarker = false)
      ∧ (∀ feed : Token, feed.kind = .newLine → Body.text (feed :: inner) = m.body)
      ∧ stop.kind = .endMarker ∧ ∀ t ∈ behind, t.kind ≠ .beginMarker := by
  have hwhite := m.lineEnd.isSome_of_mem_chars
  have hendIndent := isSome_of_blanks hm.endIndent
  let q := p.after m.body.toList
  let q' := q.after m.lineEnd.chars
  let q'' := q'.after m.endIndent.toList
  obtain ⟨opening, hopening, hscan⟩ := Token.exists_scan_opening m.wrapping source q''
    ('/' :: (Lexeme.endWord ++ m.wrapping.closing.toList))
  obtain ⟨stop, behind, hend, hstop, hbehind⟩ :=
    Token.exists_scan_endLine m.wrapping source (q''.after m.wrapping.opening.toList)
  have hindent : ∀ t ∈ Token.scan source q' m.endIndent.toList, t.kind.isBlank = true :=
    fun t ht => Token.kind_of_mem_scan_blanks hm.endIndent ht
  refine ⟨Token.scan source p m.body.toList ++ (Token.scan source q m.lineEnd.chars
    ++ (Token.scan source q' m.endIndent.toList ++ opening)), stop, behind, ?_, ?_, ?_, hstop,
    hbehind⟩
  · unfold remainder endLine
    rw [Token.scan_append (m.lineEnd.startsBroken _)
        (fun t ht => Kind.ne_beginMarker (hm.kind_of_mem_scan_body p ht)),
      Token.scan_append_of_white hwhite, Token.scan_append_of_white hendIndent, hscan, hend]
    simp only [List.append_assoc]
    rfl
  · intro t ht
    rcases List.mem_append.mp ht with ht | ht
    · exact hm.kind_of_mem_scan_body p ht
    rcases List.mem_append.mp ht with ht | ht
    · exact Token.isMarker_of_mem_scan_white hwhite ht
    rcases List.mem_append.mp ht with ht | ht
    · exact Token.isMarker_of_mem_scan_white hendIndent ht
    · exact Token.isMarker_of_mem_opening hopening ht
  · intro feed hfeed
    unfold Body.text
    rw [Body.trim_layout m.lineEnd hfeed (hm.getLast?_scan_body p) hindent hopening,
      Token.flatMap_literal_scan, String.ofList_toList]

/-- A manuscript is read as a begin marker with its metadata, the body, and an end marker. -/
theorem Plain.exists_tokenize (hm : m.Plain source) :
    ∃ front marker body stop behind,
      tokenize source m.text = front ++ marker :: (body ++ stop :: behind)
      ∧ (∀ t ∈ front, t.kind ≠ .beginMarker) ∧ marker.kind = .beginMarker
      ∧ marker.metadata = .ofList (Text.trim (m.tagLine ++ m.lineEnd.carriage))
      ∧ (∀ t ∈ body, t.kind.isMarker = false) ∧ Body.text body = m.body
      ∧ stop.kind = .endMarker ∧ ∀ t ∈ behind, t.kind ≠ .beginMarker := by
  have htagLine : ∀ c ∈ m.tagLine, c ≠ '\n' ∧ c ≠ '\r' := by
    intro c hc
    have hlow := (hm.of_mem_tagLine hc).1
    constructor <;> (rintro rfl; revert hlow; decide)
  have hbeginIndent := isSome_of_blanks hm.beginIndent
  let p := Position.start.after m.beginIndent.toList
  obtain ⟨opening, hopening, hscan⟩ := Token.exists_scan_opening m.wrapping source p
    ('/' :: (Lexeme.beginWord ++ (m.tagLine ++ m.lineEnd.chars ++ m.remainder)))
  obtain ⟨marker, feed, q, hbegin, hmarker, hmetadata, hfeed⟩ :=
    Token.exists_scan_beginLine m.lineEnd htagLine hm.getLast?_tagLine source
      (p.after m.wrapping.opening.toList) m.remainder
  obtain ⟨inner, stop, behind, hremainder, hinner, htext, hstop, hbehind⟩ :=
    hm.exists_scan_remainder q
  refine ⟨Token.scan source .start m.beginIndent.toList ++ opening, marker, feed :: inner, stop,
    behind, ?_, ?_, hmarker, hmetadata, ?_, htext feed hfeed, hstop, hbehind⟩
  · unfold tokenize
    rw [toList_text, Token.scan_append_of_white hbeginIndent, hscan, hbegin, hremainder]
    simp only [List.append_assoc]
    rfl
  · intro t ht
    rcases List.mem_append.mp ht with ht | ht
    · exact Kind.ne_beginMarker (Token.isMarker_of_mem_scan_white hbeginIndent ht)
    · exact Kind.ne_beginMarker (Token.isMarker_of_mem_opening hopening ht)
  · intro t ht
    rcases List.mem_cons.mp ht with rfl | ht
    · rw [hfeed]
      rfl
    · exact hinner t ht

/-- A begin marker that took this line declares what the author wrote. -/
theorem Plain.declares (hm : m.Plain source) {a : Label} (hparse : Label.parse m.metadata = .ok a)
    {marker : Token}
    (hmarker : marker.metadata = .ofList (Text.trim (m.tagLine ++ m.lineEnd.carriage)))
    (inside : List Token) : Stretch.Declares ⟨marker, inside⟩ a := by
  constructor
  · show firstIllegal? marker.metadata = none
    rw [hmarker]
    apply firstIllegal?_trim
    intro c hc
    rcases List.mem_append.mp hc with hc | hc
    · exact Or.inr (hm.of_mem_tagLine hc)
    · exact Or.inl (m.lineEnd.eq_of_mem_carriage hc)
  · show Label.parse marker.metadata = .ok a
    rw [hmarker]
    exact (Label.parse_trim m.wrapping m.lineEnd m.metadata).trans hparse

/-- What an author writes between two markers is what is captured. The text has one outcome:
the block with the declared label, and its value is the body as it was written. -/
theorem captured_as_written {r : Repository} {env : Environment} {a linked : Label} {c : Category}
    (hm : m.Plain source) (hparse : Label.parse m.metadata = .ok a)
    (hcategory : a.category = some c) (hlink : a.link r c m.body = .ok linked) :
    ∃ b, Block.outcomes r env source m.text = [.ok b] ∧ b.value = m.body ∧ b.label = linked := by
  obtain ⟨front, marker, body, stop, behind, htokens, hfront, hmarker, hmetadata, hbody, htext,
    hstop, hbehind⟩ := hm.exists_tokenize
  have hdeclares := hm.declares hparse hmetadata (body ++ stop :: behind)
  have hcloses : Stretch.Closes ⟨marker, body ++ stop :: behind⟩ body stop :=
    ⟨behind, rfl, hstop, fun t ht => Kind.ne_endMarker (hbody t ht)⟩
  have hvalue : expand env.nonEmpty (Body.text body) = .ok m.body := by
    rw [htext]
    exact expand_of_not_mem hm.constant _
  have hyields := Stretch.Yields.block (r := r) hdeclares hcloses hvalue hcategory hlink
  refine ⟨⟨marker, linked, c.precedence, m.body, stop⟩, ?_, rfl, rfl⟩
  unfold Block.outcomes
  rw [htokens, Block.scan_single hfront hmarker, ← hyields.eq_outcome]
  intro t ht
  rcases List.mem_append.mp ht with ht | ht
  · exact Kind.ne_beginMarker (hbody t ht)
  rcases List.mem_cons.mp ht with rfl | ht
  · rw [hstop]
    exact nofun
  · exact hbehind t ht

/-- Comment delimiters, trailing blanks, empty last lines and a last carriage return, all in the
body, and more of them around it. -/
def guarded : Manuscript where
  wrapping := .comment
  lineEnd := .crlf
  beginIndent := "\t "
  metadata := "category=message type=example id=m #"
  body := "<!-- //+ gendoc -->  \n\n -->\r"
  endIndent := " \x0c"

theorem captured_as_written_guarded :
    guarded.Plain ⟨"A.md", "docs/A.md"⟩
      ∧ ∃ b, Block.outcomes {} [] ⟨"A.md", "docs/A.md"⟩ guarded.text = [.ok b]
        ∧ b.value = "<!-- //+ gendoc -->  \n\n -->\r"
        ∧ b.label = { category := some .message, contentType := some .example
                      name := "m", id := "m", parent := "m" } := by
  have hplain : guarded.Plain ⟨"A.md", "docs/A.md"⟩ :=
    { beginIndent := by simp [guarded, blanks]
      endIndent := by simp [guarded, blanks]
      metadata := by simp [guarded]
      unescaped := by decide
      unmarked := by decide +kernel
      constant := by decide
      unbroken := nofun }
  exact ⟨hplain, captured_as_written hplain rfl rfl rfl⟩

end Manuscript

end EventDocs
