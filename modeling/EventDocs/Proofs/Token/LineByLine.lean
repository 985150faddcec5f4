import EventDocs.Proofs.Block.Places

/-
A text is read line by line, and no line knows of the others.

A line feed is where every reader stops, whatever it has begun: a second slash that might have
come, a delimiter half written, a run of spaces or of text. To all of them the end of the text
and a line feed are one and the same (`Lexeme.read_append`). Only metadata go over a line feed,
and only if what stands in front of it escapes it. So a text that does not end in an escape may
be followed by a line feed and anything at all: its own tokens stay as they are, and what follows
is read as if it stood alone, further down (`tokenize_append_line`).

Two facts carry this. What one lexeme takes is not changed by a line feed behind the text
(`Lexeme.read_append_line`), and a reader that starts further down does the same further down
(`Token.scan_down`): a line feed starts its line at the first column, as a text does.
-/

namespace EventDocs

-- ============================================================ statement vocabulary

/-- A line feed behind the text would be escaped. -/
def EndsInEscape (cs : List Char) : Prop := ['\\'] <:+ cs ∨ ['\\', '\r'] <:+ cs

instance (cs : List Char) : Decidable (EndsInEscape cs) :=
  inferInstanceAs (Decidable (_ ∨ _))

/-- The same place, some lines further down. -/
def Position.down (n : Nat) (p : Position) : Position := { p with line := p.line + n }

/-- The same token, some lines further down. -/
def Token.down (n : Nat) (t : Token) : Token := { t with line := t.line + n }

theorem EndsInEscape.of_suffix {cs ds : List Char} (h : EndsInEscape cs) (hs : cs <:+ ds) :
    EndsInEscape ds :=
  h.imp (·.trans hs) (·.trans hs)

-- ============================================================ one lexeme

/-- Metadata end at a line feed that is not escaped as they end at the end of the text. -/
theorem Metadata.split_append_line {cs : List Char} (h : ¬ EndsInEscape cs) (rest : List Char) :
    split (cs ++ '\n' :: rest)
      = { split cs with rest := (split cs).rest ++ '\n' :: rest } := by
  fun_induction split cs with
  | case1 => rfl
  | case2 => rfl
  | case3 cs m ih =>
      have hcs : ¬ EndsInEscape cs := fun hend =>
        h (hend.of_suffix (List.suffix_append ['\\', '\n'] cs))
      rw [List.cons_append, List.cons_append, split, ih hcs]
  | case4 cs m ih =>
      have hcs : ¬ EndsInEscape cs := fun hend =>
        h (hend.of_suffix (List.suffix_append ['\\', '\r', '\n'] cs))
      rw [List.cons_append, List.cons_append, List.cons_append, split, ih hcs]
  | case5 c cs hc hbreak hreturn m ih =>
      have hcs : ¬ EndsInEscape cs := fun hend => h (hend.of_suffix (List.suffix_cons c cs))
      rw [List.cons_append, split.eq_5 _ _ hc, ih hcs]
      · -- the line feed behind a backslash is in the text already, or the text ends there
        rintro more rfl hmore
        cases cs with
        | nil => exact h (Or.inl List.suffix_rfl)
        | cons d cs =>
            obtain ⟨rfl, -⟩ := List.cons.inj hmore
            exact hbreak cs rfl rfl
      · rintro more rfl hmore
        cases cs with
        | nil => cases (List.cons.inj hmore).1
        | cons d cs =>
            obtain ⟨rfl, htail⟩ := List.cons.inj hmore
            cases cs with
            | nil => exact h (Or.inr List.suffix_rfl)
            | cons e cs =>
                obtain ⟨rfl, -⟩ := List.cons.inj htail
                exact hreturn cs rfl rfl

/-- What is read is not changed by a line feed behind the text and what follows it. -/
theorem Lexeme.read_append_line {c : Char} {cs : List Char} (h : ¬ EndsInEscape (c :: cs))
    (rest : List Char) :
    read c (cs ++ '\n' :: rest) = (read c cs).before ('\n' :: rest) := by
  by_cases hkind : (read c cs).kind = .beginMarker
  · obtain ⟨rfl, behind, rfl⟩ := read_kind_beginMarker.mp hkind
    have hbehind : ¬ EndsInEscape behind := fun hend =>
      h (hend.of_suffix (List.suffix_append ('/' :: '/' :: beginWord) behind))
    rw [List.cons_append, List.append_assoc, read_beginMarker, read_beginMarker,
      Metadata.split_append_line hbehind]
    rfl
  · exact read_append (LineEnd.lf.startsBroken rest) hkind

-- ============================================================ whole texts

namespace Position

theorem step_down (n : Nat) (p : Position) (c : Char) : (p.down n).step c = (p.step c).down n := by
  unfold step
  split
  · simp only [down, Nat.add_right_comm]
  · rfl

theorem after_down (n : Nat) (p : Position) (cs : List Char) :
    (p.down n).after cs = (p.after cs).down n := by
  induction cs generalizing p with
  | nil => rfl
  | cons c cs ih =>
      have hstep : (p.down n).after (c :: cs) = ((p.down n).step c).after cs := rfl
      rw [hstep, step_down, ih]
      rfl

/-- Behind a line feed a text starts as every text does, but further down. -/
theorem after_line (cs : List Char) :
    start.after (cs ++ ['\n']) = start.down (1 + cs.count '\n') := by
  rw [after_append, after_start]
  show (⟨lineBehind cs + 1, 1⟩ : Position) = ⟨1 + (1 + cs.count '\n'), 1⟩
  unfold lineBehind
  congr 1
  omega

end Position

namespace Token

variable {source : Source}

/-- A reader that starts further down reads the same tokens, further down. -/
theorem scan_down (n : Nat) (p : Position) (cs : List Char) :
    scan source (p.down n) cs = (scan source p cs).map (down n) := by
  fun_induction scan source p cs with
  | case1 => rw [scan]; rfl
  | case2 p c cs l ih =>
      rw [scan_cons, List.map_cons, ← ih, ← Position.after_down]
      rfl

/-- The tokens in front of a line feed are those of the text in front of it. -/
theorem scan_append_line {p : Position} {cs : List Char} (h : ¬ EndsInEscape cs)
    (rest : List Char) :
    scan source p (cs ++ '\n' :: rest)
      = scan source p cs ++ scan source (p.after cs) ('\n' :: rest) := by
  fun_induction scan source p cs with
  | case1 => rfl
  | case2 p c cs l ih =>
      have hwhole : l.taken ++ l.rest = c :: cs := Lexeme.taken_append_rest c cs
      have hrest : ¬ EndsInEscape l.rest := fun hend =>
        h (hend.of_suffix (hwhole ▸ List.suffix_append l.taken l.rest))
      have hread : Lexeme.read c (cs ++ '\n' :: rest) = l.before ('\n' :: rest) :=
        Lexeme.read_append_line h rest
      rw [List.cons_append, scan_cons, hread, ← hwhole, Position.after_append, List.cons_append,
        ← ih hrest]
      rfl

end Token

/-- The tokens of a text that goes on behind a line feed: those of the text in front of it, the
line feed where that text ends, and those of the text behind it, further down. -/
theorem tokenize_append_line (source : Source) {a : String} (ha : ¬ EndsInEscape a.toList)
    (b : String) :
    tokenize source (a ++ "\n" ++ b)
      = tokenize source a
        ++ { endToken source a with kind := .newLine, literal := "\n" }
        :: (tokenize source b).map (Token.down (1 + a.toList.count '\n')) := by
  have htext : (a ++ "\n" ++ b).toList = a.toList ++ '\n' :: b.toList := by
    rw [String.toList_append, String.toList_append, List.append_assoc]
    rfl
  unfold tokenize
  rw [htext, Token.scan_append_line ha, Token.scan_cons_white Kind.ofWhite?_newLine,
    ← Position.after_append, Position.after_line, Token.scan_down]
  rfl

/-- A marker with metadata on two lines and a slash at the end; the line behind it starts with
what would make that slash a marker. -/
theorem tokenize_append_line_slash :
    let source : Source := ⟨"A.cs", "src/A.cs"⟩
    let a := "//+gendoc id=a\\\n c=é\n/"
    let b := "/+gendoc"
    ¬ EndsInEscape a.toList
      ∧ tokenize source (a ++ "\n" ++ b)
        = [⟨.beginMarker, "//+gendoc id=a\\\n c=é", "id=a c=é", 1, 1, source⟩,
            ⟨.newLine, "\n", "", 2, 5, source⟩, ⟨.slash, "/", "", 3, 1, source⟩,
            ⟨.newLine, "\n", "", 3, 2, source⟩, ⟨.slash, "/", "", 4, 1, source⟩,
            ⟨.text, "+gendoc", "", 4, 2, source⟩] := by
  intro source a b
  have ha : ¬ EndsInEscape a.toList := by decide
  refine ⟨ha, ?_⟩
  rw [tokenize_append_line source ha b]
  decide +kernel

end EventDocs
