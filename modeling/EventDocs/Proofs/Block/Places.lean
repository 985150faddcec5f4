import EventDocs.Proofs.Block.Linked
import EventDocs.Proofs.Token.Metadata
import Mathlib.Data.List.DropRight

/-
Reported places are true places. Lines and columns are kept up to date while a text is read,
lexeme by lexeme; what they come to is a fact about the text that was read and not about how it
was cut up (`Position.after_start`): one line more than it has line feeds, and one column more
than it has characters behind the last of them.

A problem is located at the begin marker whose outcome it is, and the token of that marker starts
with the marker's first slash.
-/

namespace EventDocs

-- ============================================================ statement vocabulary

/-- The line that is reached behind a text: one more than its line feeds. -/
def lineBehind (front : List Char) : Nat := 1 + front.count '\n'

/-- The column that is reached behind a text: one more than the characters behind its last line
feed. -/
def columnBehind (front : List Char) : Nat := 1 + (front.rtakeWhile (· ≠ '\n')).length

/-- The token stands behind a text. -/
def Token.StandsBehind (front : List Char) (t : Token) : Prop :=
  t.line = lineBehind front ∧ t.column = columnBehind front

-- ============================================================ places

/-- Where the reader stands is decided by what it has read. -/
theorem Position.after_start (front : List Char) :
    start.after front = ⟨lineBehind front, columnBehind front⟩ := by
  unfold lineBehind columnBehind
  induction front using List.reverseRecOn with
  | nil => rfl
  | append_singleton front c ih =>
      have hstep : start.after (front ++ [c]) = (start.after front).step c :=
        after_append start front [c]
      rw [hstep, ih, List.count_append, List.rtakeWhile_concat]
      unfold step
      by_cases hc : c = '\n'
      · rw [if_pos hc, if_neg (by simpa using hc), hc]
        rfl
      · rw [if_neg hc, if_pos (by simpa using hc), List.count_singleton, List.length_append]
        simp only [beq_iff_eq, hc, if_false]
        rfl

theorem Token.standsBehind_of_tokenize {source : Source} {text : String}
    {before after : List Token} {t : Token} (h : tokenize source text = before ++ t :: after) :
    t.StandsBehind (chars before) := by
  obtain ⟨c, ds, -, rfl, -⟩ := scan_eq_append h
  rw [Position.after_start]
  exact ⟨rfl, rfl⟩

theorem Token.standsBehind_endToken (source : Source) (text : String) :
    (endToken source text).StandsBehind (chars (tokenize source text)) := by
  unfold endToken
  rw [chars_tokenize, Position.after_start]
  exact ⟨rfl, rfl⟩

-- ============================================================ problems

theorem Outcome.mem_problems {outcomes : List Outcome} {p : LocatedProblem} :
    p ∈ Outcome.problems outcomes ↔ .error p ∈ outcomes := by
  unfold Outcome.problems
  rw [List.mem_filterMap]
  constructor
  · rintro ⟨o, ho, hp⟩
    cases o with
    | ok b => cases hp
    | error q => exact Option.some.inj hp ▸ ho
  · intro hp
    exact ⟨_, hp, rfl⟩

/-- Every token stands behind what the tokens before it cover, and the last one behind the whole
text. So every problem is located at the first slash of the begin marker whose outcome it is. -/
theorem places_are_true (source : Source) (text : String) :
    (∀ before t after, tokenize source text = before ++ t :: after →
        t.StandsBehind (Token.chars before))
      ∧ (endToken source text).StandsBehind (Token.chars (tokenize source text))
      ∧ ∀ r env, ∀ p ∈ Outcome.problems (Block.outcomes r env source text),
        ∃ s ∈ stretches (tokenize source text), s.Yields r env (.error p)
          ∧ ∃ before after behind, tokenize source text = before ++ s.opening :: after
            ∧ s.opening.kind = .beginMarker
            ∧ text.toList = Token.chars before ++ beginMark ++ behind
            ∧ p.file = source.file ∧ p.line = lineBehind (Token.chars before)
            ∧ p.column = columnBehind (Token.chars before) := by
  refine ⟨fun before t after h => Token.standsBehind_of_tokenize h,
    Token.standsBehind_endToken source text, ?_⟩
  intro r env p hp
  have hmem := Outcome.mem_problems.mp hp
  unfold Block.outcomes at hmem
  rw [Block.scan_eq] at hmem
  obtain ⟨s, hs, houtcome⟩ := List.mem_map.mp hmem
  have hyields : s.Yields r env (.error p) := houtcome ▸ Stretch.yields_outcome r env s
  obtain ⟨hkind, before, after, htokens⟩ := exists_append_of_mem_stretches hs
  obtain ⟨hline, hcolumn⟩ := Token.standsBehind_of_tokenize htokens
  obtain ⟨c, ds, htext, hopening, -⟩ := Token.scan_eq_append htokens
  refine ⟨s, hs, hyields, before, s.inside ++ after, ?_⟩
  rcases hyields.located with ⟨b, hb, -⟩ | ⟨q, hq, hfile, hline', hcolumn'⟩
  · cases hb
  obtain rfl := Except.error.inj hq
  have hlexeme : (Lexeme.read c ds).kind = .beginMarker := by
    rw [hopening] at hkind
    exact hkind
  obtain ⟨rfl, behind, rfl⟩ := Lexeme.read_kind_beginMarker.mp hlexeme
  refine ⟨behind, htokens, hkind, ?_, ?_, hline'.trans hline, hcolumn'.trans hcolumn⟩
  · rw [htext, List.append_assoc]
    rfl
  · rw [hfile, hopening]
    rfl

/-- A marker that is not closed, on the second line and behind a character of two bytes. -/
def unclosedText : String := "é\n é//+gendoc"

theorem places_are_true_unclosed :
    let source : Source := ⟨"A.cs", "src/A.cs"⟩
    let p : LocatedProblem := ⟨"A.cs", 2, 3, .noEndMarker⟩
    p ∈ Outcome.problems (Block.outcomes {} [] source unclosedText)
      ∧ ∃ s ∈ stretches (tokenize source unclosedText), s.Yields {} [] (.error p)
        ∧ ∃ before after behind, tokenize source unclosedText = before ++ s.opening :: after
          ∧ unclosedText.toList = Token.chars before ++ beginMark ++ behind
          ∧ p.line = lineBehind (Token.chars before)
          ∧ p.column = columnBehind (Token.chars before) := by
  intro source p
  have hp : p ∈ Outcome.problems (Block.outcomes {} [] source unclosedText) := by decide +kernel
  obtain ⟨s, hs, hyields, before, after, behind, htokens, -, htext, -, hline, hcolumn⟩ :=
    (places_are_true source unclosedText).2.2 {} [] p hp
  exact ⟨hp, s, hs, hyields, before, after, behind, htokens, htext, hline, hcolumn⟩

end EventDocs
