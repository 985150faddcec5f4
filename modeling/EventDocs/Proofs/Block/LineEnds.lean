import EventDocs.Proofs.Block.Capture
import EventDocs.Proofs.Token.LineEnds
import Mathlib.Data.List.Induction

/-
The style of the line ends does not change what is documented. A text and the same text with
CR LF for LF have the same problems in the same places, and the same blocks but for the line ends
in their values.

The tokens of the second text are those of the first, recast (`Token.scan_withReturns`), so the
two scans can be followed side by side: the same begin markers declare the same labels, and the
same end markers close them. What is left is the body. Trimming it takes off line breaks and what
else stands at its end, and a carriage return is taken off with its line feed, never without
(`Body.trim_withReturn`): in front of the body it has gone with the begin marker, and at the end
it is the one that was put there.
-/

namespace EventDocs

-- ============================================================ statement vocabulary

/-- The text with CR LF for every LF. -/
def asCrlf (text : String) : String := .ofList (withReturns text.toList)

/-- The second block is the first one, with other line ends in its value. -/
structure Block.SameButLineEnds (b b' : Block) : Prop where
  label : b'.label = b.label
  precedence : b'.precedence = b.precedence
  metadata : b'.beginToken.metadata = b.beginToken.metadata
  beginPlace : b'.beginToken.line = b.beginToken.line ∧ b'.beginToken.column = b.beginToken.column
  endPlace : b'.endToken.line = b.endToken.line ∧ b'.endToken.column = b.endToken.column
  value : b'.value = asCrlf b.value

/-- The same problem, or the same block but for the line ends. -/
inductive Outcome.Agrees : Outcome → Outcome → Prop where
  | problem (p : LocatedProblem) : Agrees (.error p) (.error p)
  | block {b b' : Block} : b.SameButLineEnds b' → Agrees (.ok b) (.ok b')

-- ============================================================ tokens

namespace Token

variable {source : Source} {p : Position} {cs : List Char} {t : Token} {ts : List Token}

/-- A token of a text without carriage returns and dollar signs. -/
structure Bare (t : Token) : Prop where
  notReturn : t.kind ≠ .carriageReturn
  feed : t.kind = .newLine → t.literal.toList = ['\n']
  /-- Line feeds are tokens of their own, but for those that a begin marker takes. -/
  inLine : t.kind ≠ .newLine → t.kind ≠ .beginMarker → '\n' ∉ t.literal.toList
  constant : '$' ∉ t.literal.toList

theorem mem_of_mem_literal {c : Char} (ht : t ∈ scan source p cs) (hc : c ∈ t.literal.toList) :
    c ∈ cs := by
  rw [← chars_scan source p cs]
  exact List.mem_flatMap.mpr ⟨t, ht, hc⟩

theorem bare_of_mem_scan (hreturn : '\r' ∉ cs) (hdollar : '$' ∉ cs)
    (ht : t ∈ scan source p cs) : t.Bare where
  notReturn hkind := by
    apply hreturn
    apply mem_of_mem_literal ht
    rw [literal_of_white Kind.ofWhite?_carriageReturn ht hkind]
    exact List.mem_singleton_self _
  feed hkind := by
    rw [literal_of_white Kind.ofWhite?_newLine ht hkind]
    rfl
  inLine hfeed hbegin := by
    obtain ⟨q, c, ds, rfl⟩ := exists_read_of_mem_scan ht
    have hc : c ≠ '\n' := by
      rintro rfl
      exact hfeed rfl
    rw [toList_literal_ofLexeme]
    exact Lexeme.newLine_not_mem_taken hc hbegin
  constant hmem := hdollar (mem_of_mem_literal ht hmem)

/-- Behind every begin marker stands a line feed, if anything. -/
def Fed (ts : List Token) : Prop :=
  ∀ before t feed after, ts = before ++ t :: feed :: after → t.kind = .beginMarker →
    feed.kind = .newLine

theorem Fed.tail (h : Fed (t :: ts)) : Fed ts := by
  intro before u feed after hts
  exact h (t :: before) u feed after (by rw [hts, List.cons_append])

theorem fed_scan (source : Source) (p : Position) (cs : List Char) : Fed (scan source p cs) := by
  intro before t feed after hscan hkind
  obtain ⟨c, ds, -, rfl, hafter⟩ := scan_eq_append hscan
  rcases Lexeme.rest_of_begin hkind with hrest | ⟨more, hrest⟩
  · rw [hrest, scan] at hafter
    cases hafter
  · rw [hrest, scan_cons_white Kind.ofWhite?_newLine] at hafter
    rw [(List.cons.inj hafter).1]
    rfl

-- ------------------------------------------------ recast tokens

/-- The last token of a recast one is of the same kind. -/
theorem exists_withReturn (t : Token) :
    ∃ front last, t.withReturn = front ++ [last] ∧ last.kind = t.kind := by
  by_cases ht : t.kind = .newLine
  · rw [withReturn_of_newLine ht]
    exact ⟨[_], _, rfl, rfl⟩
  · rw [withReturn_of_ne ht]
    exact ⟨[], t, rfl, rfl⟩

theorem kind_of_mem_withReturn {u : Token} (hu : u ∈ t.withReturn) :
    u.kind = t.kind ∨ u.kind = .carriageReturn := by
  by_cases ht : t.kind = .newLine
  · rw [withReturn_of_newLine ht] at hu
    rcases hu with _ | ⟨_, _ | ⟨_, hu⟩⟩
    · exact Or.inr rfl
    · exact Or.inl rfl
    · cases hu
  · rw [withReturn_of_ne ht] at hu
    exact Or.inl (congrArg kind (List.mem_singleton.mp hu))

/-- A recast token is passed over where the token is. -/
theorem takeWhile_withReturn_append {k : Kind} (hreturn : k ≠ .carriageReturn) (ht : t.kind ≠ k)
    (us : List Token) :
    (t.withReturn ++ us).takeWhile (·.kind ≠ k) = t.withReturn ++ us.takeWhile (·.kind ≠ k) := by
  apply List.takeWhile_append_of_pos
  intro u hu
  rcases kind_of_mem_withReturn hu with hkind | hkind
  · exact decide_eq_true (hkind ▸ ht)
  · exact decide_eq_true (hkind ▸ hreturn.symm)

section

variable {k : Kind} (hfeed : k ≠ .newLine) (hreturn : k ≠ .carriageReturn)
include hfeed hreturn

/-- Tokens up to one of a certain kind are recast to those up to the same one. -/
theorem takeWhile_withReturn (ts : List Token) :
    (ts.flatMap withReturn).takeWhile (·.kind ≠ k)
      = (ts.takeWhile (·.kind ≠ k)).flatMap withReturn := by
  induction ts with
  | nil => rfl
  | cons t ts ih =>
      rw [List.flatMap_cons]
      by_cases ht : t.kind = k
      · rw [withReturn_of_ne (ht ▸ hfeed), List.takeWhile_cons_of_neg (by simpa using ht)]
        exact List.takeWhile_cons_of_neg (by simpa using ht)
      · rw [List.takeWhile_cons_of_pos (by simpa using ht), List.flatMap_cons, ← ih]
        exact takeWhile_withReturn_append hreturn ht _

theorem dropWhile_withReturn (ts : List Token) :
    (ts.flatMap withReturn).dropWhile (·.kind ≠ k)
      = (ts.dropWhile (·.kind ≠ k)).flatMap withReturn := by
  have hwhole : (ts.flatMap withReturn).takeWhile (·.kind ≠ k)
      ++ (ts.flatMap withReturn).dropWhile (·.kind ≠ k)
      = (ts.takeWhile (·.kind ≠ k)).flatMap withReturn
        ++ (ts.dropWhile (·.kind ≠ k)).flatMap withReturn := by
    rw [List.takeWhile_append_dropWhile, ← List.flatMap_append, List.takeWhile_append_dropWhile]
  rw [takeWhile_withReturn hfeed hreturn] at hwhole
  exact List.append_cancel_left hwhole

end

/-- Up to the first begin marker, tokens are recast one by one. -/
theorem takeWhile_recast (ts : List Token) :
    (recast ts).takeWhile (·.kind ≠ .beginMarker)
      = (ts.takeWhile (·.kind ≠ .beginMarker)).flatMap withReturn := by
  have hstop : ∀ (u : Token) (us : List Token), u.kind = .beginMarker →
      (u :: us).takeWhile (·.kind ≠ .beginMarker) = [] := by
    intro u us hu
    exact List.takeWhile_cons_of_neg (by simpa using hu)
  induction ts with
  | nil => rfl
  | cons t ts ih =>
      by_cases ht : t.kind = .beginMarker
      · rw [hstop t ts ht]
        cases ts with
        | nil =>
            rw [recast_begin ht]
            exact hstop _ _ ht
        | cons feed ts =>
            rw [recast_begin_cons ht]
            exact hstop _ _ ht
      · rw [recast_cons ht, List.takeWhile_cons_of_pos (by simpa using ht), List.flatMap_cons, ← ih]
        exact takeWhile_withReturn_append (by decide) ht _

/-- What a recast token covers. -/
theorem chars_withReturn (ht : t.Bare) (hkind : t.kind ≠ .beginMarker) :
    chars t.withReturn = withReturns t.literal.toList := by
  by_cases hfeed : t.kind = .newLine
  · rw [withReturn_of_newLine hfeed, ht.feed hfeed]
    show "\r".toList ++ (t.literal.toList ++ []) = _
    rw [ht.feed hfeed]
    rfl
  · rw [withReturn_of_ne hfeed, withReturns_of_not_mem (ht.inLine hfeed hkind)]
    exact List.append_nil _

theorem chars_flatMap_withReturn
    (hts : ∀ t ∈ ts, t.Bare ∧ t.kind ≠ .beginMarker) :
    chars (ts.flatMap withReturn) = withReturns (chars ts) := by
  induction ts with
  | nil => rfl
  | cons t ts ih =>
      obtain ⟨hbare, hkind⟩ := hts t List.mem_cons_self
      rw [List.flatMap_cons, chars_append, chars_cons, withReturns_append,
        chars_withReturn hbare hkind, ih fun u hu => hts u (List.mem_cons_of_mem t hu)]

end Token

-- ============================================================ bodies

namespace Body

variable {ts : List Token} {t : Token}

theorem dropBlanks_concat_of_blank (h : t.kind.isBlank = true) (ts : List Token) :
    dropBlanks (ts ++ [t]) = dropBlanks ts := by
  apply Text.dropTrailing_append_of_all
  intro u hu
  rw [List.mem_singleton.mp hu]
  exact h

theorem dropLastBreak_of_ne (h : t.kind ≠ .newLine) : dropLastBreak (ts ++ [t]) = ts ++ [t] := by
  unfold dropLastBreak
  rw [List.getLast?_concat]
  exact if_neg h

/-- A recast token at the end stays if the token stays. -/
theorem dropBlanks_withReturn_concat (h : t.kind.isBlank = false) (ts : List Token) :
    dropBlanks (ts ++ t.withReturn) = ts ++ t.withReturn := by
  obtain ⟨front, last, hlast, hkind⟩ := Token.exists_withReturn t
  rw [hlast, ← List.append_assoc]
  exact Text.dropTrailing_append_of_not _ _ (hkind ▸ h)

theorem dropBlanks_withReturn (ts : List Token) :
    dropBlanks (ts.flatMap Token.withReturn) = (dropBlanks ts).flatMap Token.withReturn := by
  induction ts using List.reverseRecOn with
  | nil => rfl
  | append_singleton ts t ih =>
      rw [List.flatMap_append, List.flatMap_singleton]
      cases ht : t.kind.isBlank with
      | true =>
          have hfeed : t.kind ≠ .newLine := by
            intro hfeed
            rw [hfeed] at ht
            cases ht
          rw [Token.withReturn_of_ne hfeed, dropBlanks_concat_of_blank ht,
            dropBlanks_concat_of_blank ht, ih]
      | false =>
          have hkept : dropBlanks (ts ++ [t]) = ts ++ [t] :=
            Text.dropTrailing_append_of_not _ _ ht
          rw [dropBlanks_withReturn_concat ht, hkept, List.flatMap_append, List.flatMap_singleton]

theorem dropComment_withReturn (ts : List Token) :
    dropComment (ts.flatMap Token.withReturn) = (dropComment ts).flatMap Token.withReturn := by
  rcases List.eq_nil_or_concat' ts with rfl | ⟨ts, t, rfl⟩
  · rfl
  rw [List.flatMap_append, List.flatMap_singleton]
  cases ht : t.kind.isComment with
  | true =>
      have hfeed : t.kind ≠ .newLine := by
        intro hfeed
        rw [hfeed] at ht
        cases ht
      rw [Token.withReturn_of_ne hfeed, dropComment_append_of_comment ht,
        dropComment_append_of_comment ht, dropBlanks_withReturn]
  | false =>
      obtain ⟨front, last, hlast, hkind⟩ := Token.exists_withReturn t
      rw [dropComment_append ht, List.flatMap_append, List.flatMap_singleton, hlast,
        ← List.append_assoc, dropComment_append (hkind ▸ ht)]

/-- The line break at the end goes with the carriage return that was put in front of it. -/
theorem dropLastBreak_withReturn (hts : ∀ t ∈ ts, t.kind ≠ .carriageReturn) :
    dropLastBreak (ts.flatMap Token.withReturn)
      = (dropLastBreak ts).flatMap Token.withReturn := by
  rcases List.eq_nil_or_concat' ts with rfl | ⟨ts, t, rfl⟩
  · rfl
  rw [List.flatMap_append, List.flatMap_singleton]
  by_cases ht : t.kind = .newLine
  · have hnone : ∀ u ∈ ts.getLast?, decide (u.kind = .carriageReturn) = false := by
      intro u hu
      exact decide_eq_false (hts u (List.mem_append_left _ (List.mem_of_getLast? hu)))
    rw [dropLastBreak_append ht, dropLastIf_of_not hnone, Token.withReturn_of_newLine ht,
      List.append_cons, dropLastBreak_append (t := t.behindReturn) ht, dropLastIf_append rfl]
  · rw [Token.withReturn_of_ne ht, dropLastBreak_of_ne ht, dropLastBreak_of_ne ht,
      List.flatMap_append, List.flatMap_singleton, Token.withReturn_of_ne ht]

theorem dropBlanks_sublist (ts : List Token) : (dropBlanks ts).Sublist ts :=
  (Text.dropTrailing_isPrefix _ ts).sublist

theorem dropComment_sublist (ts : List Token) : (dropComment ts).Sublist ts := by
  unfold dropComment
  split
  · split
    · exact (dropBlanks_sublist _).trans (List.dropLast_sublist ts)
    · exact List.Sublist.refl ts
  · exact List.Sublist.refl ts

theorem dropLastBreak_sublist (ts : List Token) : (dropLastBreak ts).Sublist ts := by
  have hlastIf : ∀ us : List Token, (dropLastIf (· = .carriageReturn) us).Sublist us := by
    intro us
    unfold dropLastIf
    split
    · split
      · exact List.dropLast_sublist us
      · exact List.Sublist.refl us
    · exact List.Sublist.refl us
  unfold dropLastBreak
  split
  · split
    · exact (hlastIf _).trans (List.dropLast_sublist ts)
    · exact List.Sublist.refl ts
  · exact List.Sublist.refl ts

section

variable {feed feed' : Token} (hfeed : feed.kind = .newLine)
include hfeed

/-- Behind a begin marker, trimming takes the line feed off and then goes on from the end. -/
theorem trim_feed (ts : List Token) :
    trim (feed :: ts) = dropLastBreak (dropComment (dropBlanks ts)) := by
  unfold trim
  rw [dropFirstBreak_cons hfeed]

theorem trim_feed_sublist (ts : List Token) : (trim (feed :: ts)).Sublist ts := by
  rw [trim_feed hfeed]
  exact ((dropLastBreak_sublist _).trans (dropComment_sublist _)).trans (dropBlanks_sublist ts)

/-- Trimming a recast body is recasting the trimmed body. -/
theorem trim_withReturn (hfeed' : feed'.kind = .newLine)
    (hts : ∀ t ∈ ts, t.kind ≠ .carriageReturn) :
    trim (feed' :: ts.flatMap Token.withReturn)
      = (trim (feed :: ts)).flatMap Token.withReturn := by
  have hkept : ∀ t ∈ dropComment (dropBlanks ts), t.kind ≠ .carriageReturn := by
    intro t ht
    exact hts t (((dropComment_sublist _).trans (dropBlanks_sublist ts)).subset ht)
  rw [trim_feed hfeed', trim_feed hfeed, dropBlanks_withReturn, dropComment_withReturn,
    dropLastBreak_withReturn hkept]

/-- The text of a recast body is that of the body with other line ends. -/
theorem text_withReturn (hfeed' : feed'.kind = .newLine)
    (hts : ∀ t ∈ ts, t.Bare ∧ t.kind ≠ .beginMarker) :
    text (feed' :: ts.flatMap Token.withReturn) = asCrlf (text (feed :: ts)) := by
  unfold text asCrlf
  rw [trim_withReturn hfeed hfeed' fun t ht => (hts t ht).1.notReturn, String.toList_ofList]
  exact congrArg String.ofList (Token.chars_flatMap_withReturn fun t ht =>
    hts t ((trim_feed_sublist hfeed ts).subset ht))

theorem dollar_not_mem_text (hts : ∀ t ∈ ts, t.Bare) : '$' ∉ (text (feed :: ts)).toList := by
  unfold text
  rw [String.toList_ofList]
  intro hmem
  obtain ⟨t, ht, hc⟩ := List.mem_flatMap.mp hmem
  exact (hts t ((trim_feed_sublist hfeed ts).subset ht)).constant hc

end

end Body

-- ============================================================ labels

/-- No identifier reaches over a line end, of whatever style. -/
theorem firstId?_asCrlf (value : String) : firstId? (asCrlf value) = firstId? value := by
  unfold firstId? asCrlf
  rw [String.toList_ofList, dropWhile_withReturns (by decide) (by decide),
    takeWhile_withReturns (by decide) (by decide)]

theorem Label.link_asCrlf (r : Repository) (c : Category) (value : String) (a : Label) :
    a.link r c (asCrlf value) = a.link r c value := by
  unfold link identify
  rw [firstId?_asCrlf]

-- ============================================================ outcomes

section

variable {r : Repository} {env : Environment} {t : Token} {literal : String}

/-- A body with other line ends is closed to the same problem or the same block. -/
theorem Block.agrees_close {a : Label} {body body' : List Token} {e : Token}
    (htext : Body.text body' = asCrlf (Body.text body)) (hdollar : '$' ∉ (Body.text body).toList) :
    Outcome.Agrees (Outcome.at t (close r env t a body e))
      (Outcome.at { t with literal } (close r env { t with literal } a body' e)) := by
  have hdollar' : '$' ∉ (asCrlf (Body.text body)).toList := by
    unfold asCrlf
    rw [String.toList_ofList]
    exact fun hmem => hdollar (mem_of_mem_withReturns (by decide) hmem)
  unfold close
  rw [htext, expand_of_not_mem hdollar, expand_of_not_mem hdollar']
  dsimp only
  cases a.category with
  | none => exact .problem _
  | some c =>
      dsimp only
      rw [Label.link_asCrlf]
      cases a.link r c (Body.text body) with
      | error p => exact .problem _
      | ok linked => exact .block ⟨rfl, rfl, rfl, ⟨rfl, rfl⟩, ⟨rfl, rfl⟩, rfl⟩

namespace Stretch

theorem before_cons {u : Token} (hu : u.kind ≠ .beginMarker) (ts : List Token) :
    before t (u :: ts) = ⟨t, u :: ts.takeWhile (·.kind ≠ .beginMarker)⟩ :=
  congrArg (mk t) (inside_before_of_ne (t := t) hu)

/-- A begin marker at the end of a text declares a bad label, or is not closed. -/
theorem agrees_outcome_nil :
    Outcome.Agrees (outcome r env ⟨t, []⟩) (outcome r env ⟨{ t with literal }, []⟩) := by
  unfold outcome
  dsimp only
  rw [show Token.declared { t with literal } = t.declared from rfl]
  cases t.declared with
  | error p => exact .problem _
  | ok a => exact .problem _

/-- What becomes of a begin marker is the same for a recast stretch, but for the line ends. -/
theorem agrees_outcome {feed feed' : Token} (hfeed : feed.kind = .newLine)
    (hfeed' : feed'.kind = .newLine) {ts : List Token}
    (hts : ∀ u ∈ ts, u.Bare ∧ u.kind ≠ .beginMarker) :
    Outcome.Agrees (outcome r env ⟨t, feed :: ts⟩)
      (outcome r env ⟨{ t with literal }, feed' :: ts.flatMap Token.withReturn⟩) := by
  have hbody : ∀ u ∈ ts.takeWhile (·.kind ≠ .endMarker), u.Bare ∧ u.kind ≠ .beginMarker :=
    fun u hu => hts u (List.takeWhile_subset _ hu)
  have hpass : ∀ (u : Token) (us : List Token), u.kind = .newLine →
      (u :: us).takeWhile (·.kind ≠ .endMarker) = u :: us.takeWhile (·.kind ≠ .endMarker)
        ∧ (u :: us).dropWhile (·.kind ≠ .endMarker) = us.dropWhile (·.kind ≠ .endMarker) := by
    intro u us hu
    simp [hu]
  unfold outcome
  dsimp only
  rw [show Token.declared { t with literal } = t.declared from rfl]
  cases t.declared with
  | error p => exact .problem _
  | ok a =>
      dsimp only
      rw [(hpass feed ts hfeed).1, (hpass feed ts hfeed).2, (hpass feed' _ hfeed').1,
        (hpass feed' _ hfeed').2, Token.dropWhile_withReturn (by decide) (by decide),
        Token.takeWhile_withReturn (by decide) (by decide)]
      cases hdrop : ts.dropWhile (·.kind ≠ .endMarker) with
      | nil => exact .problem _
      | cons e rest =>
          have he : e.kind ≠ .newLine := by
            have hhead :=
              List.head?_dropWhile_not (fun u : Token => decide (u.kind ≠ .endMarker)) ts
            rw [hdrop] at hhead
            intro he
            simp [he] at hhead
          rw [List.flatMap_cons, Token.withReturn_of_ne he]
          exact Block.agrees_close (Body.text_withReturn hfeed hfeed' hbody)
            (Body.dollar_not_mem_text hfeed fun u hu => (hbody u hu).1)

end Stretch

/-- Outside a block a recast token is passed over where the token is. -/
theorem Block.scan_withReturn_append (ht : t.kind ≠ .beginMarker) (ts : List Token) :
    scan r env (t.withReturn ++ ts) = scan r env ts := by
  apply scan_append
  intro u hu
  rcases Token.kind_of_mem_withReturn hu with hkind | hkind
  · exact hkind ▸ ht
  · rw [hkind]
    decide

/-- The scan of recast tokens gives the same outcomes, but for the line ends. -/
theorem Block.agrees_scan {ts : List Token} (hbare : ∀ u ∈ ts, u.Bare) (hfed : Token.Fed ts) :
    List.Forall₂ Outcome.Agrees (scan r env ts) (scan r env (Token.recast ts)) := by
  fun_induction Token.recast ts with
  | case1 =>
      rw [scan]
      exact .nil
  | case2 t ht =>
      rw [scan_begin ht, scan_begin (t := t.withReturnsInside) ht, scan]
      exact .cons Stretch.agrees_outcome_nil .nil
  | case3 t ht =>
      rw [scan_cons_of_ne ht, ← List.append_nil t.withReturn, scan_withReturn_append ht, scan]
      exact .nil
  | case4 t feed ts ht ih =>
      -- the line feed is the first token of both bodies, and both scans pass it
      have hfeed : feed.kind = .newLine := hfed [] t feed ts rfl ht
      have hfeed' : feed.behindReturn.kind = .newLine := hfeed
      have hnot : feed.kind ≠ .beginMarker := by
        rw [hfeed]
        decide
      have hinside : ∀ u ∈ ts.takeWhile (·.kind ≠ .beginMarker),
          u.Bare ∧ u.kind ≠ .beginMarker := by
        intro u hu
        have hmem : u ∈ t :: feed :: ts := by simp [List.takeWhile_subset _ hu]
        exact ⟨hbare u hmem, by simpa using List.mem_takeWhile_imp hu⟩
      rw [scan_begin ht, scan_begin (t := t.withReturnsTaken) ht, scan_cons_of_ne hnot,
        scan_cons_of_ne (t := feed.behindReturn) hnot, Stretch.before_cons hnot,
        Stretch.before_cons (u := feed.behindReturn) hnot, Token.takeWhile_recast]
      apply List.Forall₂.cons
      · exact Stretch.agrees_outcome hfeed hfeed' hinside
      · exact ih (fun u hu => hbare u (by simp [hu])) hfed.tail.tail
  | case5 t feed ts ht ih =>
      rw [scan_cons_of_ne ht, scan_withReturn_append ht]
      exact ih (fun u hu => hbare u (List.mem_cons_of_mem t hu)) hfed.tail

end

-- ============================================================ whole files

theorem Outcome.problems_of_agrees {os os' : List Outcome} (h : List.Forall₂ Agrees os os') :
    problems os' = problems os := by
  induction h with
  | nil => rfl
  | cons hagrees _ ih =>
      cases hagrees with
      | problem p => exact congrArg (p :: ·) ih
      | block _ => exact ih

theorem Outcome.blocks_of_agrees {os os' : List Outcome} (h : List.Forall₂ Agrees os os') :
    List.Forall₂ Block.SameButLineEnds (blocks os) (blocks os') := by
  induction h with
  | nil => exact .nil
  | cons hagrees _ ih =>
      cases hagrees with
      | problem p => exact ih
      | block hsame => exact .cons hsame ih

/-- The style of the line ends changes no problem and no block, but for the line ends in the
values of the blocks. -/
theorem outcomes_asCrlf (r : Repository) (env : Environment) (source : Source) (text : String)
    (hreturn : '\r' ∉ text.toList) (hdollar : '$' ∉ text.toList) :
    let outcomes := Block.outcomes r env source text
    let outcomes' := Block.outcomes r env source (asCrlf text)
    Outcome.problems outcomes' = Outcome.problems outcomes
      ∧ List.Forall₂ Block.SameButLineEnds (Outcome.blocks outcomes)
          (Outcome.blocks outcomes') := by
  intro outcomes outcomes'
  have hrecast : tokenize source (asCrlf text) = Token.recast (tokenize source text) := by
    unfold tokenize asCrlf
    rw [String.toList_ofList]
    exact Token.scan_withReturns hreturn
  have hagrees : List.Forall₂ Outcome.Agrees outcomes outcomes' := by
    show List.Forall₂ Outcome.Agrees outcomes (Block.scan r env (tokenize source (asCrlf text)))
    rw [hrecast]
    exact Block.agrees_scan (fun u hu => Token.bare_of_mem_scan hreturn hdollar hu)
      (Token.fed_scan source _ _)
  exact ⟨Outcome.problems_of_agrees hagrees, Outcome.blocks_of_agrees hagrees⟩

/-- A channel whose metadata go over two lines and whose id is read from its text, with its end
marker in a comment, and a block without a category. -/
def commentedText : String :=
  "//+gendoc category=channel \\\n parent=s type=nameId\n\na\nb\n\n<!-- //-gendoc\n"
    ++ "//+gendoc\n//-gendoc"

/-- In the other style the block keeps its inner line ends, which are CR LF now, and the problem
its place. -/
theorem outcomes_asCrlf_commented :
    let source : Source := ⟨"A.md", "docs/A.md"⟩
    let outcomes := Block.outcomes {} [] source commentedText
    let outcomes' := Block.outcomes {} [] source (asCrlf commentedText)
    ('\r' ∉ commentedText.toList ∧ '$' ∉ commentedText.toList)
      ∧ outcomes'.map (·.map Block.value)
        = [.ok "\r\na\r\nb\r\n", .error ⟨"A.md", 8, 1, .categoryRequired⟩]
      ∧ Outcome.problems outcomes' = Outcome.problems outcomes
      ∧ List.Forall₂ Block.SameButLineEnds (Outcome.blocks outcomes)
          (Outcome.blocks outcomes') := by
  intro source outcomes outcomes'
  have hbare : '\r' ∉ commentedText.toList ∧ '$' ∉ commentedText.toList := by decide +kernel
  exact ⟨hbare, by decide +kernel, outcomes_asCrlf {} [] source commentedText hbare.1 hbare.2⟩

end EventDocs
