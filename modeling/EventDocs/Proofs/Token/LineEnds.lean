import EventDocs.Proofs.Token.Metadata

/-
What becomes of the tokens of a text when its lines end in CR LF instead of LF. Nothing, but at
the line ends: a line feed gets a carriage return in front of it, which is a token of its own
(`Token.withReturn`), except behind a begin marker, which takes the carriage return with it as it
takes everything up to the line feed (`Token.recast`).

It rests on one lexeme at a time. A lexeme that is no begin marker stops in front of a line feed
and in front of a carriage return alike, so it is the same in both texts
(`Lexeme.read_withReturns`); the metadata of a begin marker are the same but for a carriage return
at their end (`Metadata.split_withReturns`). And places are the same, because a line feed starts a
new line whatever stands in front of it (`Position.after_withReturns`).
-/

namespace EventDocs

-- ============================================================ texts

/-- A text with a carriage return in front of every line feed. -/
def withReturns (cs : List Char) : List Char :=
  cs.flatMap fun c => if c = '\n' then ['\r', '\n'] else [c]

section

variable {c : Char} {cs : List Char}

@[simp] theorem withReturns_nil : withReturns [] = [] := rfl

@[simp] theorem withReturns_newLine (cs : List Char) :
    withReturns ('\n' :: cs) = '\r' :: '\n' :: withReturns cs := rfl

theorem withReturns_cons (hc : c ≠ '\n') (cs : List Char) :
    withReturns (c :: cs) = c :: withReturns cs := by
  unfold withReturns
  rw [List.flatMap_cons, if_neg hc]
  rfl

@[simp] theorem withReturns_append (cs ds : List Char) :
    withReturns (cs ++ ds) = withReturns cs ++ withReturns ds :=
  List.flatMap_append

theorem withReturns_of_not_mem (h : '\n' ∉ cs) : withReturns cs = cs := by
  induction cs with
  | nil => rfl
  | cons c cs ih =>
      have hc : c ≠ '\n' := fun hc => h (hc ▸ List.mem_cons_self)
      rw [withReturns_cons hc, ih fun hcs => h (List.mem_cons_of_mem c hcs)]

theorem mem_of_mem_withReturns {d : Char} (hd : d ≠ '\r') (h : d ∈ withReturns cs) : d ∈ cs := by
  obtain ⟨c, hc, hmem⟩ := List.mem_flatMap.mp h
  split at hmem
  · next hfeed =>
    rcases List.mem_cons.mp hmem with hreturn | hmem
    · exact absurd hreturn hd
    · rw [List.mem_singleton.mp hmem]
      exact hfeed ▸ hc
  · exact List.mem_singleton.mp hmem ▸ hc

/-- What skips line feeds and carriage returns skips the line ends of both styles. -/
theorem dropWhile_withReturns {p : Char → Bool} (hreturn : p '\r' = true) (hfeed : p '\n' = true)
    (cs : List Char) : (withReturns cs).dropWhile p = withReturns (cs.dropWhile p) := by
  induction cs with
  | nil => rfl
  | cons c cs ih =>
      by_cases hc : c = '\n'
      · rw [hc, withReturns_newLine, List.dropWhile_cons_of_pos hreturn,
          List.dropWhile_cons_of_pos hfeed, List.dropWhile_cons_of_pos hfeed, ih]
      · rw [withReturns_cons hc, List.dropWhile_cons, List.dropWhile_cons, ih]
        split
        · rfl
        · rw [withReturns_cons hc]

/-- What stops at line feeds and at carriage returns stops at the line ends of both styles. -/
theorem takeWhile_withReturns {p : Char → Bool} (hreturn : ¬ p '\r' = true)
    (hfeed : ¬ p '\n' = true) (cs : List Char) :
    (withReturns cs).takeWhile p = cs.takeWhile p := by
  induction cs with
  | nil => rfl
  | cons c cs ih =>
      by_cases hc : c = '\n'
      · rw [hc, withReturns_newLine, List.takeWhile_cons_of_neg hreturn,
          List.takeWhile_cons_of_neg hfeed]
      · rw [withReturns_cons hc, List.takeWhile_cons, List.takeWhile_cons, ih]

/-- A text is one line and what starts with a line break, if anything. -/
theorem exists_line (cs : List Char) :
    ∃ line rest, cs = line ++ rest ∧ '\n' ∉ line ∧ StartsBroken rest
      ∧ StartsBroken (withReturns rest) := by
  refine ⟨cs.takeWhile (· ≠ '\n'), cs.dropWhile (· ≠ '\n'), List.takeWhile_append_dropWhile.symm,
    ?_, ?_⟩
  · intro hmem
    exact absurd (List.mem_takeWhile_imp hmem) (by decide)
  · have hnot := List.head?_dropWhile_not (fun c => decide (c ≠ '\n')) cs
    cases hdrop : cs.dropWhile (· ≠ '\n') with
    | nil => exact ⟨nofun, nofun⟩
    | cons c rest =>
        rw [hdrop] at hnot
        obtain rfl : c = '\n' := by simpa using hnot
        refine ⟨fun d hd => Or.inl (Option.some.inj hd).symm, ?_⟩
        rw [withReturns_newLine]
        exact fun d hd => Or.inr (Option.some.inj hd).symm

end

/-- A carriage return in front of a line feed makes no difference to where the next line starts. -/
theorem Position.after_withReturns (p : Position) (cs : List Char) :
    p.after (withReturns cs) = p.after cs := by
  induction cs generalizing p with
  | nil => rfl
  | cons c cs ih =>
      by_cases hc : c = '\n'
      · subst hc
        exact ih (p.step '\n')
      · rw [withReturns_cons hc]
        exact ih (p.step c)

-- ============================================================ one lexeme

namespace Lexeme

variable {c : Char} {cs : List Char}

/-- A lexeme that is no begin marker is read from its line alone. -/
theorem exists_read_line (hkind : (read c cs).kind ≠ .beginMarker) :
    ∃ line rest, cs = line ++ rest ∧ '\n' ∉ line ∧ read c cs = (read c line).before rest
      ∧ read c (withReturns cs) = (read c line).before (withReturns rest) := by
  obtain ⟨line, rest, rfl, hline, hbroken, hbroken'⟩ := exists_line cs
  have hshort : (read c line).kind ≠ .beginMarker := by
    intro hbegin
    obtain ⟨rfl, behind, rfl⟩ := read_kind_beginMarker.mp hbegin
    exact hkind (read_kind_beginMarker.mpr ⟨rfl, behind ++ rest, by simp⟩)
  refine ⟨line, rest, rfl, hline, read_append hbroken hshort, ?_⟩
  rw [withReturns_append, withReturns_of_not_mem hline]
  exact read_append hbroken' hshort

/-- Carriage returns at the line ends are left to what follows. -/
theorem read_withReturns (hkind : (read c cs).kind ≠ .beginMarker) :
    read c (withReturns cs) = { read c cs with rest := withReturns (read c cs).rest } := by
  obtain ⟨line, rest, -, hline, hread, hread'⟩ := exists_read_line hkind
  have hrest : '\n' ∉ (read c line).rest := by
    intro hmem
    have hwhole : '\n' ∈ c :: line := taken_append_rest c line ▸ List.mem_append_right _ hmem
    rcases List.mem_cons.mp hwhole with rfl | hmem'
    · rw [read_white rfl] at hmem
      exact hline hmem
    · exact hline hmem'
  rw [hread', hread]
  show before _ _ = { before _ _ with rest := withReturns ((read c line).rest ++ rest) }
  rw [withReturns_append, withReturns_of_not_mem hrest]
  rfl

/-- Line feeds are read alone, but for those that a begin marker takes. -/
theorem newLine_not_mem_taken (hc : c ≠ '\n') (hkind : (read c cs).kind ≠ .beginMarker) :
    '\n' ∉ (read c cs).taken := by
  obtain ⟨line, rest, -, hline, hread, -⟩ := exists_read_line hkind
  rw [hread]
  intro hmem
  have hwhole : '\n' ∈ c :: line := taken_append_rest c line ▸ List.mem_append_left _ hmem
  rcases List.mem_cons.mp hwhole with h | h
  · exact hc h.symm
  · exact hline h

end Lexeme

/-- Metadata take the carriage return with them that stands in front of their line end. -/
theorem Metadata.split_withReturns {cs : List Char} (h : '\r' ∉ cs) :
    split (withReturns cs)
      = ⟨withReturns (split cs).literal ++ (withReturns (split cs).rest).take 1,
          (split cs).captured ++ (withReturns (split cs).rest).take 1,
          (withReturns (split cs).rest).drop 1⟩ := by
  fun_induction split cs with
  | case1 => rfl
  | case2 cs => rfl
  | case3 cs m ih =>
      have hcs : '\r' ∉ cs := fun hmem => h (by simp [hmem])
      show split ('\\' :: '\r' :: '\n' :: withReturns cs) = _
      rw [split, ih hcs]
      rfl
  | case4 cs m ih => exact absurd (by simp) h
  | case5 c cs hc hbreak hreturn m ih =>
      have hcs : '\r' ∉ cs := fun hmem => h (List.mem_cons_of_mem c hmem)
      rw [withReturns_cons hc, split.eq_5 c _ hc, ih hcs]
      · dsimp only
        rw [withReturns_cons hc]
        rfl
      · -- behind a backslash there is no line feed of the text, and no other one either
        intro more hslash hmore
        cases cs with
        | nil => cases hmore
        | cons d cs =>
            by_cases hd : d = '\n'
            · exact hbreak cs hslash (by rw [hd])
            · rw [withReturns_cons hd] at hmore
              exact hd (List.cons.inj hmore).1
      · intro more hslash hmore
        cases cs with
        | nil => cases hmore
        | cons d cs =>
            by_cases hd : d = '\n'
            · exact hbreak cs hslash (by rw [hd])
            · rw [withReturns_cons hd] at hmore
              exact hcs ((List.cons.inj hmore).1 ▸ List.mem_cons_self)

namespace Lexeme

variable {c : Char} {cs : List Char}

theorem ne_newLine_of_begin (hkind : (read c cs).kind = .beginMarker) : c ≠ '\n' := by
  obtain ⟨rfl, -⟩ := read_kind_beginMarker.mp hkind
  decide

/-- Behind a begin marker stands a line feed, or nothing. -/
theorem rest_of_begin (hkind : (read c cs).kind = .beginMarker) :
    (read c cs).rest = [] ∨ ∃ more, (read c cs).rest = '\n' :: more := by
  obtain ⟨rfl, behind, rfl⟩ := read_kind_beginMarker.mp hkind
  exact Metadata.rest_split behind

/-- A begin marker takes the carriage return of the line end behind it, and captures the same. -/
theorem read_withReturns_begin (hcs : '\r' ∉ cs) (hkind : (read c cs).kind = .beginMarker) :
    read c (withReturns cs)
      = { read c cs with
          taken := withReturns (read c cs).taken ++ (withReturns (read c cs).rest).take 1
          rest := (withReturns (read c cs).rest).drop 1 } := by
  -- what is taken from what follows is a carriage return at most, and that is trimmed
  have hwhite : ∀ d ∈ (withReturns (read c cs).rest).take 1, Text.isWhite d = true := by
    rcases rest_of_begin hkind with hrest | ⟨more, hrest⟩
    · rw [hrest]
      nofun
    · rw [hrest]
      intro d hd
      rw [List.mem_singleton.mp hd]
      rfl
  obtain ⟨rfl, behind, rfl⟩ := read_kind_beginMarker.mp hkind
  have hbehind : '\r' ∉ behind := fun hmem => hcs (by simp [hmem])
  have hword : withReturns ('/' :: (beginWord ++ behind))
      = '/' :: (beginWord ++ withReturns behind) := rfl
  rw [read_beginMarker] at hwhite ⊢
  rw [hword, read_beginMarker, Metadata.split_withReturns hbehind]
  dsimp only at hwhite ⊢
  rw [Text.trim_append_of_white hwhite]
  rfl

end Lexeme

-- ============================================================ tokens

namespace Token

variable {source : Source} {t : Token} {ts : List Token}

/-- The token one column further, behind a carriage return. -/
def behindReturn (t : Token) : Token := { t with column := t.column + 1 }

/-- A line feed with a carriage return in front of it, or another token as it is. -/
def withReturn (t : Token) : List Token :=
  if t.kind = .newLine then
    [{ t with kind := .carriageReturn, literal := "\r" }, t.behindReturn]
  else [t]

/-- The begin marker with carriage returns in its text. -/
def withReturnsInside (t : Token) : Token :=
  { t with literal := .ofList (withReturns t.literal.toList) }

/-- The begin marker with carriage returns in its text and one behind it. -/
def withReturnsTaken (t : Token) : Token :=
  { t with literal := .ofList (withReturns t.literal.toList ++ ['\r']) }

/-- The tokens of a text, recast to those of the text with carriage returns. -/
def recast : List Token → List Token
  | [] => []
  | [t] => if t.kind = .beginMarker then [t.withReturnsInside] else t.withReturn
  | t :: feed :: ts =>
    if t.kind = .beginMarker then
      t.withReturnsTaken :: feed.behindReturn :: recast ts
    else t.withReturn ++ recast (feed :: ts)

theorem withReturn_of_newLine (h : t.kind = .newLine) :
    t.withReturn = [{ t with kind := .carriageReturn, literal := "\r" }, t.behindReturn] :=
  if_pos h

theorem withReturn_of_ne (h : t.kind ≠ .newLine) : t.withReturn = [t] := if_neg h

theorem recast_cons (h : t.kind ≠ .beginMarker) (ts : List Token) :
    recast (t :: ts) = t.withReturn ++ recast ts := by
  cases ts with
  | nil =>
      rw [recast.eq_2, if_neg h, recast.eq_1, List.append_nil]
  | cons feed ts => rw [recast, if_neg h]

theorem recast_begin (h : t.kind = .beginMarker) : recast [t] = [t.withReturnsInside] := by
  rw [recast, if_pos h]

theorem recast_begin_cons (h : t.kind = .beginMarker) (feed : Token) (ts : List Token) :
    recast (t :: feed :: ts) = t.withReturnsTaken :: feed.behindReturn :: recast ts := by
  rw [recast, if_pos h]

section

variable {p : Position} {c : Char} {cs : List Char}

theorem scan_withReturns_newLine (cs : List Char) :
    scan source p (withReturns ('\n' :: cs))
      = (ofLexeme source p (.single .newLine '\n' cs)).withReturn
        ++ scan source (p.after ['\n']) (withReturns cs) := by
  rw [withReturns_newLine, scan_cons_white Kind.ofWhite?_carriageReturn,
    scan_cons_white Kind.ofWhite?_newLine, withReturn_of_newLine rfl]
  rfl

theorem scan_withReturns_cons (hc : c ≠ '\n') (hkind : (Lexeme.read c cs).kind ≠ .beginMarker) :
    scan source p (withReturns (c :: cs))
      = ofLexeme source p (Lexeme.read c cs)
        :: scan source (p.after (Lexeme.read c cs).taken)
            (withReturns (Lexeme.read c cs).rest) := by
  rw [withReturns_cons hc, scan_cons, Lexeme.read_withReturns hkind]
  rfl

/-- A begin marker that is the last token stays the last token. -/
theorem scan_withReturns_lastBegin (hcs : '\r' ∉ cs)
    (hkind : (Lexeme.read c cs).kind = .beginMarker) (hrest : (Lexeme.read c cs).rest = []) :
    scan source p (withReturns (c :: cs))
      = [(ofLexeme source p (Lexeme.read c cs)).withReturnsInside] := by
  rw [withReturns_cons (Lexeme.ne_newLine_of_begin hkind), scan_cons,
    Lexeme.read_withReturns_begin hcs hkind]
  unfold withReturnsInside ofLexeme
  dsimp only
  rw [hrest, withReturns_nil, List.drop_nil, scan, List.take_nil, List.append_nil,
    String.toList_ofList]

/-- A begin marker takes the carriage return with it, and the line feed behind it stands one
column further. -/
theorem scan_withReturns_begin (hcs : '\r' ∉ cs)
    (hkind : (Lexeme.read c cs).kind = .beginMarker) {more : List Char}
    (hrest : (Lexeme.read c cs).rest = '\n' :: more) :
    let q := p.after (Lexeme.read c cs).taken
    scan source p (withReturns (c :: cs))
      = (ofLexeme source p (Lexeme.read c cs)).withReturnsTaken
        :: (ofLexeme source q (.single .newLine '\n' more)).behindReturn
        :: scan source (q.after ['\n']) (withReturns more) := by
  intro q
  have hplace : p.after (withReturns (Lexeme.read c cs).taken ++ ['\r'])
      = ⟨q.line, q.column + 1⟩ := by
    rw [Position.after_append, Position.after_withReturns]
    rfl
  rw [withReturns_cons (Lexeme.ne_newLine_of_begin hkind), scan_cons,
    Lexeme.read_withReturns_begin hcs hkind, hrest, withReturns_newLine]
  show _ :: scan source (p.after (withReturns (Lexeme.read c cs).taken ++ ['\r']))
    ('\n' :: withReturns more) = _
  rw [hplace, scan_cons_white Kind.ofWhite?_newLine]
  unfold withReturnsTaken ofLexeme
  dsimp only
  rw [String.toList_ofList]
  rfl

end

/-- The tokens of a text with carriage returns are those of the text without, recast. -/
theorem scan_withReturns {p : Position} {cs : List Char} (h : '\r' ∉ cs) :
    scan source p (withReturns cs) = recast (scan source p cs) := by
  fun_induction scan source p cs with
  | case1 =>
      rw [withReturns_nil, scan]
      rfl
  | case2 p c cs l ih =>
      have hcs : '\r' ∉ cs := fun hmem => h (List.mem_cons_of_mem c hmem)
      have hahead : '\r' ∉ l.rest := by
        intro hmem
        exact h (Lexeme.taken_append_rest c cs ▸ List.mem_append_right _ hmem)
      have ih := ih hahead
      by_cases hkind : l.kind = .beginMarker
      · rcases Lexeme.rest_of_begin hkind with hrest | ⟨more, hrest⟩
        · rw [scan_withReturns_lastBegin hcs hkind hrest, show l.rest = [] from hrest, scan,
            recast_begin hkind]
        · -- the induction hypothesis is about the line feed and what follows
          have hfeed := Kind.ofWhite?_newLine
          have hnot : (ofLexeme source (p.after l.taken) (.single .newLine '\n' more)).kind
              ≠ .beginMarker := show Kind.newLine ≠ Kind.beginMarker by decide
          rw [show l.rest = '\n' :: more from hrest, scan_withReturns_newLine,
            scan_cons_white hfeed, recast_cons hnot] at ih
          rw [scan_withReturns_begin hcs hkind hrest, List.append_cancel_left ih,
            show l.rest = '\n' :: more from hrest, scan_cons_white hfeed, recast_begin_cons hkind]
      · rw [recast_cons hkind, ← ih]
        by_cases hc : c = '\n'
        · subst hc
          exact scan_withReturns_newLine cs
        · have hfeed : l.kind ≠ .newLine :=
            fun h => hc (Lexeme.read_of_kind Kind.ofWhite?_newLine h).1
          rw [withReturn_of_ne hfeed]
          exact scan_withReturns_cons hc hkind

end Token

end EventDocs
