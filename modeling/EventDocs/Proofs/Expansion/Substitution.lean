import EventDocs.Expansion
import EventDocs.Proofs.ContextTree.LeafKey
import EventDocs.Proofs.InTurn
import EventDocs.Proofs.Token.Lines
import Mathlib.Data.List.TakeWhile

/-
References are replaced, each once and by itself.

A text is put together from passages: plain ones without a dollar sign, and references in their
two forms. Divided again, it gives the passages back, plain ones character by character, because
no passage reaches into the next (`collect_written`). So a text is expanded passage by passage
(`expand_text`): what a value holds is not looked at again, and the first passage that fails is
the failure.

What a passage becomes is decided by the last entry for its name (`nonEmpty_ok_iff`,
`nonEmpty_error_iff`).
-/

namespace EventDocs

-- ============================================================ statement vocabulary

/-- A part of a text: plain, or a reference to a variable, in braces or without. -/
inductive Passage where
  | plain (text : List Char)
  | braced (name : List Char)
  | bare (name : List Char)
deriving DecidableEq, Repr

/-- A name that variables have: letters and digits of ASCII and underscores. -/
def IsVariable (name : List Char) : Prop :=
  name ≠ [] ∧ ∀ c ∈ name, c.isAlphanum = true ∨ c = '_'

instance (name : List Char) : Decidable (IsVariable name) :=
  @instDecidableAnd (name ≠ []) _ _ (List.decidableBAll _ name)

namespace Passage

/-- The passage as it is written. -/
def written : Passage → List Char
  | plain text => text
  | braced name => '$' :: '{' :: name ++ ['}']
  | bare name => '$' :: name

/-- The variable that the passage refers to. -/
def name? : Passage → Option (List Char)
  | plain _ => none
  | braced name | bare name => some name

/-- The passage once its variable has a value. -/
def replaced (value : List Char → List Char) : Passage → List Char
  | plain text => text
  | braced name | bare name => value name

/-- Can the passage be written in front of a text? A reference without braces must not run into
what follows. -/
def Precedes (rest : List Char) : Passage → Prop
  | plain text => '$' ∉ text
  | braced name => IsVariable name
  | bare name => IsVariable name ∧ ∀ c ∈ rest.head?, Text.isNameChar c = false

/-- Can the passages be written one after the other? -/
def Compose : List Passage → Prop
  | [] => True
  | p :: ps => p.Precedes (ps.flatMap written) ∧ Compose ps

instance (rest : List Char) : (p : Passage) → Decidable (p.Precedes rest)
  | plain _ => inferInstanceAs (Decidable (_ ∉ _))
  | braced _ => inferInstanceAs (Decidable (IsVariable _))
  | bare _ => @instDecidableAnd (IsVariable _) _ _ (Option.decidableForallMem rest.head?)

instance decidableCompose : (ps : List Passage) → Decidable (Compose ps)
  | [] => isTrue trivial
  | p :: ps => @instDecidableAnd (p.Precedes (ps.flatMap written)) _ _ (decidableCompose ps)

/-- The text of some passages. -/
def text (ps : List Passage) : String := .ofList (ps.flatMap written)

end Passage

namespace Environment

/-- An entry binds what stands before its first equals sign to what stands behind it. -/
def Binds (entry : String) (name value : List Char) : Prop :=
  entry.toList = name ++ '=' :: value ∧ '=' ∉ name

/-- The last entry for a name binds it to a value. -/
def LastBinding (env : Environment) (name value : List Char) : Prop :=
  LastGives (fun entry v => Binds entry name v) env value

/-- No entry is for the name. -/
def Unbound (env : Environment) (name : List Char) : Prop := ∀ e ∈ env, ∀ v, ¬ Binds e name v

end Environment

-- ============================================================ cuts

namespace Text

theorem cutOn_append_cons {c : Char} {before : List Char} (h : c ∉ before) (after : List Char) :
    cutOn [c] (before ++ c :: after) = some (before, after) := by
  induction before with
  | nil => simp [cutOn]
  | cons b before ih =>
      obtain ⟨hb, hbefore⟩ := not_or.mp (mt List.mem_cons.mpr h)
      simp [cutOn, hb, ih hbefore]

theorem cutOn_singleton_iff {c : Char} {cs before after : List Char} :
    cutOn [c] cs = some (before, after) ↔ cs = before ++ c :: after ∧ c ∉ before := by
  constructor
  · intro h
    have hcs : cs = before ++ c :: after := by simpa using (append_of_cutOn h).symm
    refine ⟨hcs, fun hmem => ?_⟩
    -- an earlier occurrence would have been the cut
    obtain ⟨front, more, rfl, hfront⟩ := List.eq_append_cons_of_mem hmem
    rw [hcs, List.append_assoc, List.cons_append, cutOn_append_cons hfront, Option.some.injEq,
      Prod.mk.injEq] at h
    have hlength := congrArg List.length h.1
    simp at hlength
  · intro h
    obtain ⟨rfl, hbefore⟩ := h
    exact cutOn_append_cons hbefore after

end Text

-- ============================================================ entries

namespace Environment

variable {env : Environment} {name value : List Char} {entry : String}

theorem binding?_iff : binding? entry = some (name, value) ↔ Binds entry name value :=
  Text.cutOn_singleton_iff

theorem value?_eq_none_iff : env.value? name = none ↔ Unbound env name := by
  unfold value?
  rw [Option.map_eq_none_iff, List.find?_eq_none]
  constructor
  · intro h e he v hv
    have hmem : (name, v) ∈ env.reverse.filterMap binding? :=
      List.mem_filterMap.mpr ⟨e, List.mem_reverse.mpr he, binding?_iff.mpr hv⟩
    exact h (name, v) hmem (decide_eq_true rfl)
  · intro h b hb hname
    obtain ⟨e, he, hbinding⟩ := List.mem_filterMap.mp hb
    obtain rfl : b.1 = name := of_decide_eq_true hname
    exact h e (List.mem_reverse.mp he) b.2 (binding?_iff.mp hbinding)

theorem value?_cons_iff : value? (entry :: env) name = some value
    ↔ env.value? name = some value ∨ Binds entry name value ∧ env.value? name = none := by
  unfold value?
  rw [List.reverse_cons, List.filterMap_append, List.find?_append, ← binding?_iff]
  cases (env.reverse.filterMap binding?).find? (·.1 = name) with
  | some b => simp
  | none =>
      cases hbinding : binding? entry with
      | none => simp [hbinding]
      | some b =>
          obtain ⟨n, v⟩ := b
          by_cases hn : n = name
          · simp [hbinding, hn]
          · simp [hbinding, hn]

theorem value?_eq_some_iff : env.value? name = some value ↔ LastBinding env name value := by
  induction env with
  | nil => simp [value?, LastBinding, not_lastGives_nil]
  | cons entry env ih =>
      rw [value?_cons_iff, ih, value?_eq_none_iff]
      exact lastGives_cons.symm

/-- A variable has a value if its last entry says something. -/
theorem nonEmpty_ok_iff :
    env.nonEmpty name = .ok value ↔ value ≠ [] ∧ LastBinding env name value := by
  rw [← value?_eq_some_iff]
  unfold nonEmpty
  cases env.value? name with
  | none => simp
  | some v =>
      cases v with
      | nil => simp
      | cons c v =>
          simp only [Except.ok.injEq, Option.some.injEq]
          constructor
          · rintro rfl
            exact ⟨List.cons_ne_nil c v, rfl⟩
          · exact And.right

/-- Otherwise it has none because there is no entry, or because the last one is empty. -/
theorem nonEmpty_error_iff {reason : Missing} : env.nonEmpty name = .error reason
    ↔ reason = .unset ∧ Unbound env name ∨ reason = .empty ∧ LastBinding env name [] := by
  rw [← value?_eq_some_iff, ← value?_eq_none_iff]
  unfold nonEmpty
  cases env.value? name with
  | none => simp [eq_comm]
  | some v =>
      cases v with
      | nil => simp [eq_comm]
      | cons c v => simp

end Environment

-- ============================================================ dividing

theorem isNameChar_of_isAlphanum {c : Char} (h : c.isAlphanum = true ∨ c = '_') :
    Text.isNameChar c = true := by
  unfold Text.isNameChar Text.isAlphanumeric
  rcases h with h | rfl
  · have hascii : c.toNat < 128 := by
      delta Char.isAlphanum Char.isAlpha Char.isUpper Char.isLower Char.isDigit at h
      simp only [Bool.or_eq_true, Bool.and_eq_true, decide_eq_true_eq, ge_iff_le,
        UInt32.le_iff_toNat_le, Char.reduceVal, UInt32.reduceToNat] at h
      have hvalue : c.toNat = c.val.toNat := rfl
      omega
    simp [hascii, h]
  · decide

namespace Piece

/-- Plain text is copied character by character. -/
theorem split_append_of_not_mem {text : List Char} (h : '$' ∉ text) (rest : List Char) :
    split (text ++ rest) = text.map (fun c => .copied [c]) ++ split rest := by
  induction text with
  | nil => rfl
  | cons c text ih =>
      have hc : c ≠ '$' := fun hc => h (hc ▸ List.mem_cons_self)
      rw [List.cons_append, Piece.split.eq_5 c _ (fun _ h => absurd h hc) (fun _ h => absurd h hc)
        (fun _ _ h => absurd h hc), ih fun hmem => h (List.mem_cons_of_mem c hmem)]
      rfl

theorem ofBraces_of_isVariable {name : List Char} (h : IsVariable name) :
    ofBraces name = .reference name none := by
  have hcut : Text.cutOn [':', '-'] name = none := by
    rw [Text.cutOn_eq_none_iff]
    intro hoccurs
    rcases h.2 ':' (hoccurs.subset (by decide)) with hc | hc
    · exact absurd hc (by decide)
    · exact absurd hc (by decide)
  unfold ofBraces
  rw [hcut]

theorem split_braced {name : List Char} (h : IsVariable name) (rest : List Char) :
    split ('$' :: '{' :: name ++ '}' :: rest) = .reference name none :: split rest := by
  have hbrace : '}' ∉ name := by
    intro hmem
    rcases h.2 '}' hmem with hc | hc
    · exact absurd hc (by decide)
    · exact absurd hc (by decide)
  rw [List.cons_append, List.cons_append, split]
  split
  next inside after hcut =>
    rw [Text.cutOn_append_cons hbrace] at hcut
    cases hcut
    rw [ofBraces_of_isVariable h]
  next hcut =>
    rw [Text.cutOn_append_cons hbrace] at hcut
    cases hcut

theorem split_bare {name rest : List Char} (h : IsVariable name)
    (hrest : ∀ c ∈ rest.head?, Text.isNameChar c = false) :
    split ('$' :: name ++ rest) = .reference name none :: split rest := by
  obtain ⟨c, cs, rfl⟩ := List.exists_cons_of_ne_nil h.1
  obtain ⟨hc, hcs⟩ := List.forall_mem_cons.mp fun d hd => isNameChar_of_isAlphanum (h.2 d hd)
  have hdollar : c ≠ '$' := by
    rintro rfl
    exact absurd hc (by decide)
  have hbrace : c ≠ '{' := by
    rintro rfl
    exact absurd hc (by decide)
  have hname : (cs ++ rest).takeWhile Text.isNameChar = cs := by
    rw [Lexeme.takeWhile_append_of_stop hrest, List.takeWhile_eq_self_iff.mpr hcs]
  have hmore : (cs ++ rest).dropWhile Text.isNameChar = rest := by
    rw [Lexeme.dropWhile_append_of_stop hrest, List.dropWhile_eq_nil_iff.mpr hcs, List.nil_append]
  rw [List.cons_append, List.cons_append, split.eq_4 c (cs ++ rest) hbrace hdollar, if_pos hc,
    hname, hmore]

end Piece

-- ============================================================ passage by passage

namespace Passage

variable {lookup : List Char → Except Missing (List Char)} {ps : List Passage} {p : Passage}

/-- What a passage becomes, whatever stands around it. -/
def resolve (lookup : List Char → Except Missing (List Char)) (p : Passage) :
    Except Unresolved (List Char) :=
  match p.name? with
  | none => .ok p.written
  | some name => (lookup name).mapError fun reason => ⟨.ofList name, reason⟩

/-- What the pieces of a text come to. -/
def collect (lookup : List Char → Except Missing (List Char)) (cs : List Char) :
    Except Unresolved (List Char) :=
  ((Piece.split cs).mapM (Piece.resolve lookup)).map List.flatten

theorem collect_reference {cs rest name : List Char}
    (hsplit : Piece.split cs = .reference name none :: Piece.split rest)
    (hname : p.name? = some name) :
    collect lookup cs = (do return (← p.resolve lookup) ++ (← collect lookup rest)) := by
  have hresolve : Piece.resolve lookup (.reference name none) = p.resolve lookup := by
    cases hlookup : lookup name with
    | error reason => simp [resolve, hname, hlookup, Piece.resolve, Except.mapError]
    | ok value => simp [resolve, hname, hlookup, Piece.resolve, Except.mapError]
  unfold collect
  rw [hsplit, List.mapM_cons, hresolve]
  cases p.resolve lookup with
  | error e => rfl
  | ok v => cases (Piece.split rest).mapM (Piece.resolve lookup) <;> rfl

theorem collect_plain {text : List Char} (h : '$' ∉ text) (rest : List Char) :
    collect lookup (text ++ rest) = (do return text ++ (← collect lookup rest)) := by
  have hcopied : (text.map fun c => Piece.copied [c]).mapM (Piece.resolve lookup)
      = .ok (text.map ([·])) := by
    rw [mapM_ok_iff, List.forall₂_map_left_iff, List.forall₂_map_right_iff]
    exact List.forall₂_same.mpr fun c _ => rfl
  have hflat : (text.map ([·])).flatten = text := by
    rw [← List.flatMap_def, List.flatMap_singleton']
  unfold collect
  rw [Piece.split_append_of_not_mem h, List.mapM_append, hcopied]
  cases (Piece.split rest).mapM (Piece.resolve lookup) with
  | error e => rfl
  | ok vs =>
      show Except.ok (text.map ([·]) ++ vs).flatten = _
      rw [List.flatten_append, hflat]
      rfl

/-- A passage in front of a text is replaced by itself, and then the text. -/
theorem collect_written {rest : List Char} (h : p.Precedes rest) :
    collect lookup (p.written ++ rest)
      = (do return (← p.resolve lookup) ++ (← collect lookup rest)) := by
  cases p with
  | plain text => exact collect_plain h rest
  | braced name =>
      have hsplit : Piece.split ((braced name).written ++ rest)
          = .reference name none :: Piece.split rest := by
        rw [← Piece.split_braced h rest]
        simp [written]
      exact collect_reference hsplit rfl
  | bare name => exact collect_reference (Piece.split_bare h.1 h.2) rfl

theorem collect_flatMap (h : Compose ps) : collect lookup (ps.flatMap written)
    = (ps.mapM (resolve lookup)).map List.flatten := by
  induction ps with
  | nil =>
      unfold collect
      rw [List.flatMap_nil, Piece.split]
      rfl
  | cons p ps ih =>
      rw [List.flatMap_cons, collect_written h.1, ih h.2, List.mapM_cons]
      cases p.resolve lookup with
      | error e => rfl
      | ok v => cases ps.mapM (resolve lookup) <;> rfl

/-- A text is expanded passage by passage. -/
theorem expand_text (h : Compose ps) : expand lookup (text ps)
    = (ps.mapM (resolve lookup)).map fun parts => .ofList parts.flatten := by
  have hexpand : expand lookup (text ps)
      = (collect lookup (ps.flatMap written)).map String.ofList := by
    unfold expand collect text
    rw [String.toList_ofList]
    cases (Piece.split (ps.flatMap written)).mapM (Piece.resolve lookup) <;> rfl
  rw [hexpand, collect_flatMap h]
  cases ps.mapM (resolve lookup) <;> rfl

-- ============================================================ values

variable {env env' : Environment}

/-- If the passage refers to a variable, the variable has a value. -/
def Resolvable (env : Environment) (p : Passage) : Prop :=
  ∀ name ∈ p.name?, ∃ value, value ≠ [] ∧ env.LastBinding name value

theorem exists_resolve_ok_iff : (∃ v, p.resolve env.nonEmpty = .ok v) ↔ p.Resolvable env := by
  unfold resolve Resolvable
  cases p.name? with
  | none => simp
  | some name =>
      simp only [Option.mem_some_iff, forall_eq', ← Environment.nonEmpty_ok_iff]
      cases env.nonEmpty name with
      | error e => simp [Except.mapError]
      | ok v => simp [Except.mapError]

theorem resolve_error_iff {u : Unresolved} : p.resolve env.nonEmpty = .error u
    ↔ ∃ name, p.name? = some name ∧ u.name = .ofList name
      ∧ (u.reason = .unset ∧ env.Unbound name
        ∨ u.reason = .empty ∧ env.LastBinding name []) := by
  obtain ⟨uname, reason⟩ := u
  unfold resolve
  cases p.name? with
  | none => simp
  | some name =>
      simp only [Option.some.injEq, exists_eq_left', ← Environment.nonEmpty_error_iff]
      cases env.nonEmpty name with
      | error e => simp [Except.mapError, eq_comm]
      | ok v => simp [Except.mapError]

theorem resolve_of_values {value : List Char → List Char}
    (h : ∀ name ∈ p.name?, value name ≠ [] ∧ env.LastBinding name (value name)) :
    p.resolve env.nonEmpty = .ok (p.replaced value) := by
  cases p with
  | plain text => rfl
  | braced name | bare name =>
      have hvalue := Environment.nonEmpty_ok_iff.mpr (h name rfl)
      simp [resolve, name?, hvalue, Except.mapError, replaced]

theorem resolve_congr
    (h : ∀ name ∈ p.name?, ∀ v, env.LastBinding name v ↔ env'.LastBinding name v) :
    p.resolve env.nonEmpty = p.resolve env'.nonEmpty := by
  unfold resolve
  cases hname : p.name? with
  | none => rfl
  | some name =>
      have hvalue : env.value? name = env'.value? name := by
        apply Option.ext
        intro v
        rw [Environment.value?_eq_some_iff, Environment.value?_eq_some_iff]
        exact h name hname v
      have hlookup : env.nonEmpty name = env'.nonEmpty name := by
        unfold Environment.nonEmpty
        rw [hvalue]
      simp only [hlookup]

end Passage

-- ============================================================ texts

open Passage in
/-- Where every variable that a text refers to has a value, the text is expanded to what it is
with each reference replaced by its value, whatever the value holds. Otherwise the error names the
first variable that has none, and says whether it is unset or empty. Nothing but the last bindings
of these variables matters. -/
theorem expand_substitutes {ps : List Passage} (h : Compose ps) (env : Environment) :
    ((∃ r, expand env.nonEmpty (text ps) = .ok r)
        ↔ ∀ p ∈ ps, ∀ name ∈ p.name?, ∃ value, value ≠ [] ∧ env.LastBinding name value)
      ∧ (∀ value : List Char → List Char,
          (∀ p ∈ ps, ∀ name ∈ p.name?, value name ≠ [] ∧ env.LastBinding name (value name)) →
            expand env.nonEmpty (text ps) = .ok (.ofList (ps.flatMap (replaced value))))
      ∧ (∀ u, expand env.nonEmpty (text ps) = .error u
          ↔ ∃ before p after, ps = before ++ p :: after
            ∧ (∀ q ∈ before, ∀ name ∈ q.name?, ∃ value, value ≠ [] ∧ env.LastBinding name value)
            ∧ ∃ name, p.name? = some name ∧ u.name = .ofList name
              ∧ (u.reason = .unset ∧ env.Unbound name
                ∨ u.reason = .empty ∧ env.LastBinding name []))
      ∧ ∀ env' : Environment,
          (∀ p ∈ ps, ∀ name ∈ p.name?, ∀ v, env.LastBinding name v ↔ env'.LastBinding name v) →
            expand env.nonEmpty (text ps) = expand env'.nonEmpty (text ps) := by
  simp only [expand_text h]
  refine ⟨?_, ?_, ?_, ?_⟩
  · have hparts : (∀ p ∈ ps, ∃ v, p.resolve env.nonEmpty = .ok v) ↔ ∀ p ∈ ps, p.Resolvable env := by
      simp only [exists_resolve_ok_iff]
    rw [exists_map_ok_iff, exists_mapM_ok_iff, hparts]
    rfl
  · intro value hvalue
    refine map_ok_iff.mpr ⟨ps.map (replaced value), mapM_ok_iff.mpr ?_, by rw [List.flatMap_def]⟩
    rw [List.forall₂_map_right_iff]
    exact List.forall₂_same.mpr fun p hp => resolve_of_values (hvalue p hp)
  · intro u
    rw [map_error_iff, mapM_error_iff]
    simp only [exists_resolve_ok_iff, resolve_error_iff]
    rfl
  · intro env' hbindings
    rw [mapM_congr fun p hp => resolve_congr (hbindings p hp)]

/-- Both forms side by side, a value with a dollar sign, braces and an equals sign, and an entry
that is overruled; then with an empty value. -/
theorem expand_substitutes_adjacent :
    let ps : List Passage := [.plain "see ".toList, .bare "A".toList, .braced "B_1".toList,
      .plain "x\x7d=".toList]
    let env : Environment := ["A=old", "B_1=$A=\x7b\x7d", "A=new"]
    let env' : Environment := ["A=new", "B_1=x", "B_1="]
    Passage.Compose ps ∧ Passage.text ps = "see $A$\x7bB_1\x7dx\x7d="
      ∧ expand env.nonEmpty (Passage.text ps) = .ok "see new$A=\x7b\x7dx\x7d="
      ∧ expand env'.nonEmpty (Passage.text ps) = .error ⟨"B_1", .empty⟩ := by
  intro ps env env'
  have hps : Passage.Compose ps := by decide
  have hfirst : env.LastBinding "A".toList "new".toList :=
    Environment.value?_eq_some_iff.mp (by decide)
  have hsecond : env.LastBinding "B_1".toList "$A=\x7b\x7d".toList :=
    Environment.value?_eq_some_iff.mp (by decide)
  have hfirst' : env'.LastBinding "A".toList "new".toList :=
    Environment.value?_eq_some_iff.mp (by decide)
  have hsecond' : env'.LastBinding "B_1".toList [] :=
    Environment.value?_eq_some_iff.mp (by decide)
  obtain ⟨-, hvalues, -, -⟩ := expand_substitutes hps env
  obtain ⟨-, -, herror, -⟩ := expand_substitutes hps env'
  refine ⟨hps, by decide, ?_, ?_⟩
  · apply hvalues fun name => if name = ['A'] then "new".toList else "$A=\x7b\x7d".toList
    intro p hp name hname
    simp only [ps, List.mem_cons, List.not_mem_nil, or_false] at hp
    rcases hp with rfl | rfl | rfl | rfl
    · cases hname
    · cases hname
      exact ⟨by decide, hfirst⟩
    · cases hname
      exact ⟨by decide, hsecond⟩
    · cases hname
  · refine (herror _).mpr ⟨[.plain "see ".toList, .bare "A".toList], .braced "B_1".toList,
      [.plain "x\x7d=".toList], rfl, ?_, "B_1".toList, rfl, rfl, Or.inr ⟨rfl, hsecond'⟩⟩
    intro q hq name hname
    simp only [List.mem_cons, List.not_mem_nil, or_false] at hq
    rcases hq with rfl | rfl
    · cases hname
    · cases hname
      exact ⟨_, by decide, hfirst'⟩

end EventDocs
