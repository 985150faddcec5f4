import EventDocs.Block.Scan
import Mathlib.Data.List.Forall2
import Mathlib.Data.List.TakeWhile

/-
What becomes of a begin marker is decided by the marker and by the tokens up to the next
begin marker, and by nothing else in the file.

The scan does not look like that. It reads a body up to any marker, so one marker may end
the body of another; it drops a body when the metadata before it are bad, and then meets
the end marker of that body as a stray one; and it goes on from a different token after
each kind of problem. The rule that ties this together is that tokens other than begin
markers are nothing to a scan that is not inside a block (`scan_append`). Wherever the scan
goes on, it goes on within the stretch of its begin marker or right behind it, so it might
as well go on right behind the begin marker itself (`scan_begin`).
-/

namespace EventDocs

-- ============================================================ statement vocabulary

/-- A begin marker and the tokens behind it that come before the next one. -/
structure Stretch where
  opening : Token
  inside : List Token

/-- The stretch of `opening` in front of the tokens `ts`. -/
def Stretch.before (opening : Token) (ts : List Token) : Stretch :=
  ⟨opening, ts.takeWhile (·.kind ≠ .beginMarker)⟩

/-- Tokens cut at their begin markers. -/
def stretches : List Token → List Stretch
  | [] => []
  | t :: ts =>
    if t.kind = .beginMarker then .before t ts :: stretches ts else stretches ts

namespace Stretch

/-- The begin marker declares a label. -/
def Declares (s : Stretch) (a : Label) : Prop :=
  firstIllegal? s.opening.metadata = none ∧ Label.parse s.opening.metadata = .ok a

/-- The first end marker of the stretch is `e`, and `body` is what comes before it. -/
def Closes (s : Stretch) (body : List Token) (e : Token) : Prop :=
  ∃ rest, s.inside = body ++ e :: rest ∧ e.kind = .endMarker
    ∧ ∀ t ∈ body, t.kind ≠ .endMarker

/-- What becomes of the begin marker: the first problem that there is, or its block. -/
inductive Yields (r : Repository) (env : Environment) (s : Stretch) : Outcome → Prop where
  | illegal {c : Char} : firstIllegal? s.opening.metadata = some c →
      Yields r env s (.error (.at s.opening (.illegal c.toNat)))
  | badTag {e : TagError} : firstIllegal? s.opening.metadata = none →
      Label.parse s.opening.metadata = .error e →
      Yields r env s (.error (.at s.opening (.tag e)))
  | unclosed {a : Label} : s.Declares a → (∀ t ∈ s.inside, t.kind ≠ .endMarker) →
      Yields r env s (.error (.at s.opening .noEndMarker))
  | unresolved {a : Label} {body : List Token} {e : Token} {u : Unresolved} :
      s.Declares a → s.Closes body e → expand env.nonEmpty (Body.text body) = .error u →
      Yields r env s (.error (.at s.opening (.unresolved u)))
  | uncategorised {a : Label} {body : List Token} {e : Token} {value : String} :
      s.Declares a → s.Closes body e → expand env.nonEmpty (Body.text body) = .ok value →
      a.category = none → Yields r env s (.error (.at s.opening .categoryRequired))
  | unlinked {a : Label} {body : List Token} {e : Token} {value : String} {c : Category}
      {p : Problem} :
      s.Declares a → s.Closes body e → expand env.nonEmpty (Body.text body) = .ok value →
      a.category = some c → a.link r c value = .error p →
      Yields r env s (.error (.at s.opening p))
  | block {a linked : Label} {body : List Token} {e : Token} {value : String} {c : Category} :
      s.Declares a → s.Closes body e → expand env.nonEmpty (Body.text body) = .ok value →
      a.category = some c → a.link r c value = .ok linked →
      Yields r env s (.ok ⟨s.opening, linked, c.precedence, value, e⟩)

end Stretch

-- ============================================================ the cut

theorem map_opening_stretches (ts : List Token) :
    (stretches ts).map (·.opening) = ts.filter (·.kind = .beginMarker) := by
  induction ts with
  | nil => rfl
  | cons t ts ih =>
      unfold stretches
      by_cases ht : t.kind = .beginMarker
      · rw [if_pos ht, List.filter_cons_of_pos (by simpa using ht), List.map_cons, ih,
          Stretch.before]
      · rw [if_neg ht, List.filter_cons_of_neg (by simpa using ht), ih]

/-- Cutting loses nothing: tokens before the first begin marker, then the stretches. -/
theorem flatMap_stretches (ts : List Token) :
    ts.takeWhile (·.kind ≠ .beginMarker)
      ++ (stretches ts).flatMap (fun s => s.opening :: s.inside) = ts := by
  induction ts with
  | nil => rfl
  | cons t ts ih =>
      unfold stretches
      by_cases ht : t.kind = .beginMarker
      · rw [if_pos ht, List.takeWhile_cons_of_neg (by simpa using ht), List.flatMap_cons,
          List.nil_append, Stretch.before, List.cons_append, ih]
      · rw [if_neg ht, List.takeWhile_cons_of_pos (by simpa using ht), List.cons_append, ih]

/-- No begin marker stands inside a stretch. -/
theorem kind_of_mem_inside {ts : List Token} {s : Stretch} (hs : s ∈ stretches ts) {t : Token}
    (ht : t ∈ s.inside) : t.kind ≠ .beginMarker := by
  induction ts with
  | nil => cases hs
  | cons u ts ih =>
      unfold stretches at hs
      by_cases hu : u.kind = .beginMarker
      · rw [if_pos hu] at hs
        rcases List.mem_cons.mp hs with rfl | hs
        · simpa using List.mem_takeWhile_imp ht
        · exact ih hs
      · rw [if_neg hu] at hs
        exact ih hs

namespace Stretch

variable {t u : Token} {ts : List Token}

theorem inside_before_of_begin (hu : u.kind = .beginMarker) : (before t (u :: ts)).inside = [] := by
  simp [before, hu]

theorem inside_before_of_ne (hu : u.kind ≠ .beginMarker) :
    (before t (u :: ts)).inside = u :: (before t ts).inside := by
  simp [before, hu]

/-- A stretch goes on through tokens without a begin marker. -/
theorem inside_before_append {front : List Token} (hfront : ∀ u ∈ front, u.kind ≠ .beginMarker) :
    (before t (front ++ ts)).inside = front ++ (before t ts).inside :=
  List.takeWhile_append_of_pos fun u hu => decide_eq_true (hfront u hu)

end Stretch

-- ============================================================ one outcome

namespace Stretch

variable {r : Repository} {env : Environment} {s : Stretch} {a : Label} {body : List Token}
  {e : Token} {o : Outcome}

theorem declares_iff : s.Declares a ↔ s.opening.declared = .ok a := by
  unfold Declares Token.declared
  cases firstIllegal? s.opening.metadata with
  | some c => simp
  | none => cases Label.parse s.opening.metadata <;> simp

/-- What comes before the first end marker, and what it starts. -/
theorem closes_iff : s.Closes body e ↔
    s.inside.takeWhile (·.kind ≠ .endMarker) = body
      ∧ (s.inside.dropWhile (·.kind ≠ .endMarker)).head? = some e := by
  constructor
  · rintro ⟨rest, hinside, he, hbody⟩
    have hall : ∀ t ∈ body, (decide (t.kind ≠ .endMarker)) = true :=
      fun t ht => decide_eq_true (hbody t ht)
    rw [hinside, List.takeWhile_append_of_pos hall, List.dropWhile_append_of_pos hall]
    simp [he]
  · rintro ⟨rfl, hhead⟩
    obtain ⟨rest, hrest⟩ := List.head?_eq_some_iff.mp hhead
    refine ⟨rest, ?_, ?_, ?_⟩
    · rw [← hrest, List.takeWhile_append_dropWhile]
    · have hnot := List.head?_dropWhile_not (fun t : Token => decide (t.kind ≠ .endMarker)) s.inside
      rw [hhead] at hnot
      simpa using hnot
    · intro t ht
      simpa using List.mem_takeWhile_imp ht

/-- The outcome as the scan computes it. -/
def outcome (r : Repository) (env : Environment) (s : Stretch) : Outcome :=
  match s.opening.declared with
  | .error p => .error (.at s.opening p)
  | .ok a =>
    match s.inside.dropWhile (·.kind ≠ .endMarker) with
    | [] => .error (.at s.opening .noEndMarker)
    | e :: _ =>
      Outcome.at s.opening
        (Block.close r env s.opening a (s.inside.takeWhile (·.kind ≠ .endMarker)) e)

theorem outcome_of_unclosed (ha : s.Declares a) (hnone : ∀ t ∈ s.inside, t.kind ≠ .endMarker) :
    s.outcome r env = .error (.at s.opening .noEndMarker) := by
  have hdrop : s.inside.dropWhile (·.kind ≠ .endMarker) = [] :=
    List.dropWhile_eq_nil_iff.mpr fun t ht => decide_eq_true (hnone t ht)
  unfold outcome
  rw [declares_iff.mp ha]
  simp only [hdrop]

theorem outcome_of_closes (ha : s.Declares a) (hclose : s.Closes body e) :
    s.outcome r env = Outcome.at s.opening (Block.close r env s.opening a body e) := by
  obtain ⟨hbody, hhead⟩ := closes_iff.mp hclose
  obtain ⟨rest, hrest⟩ := List.head?_eq_some_iff.mp hhead
  unfold outcome
  rw [declares_iff.mp ha]
  simp only [hrest, hbody]

theorem Yields.eq_outcome (h : s.Yields r env o) : o = s.outcome r env := by
  cases h with
  | illegal hc => simp [outcome, Token.declared, hc]
  | badTag hnone he => simp [outcome, Token.declared, hnone, he]
  | unclosed ha hnone => rw [outcome_of_unclosed ha hnone]
  | unresolved ha hclose hu =>
      rw [outcome_of_closes ha hclose]
      simp [Block.close, hu, Outcome.at]
  | uncategorised ha hclose hvalue hc =>
      rw [outcome_of_closes ha hclose]
      simp [Block.close, hvalue, hc, Outcome.at]
  | unlinked ha hclose hvalue hc hp =>
      rw [outcome_of_closes ha hclose]
      simp [Block.close, hvalue, hc, hp, Outcome.at, bind, Except.bind]
  | block ha hclose hvalue hc hlinked =>
      rw [outcome_of_closes ha hclose]
      simp [Block.close, hvalue, hc, hlinked, Outcome.at, bind, Except.bind, pure, Except.pure]

/-- A closed stretch yields the first problem of its body and its label, or its block. -/
theorem yields_of_closes (ha : s.Declares a) (hclose : s.Closes body e) :
    s.Yields r env (Outcome.at s.opening (Block.close r env s.opening a body e)) := by
  unfold Block.close
  cases hvalue : expand env.nonEmpty (Body.text body) with
  | error u => exact .unresolved ha hclose hvalue
  | ok value =>
      cases hc : a.category with
      | none => exact .uncategorised ha hclose hvalue hc
      | some c =>
          dsimp only
          cases hlink : a.link r c value with
          | error p => exact .unlinked ha hclose hvalue hc hlink
          | ok linked => exact .block ha hclose hvalue hc hlink

theorem yields_outcome (r : Repository) (env : Environment) (s : Stretch) :
    s.Yields r env (s.outcome r env) := by
  cases hillegal : firstIllegal? s.opening.metadata with
  | some c =>
      have houtcome : s.outcome r env = .error (.at s.opening (.illegal c.toNat)) := by
        simp [outcome, Token.declared, hillegal]
      exact houtcome ▸ .illegal hillegal
  | none =>
      cases hparse : Label.parse s.opening.metadata with
      | error e =>
          have houtcome : s.outcome r env = .error (.at s.opening (.tag e)) := by
            simp [outcome, Token.declared, hillegal, hparse]
          exact houtcome ▸ .badTag hillegal hparse
      | ok a =>
          have ha : s.Declares a := ⟨hillegal, hparse⟩
          cases hdrop : s.inside.dropWhile (·.kind ≠ .endMarker) with
          | nil =>
              have hnone : ∀ t ∈ s.inside, t.kind ≠ .endMarker :=
                fun t ht => of_decide_eq_true (List.dropWhile_eq_nil_iff.mp hdrop t ht)
              rw [outcome_of_unclosed ha hnone]
              exact .unclosed ha hnone
          | cons e rest =>
              have hclose := closes_iff.mpr ⟨rfl, List.head?_eq_some_iff.mpr ⟨rest, hdrop⟩⟩
              rw [outcome_of_closes ha hclose]
              exact yields_of_closes ha hclose

/-- Whatever the outcome, it belongs to the begin marker. -/
theorem Yields.located (h : s.Yields r env o) :
    (∃ b, o = .ok b ∧ b.beginToken = s.opening)
      ∨ ∃ p, o = .error p ∧ p.file = s.opening.source.file ∧ p.line = s.opening.line
          ∧ p.column = s.opening.column := by
  cases h with
  | block => exact Or.inl ⟨_, rfl, rfl⟩
  | _ => exact Or.inr ⟨_, rfl, rfl, rfl, rfl⟩

theorem existsUnique_yields (r : Repository) (env : Environment) (s : Stretch) :
    ∃! o, s.Yields r env o :=
  ⟨_, yields_outcome r env s, fun _ h => h.eq_outcome⟩

end Stretch

-- ============================================================ the scan

namespace Block

variable {r : Repository} {env : Environment} {t : Token} {ts : List Token}

/-- Outside a block, a token that is no begin marker is passed over. -/
theorem scan_cons_of_ne (ht : t.kind ≠ .beginMarker) : scan r env (t :: ts) = scan r env ts := by
  rw [scan, if_neg ht]

theorem scan_append {front : List Token} (hfront : ∀ t ∈ front, t.kind ≠ .beginMarker) :
    scan r env (front ++ ts) = scan r env ts := by
  induction front with
  | nil => rfl
  | cons t front ih =>
      rw [List.cons_append, scan_cons_of_ne (hfront t List.mem_cons_self)]
      exact ih fun u hu => hfront u (List.mem_cons_of_mem t hu)

/-- The scan reads a body up to any marker, whichever it is. -/
theorem kind_of_mem_body {u : Token} (hu : u ∈ ts.takeWhile (!·.kind.isMarker)) :
    u.kind ≠ .beginMarker ∧ u.kind ≠ .endMarker := by
  have hmarker := List.mem_takeWhile_imp hu
  constructor <;> (intro hk; simp [hk, Kind.isMarker] at hmarker)

theorem kind_of_marker {marker : Token} {rest : List Token}
    (hdrop : ts.dropWhile (!·.kind.isMarker) = marker :: rest) :
    marker.kind = .beginMarker ∨ marker.kind = .endMarker := by
  have hmarker := List.head?_dropWhile_not (fun t : Token => !t.kind.isMarker) ts
  rw [hdrop] at hmarker
  cases hk : marker.kind <;> simp [hk, Kind.isMarker] at hmarker ⊢

/-- What the scan does at a begin marker: one outcome, decided by the stretch of the marker,
and then as if it had just passed the marker. -/
theorem scan_begin (ht : t.kind = .beginMarker) :
    scan r env (t :: ts) = (Stretch.before t ts).outcome r env :: scan r env ts := by
  rw [scan, if_pos ht]
  split
  · next p hp => simp [Stretch.outcome, Stretch.before, hp]
  · next a ha =>
    have ha : (Stretch.before t ts).Declares a := Stretch.declares_iff.mpr ha
    -- in every case the tokens are the body, and then no marker or the one that ends it
    have hcut : ts.takeWhile (!·.kind.isMarker) ++ ts.dropWhile (!·.kind.isMarker) = ts :=
      List.takeWhile_append_dropWhile
    have hbody : ∀ u ∈ ts.takeWhile (!·.kind.isMarker), u.kind ≠ .beginMarker :=
      fun u hu => (kind_of_mem_body hu).1
    have hinside : (Stretch.before t ts).inside = ts.takeWhile (!·.kind.isMarker)
        ++ (Stretch.before t (ts.dropWhile (!·.kind.isMarker))).inside := by
      rw [← Stretch.inside_before_append hbody, hcut]
    have hskip : scan r env ts = scan r env (ts.dropWhile (!·.kind.isMarker)) :=
      (congrArg (scan r env) hcut).symm.trans (scan_append hbody)
    split
    · next hdrop =>
      have hnone : ∀ u ∈ (Stretch.before t ts).inside, u.kind ≠ .endMarker := by
        intro u hu
        rw [hinside, hdrop] at hu
        exact (kind_of_mem_body (by simpa [Stretch.before] using hu)).2
      rw [Stretch.outcome_of_unclosed ha hnone, hskip, hdrop, scan]
      rfl
    · next marker rest hdrop =>
      rw [hdrop] at hinside hskip
      split
      · next hend =>
        have hne : marker.kind ≠ .beginMarker := by rw [hend]; decide
        rw [Stretch.inside_before_of_ne hne] at hinside
        rw [Stretch.outcome_of_closes ha ⟨_, hinside, hend, fun u hu => (kind_of_mem_body hu).2⟩,
          hskip, scan_cons_of_ne hne]
        rfl
      · next hend =>
        have hbegin := (kind_of_marker hdrop).resolve_right hend
        rw [Stretch.inside_before_of_begin hbegin, List.append_nil] at hinside
        rw [Stretch.outcome_of_unclosed ha (hinside ▸ fun u hu => (kind_of_mem_body hu).2), hskip]
        rfl

/-- All outcomes, begin marker by begin marker. -/
theorem scan_eq (r : Repository) (env : Environment) (ts : List Token) :
    scan r env ts = (stretches ts).map (Stretch.outcome r env) := by
  induction ts with
  | nil => rw [scan]; rfl
  | cons t ts ih =>
      unfold stretches
      by_cases ht : t.kind = .beginMarker
      · rw [if_pos ht, List.map_cons, scan_begin ht, ih]
      · rw [if_neg ht, scan_cons_of_ne ht, ih]

end Block

-- ============================================================ whole files

theorem filter_isOk (outcomes : List Outcome) :
    outcomes.filter (·.isOk) = (Outcome.blocks outcomes).map .ok := by
  induction outcomes with
  | nil => rfl
  | cons o rest ih =>
      cases o with
      | ok b => exact congrArg (Except.ok b :: ·) ih
      | error p => exact ih

theorem filter_not_isOk (outcomes : List Outcome) :
    outcomes.filter (!·.isOk) = (Outcome.problems outcomes).map .error := by
  induction outcomes with
  | nil => rfl
  | cons o rest ih =>
      cases o with
      | ok b => exact ih
      | error p => exact congrArg (Except.error p :: ·) ih

/-- A file has one outcome for each begin marker, in order. It is decided by the stretch of
the marker alone and belongs to the marker. The blocks and the problems of the file are
these outcomes and no others. -/
theorem outcomes_decided_by_stretches (r : Repository) (env : Environment) (source : Source)
    (text : String) :
    let tokens := tokenize source text
    let outcomes := Block.outcomes r env source text
    (tokens.takeWhile (·.kind ≠ .beginMarker)
          ++ (stretches tokens).flatMap (fun s => s.opening :: s.inside) = tokens
        ∧ (stretches tokens).map (·.opening) = tokens.filter (·.kind = .beginMarker)
        ∧ ∀ s ∈ stretches tokens, ∀ t ∈ s.inside, t.kind ≠ .beginMarker)
      ∧ List.Forall₂ (Stretch.Yields r env) (stretches tokens) outcomes
      ∧ (∀ s, ∃! o, Stretch.Yields r env s o)
      ∧ (∀ s o, Stretch.Yields r env s o →
          (∃ b, o = .ok b ∧ b.beginToken = s.opening)
            ∨ ∃ p, o = .error p ∧ p.file = s.opening.source.file ∧ p.line = s.opening.line
                ∧ p.column = s.opening.column)
      ∧ outcomes.filter (·.isOk) = (Outcome.blocks outcomes).map .ok
      ∧ outcomes.filter (!·.isOk) = (Outcome.problems outcomes).map .error := by
  intro tokens outcomes
  refine ⟨⟨flatMap_stretches tokens, map_opening_stretches tokens, ?_⟩, ?_,
    Stretch.existsUnique_yields r env, fun _ _ h => h.located, filter_isOk _, filter_not_isOk _⟩
  · intro s hs t ht
    exact kind_of_mem_inside hs ht
  · rw [show outcomes = _ from Block.scan_eq r env tokens, List.forall₂_map_right_iff,
      List.forall₂_same]
    intro s _
    exact Stretch.yields_outcome r env s

end EventDocs
