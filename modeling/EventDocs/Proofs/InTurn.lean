import Mathlib.Data.List.Forall2

/-
Lists that are gone through in turn. Where each element is read by itself, the results are
collected in order and the first failure is the failure of the whole. Where a later element
overrules an earlier one, the last that gives anything decides.
-/

namespace EventDocs

-- ============================================================ the first failure

theorem map_ok_iff {ε α β : Type} {x : Except ε α} {f : α → β} {b : β} :
    x.map f = .ok b ↔ ∃ a, x = .ok a ∧ f a = b := by
  cases x with
  | error e => simp [Except.map]
  | ok a => simp [Except.map]

theorem exists_map_ok_iff {ε α β : Type} {x : Except ε α} {f : α → β} :
    (∃ b, x.map f = .ok b) ↔ ∃ a, x = .ok a := by
  simp only [map_ok_iff]
  tauto

theorem map_error_iff {ε α β : Type} {x : Except ε α} {f : α → β} {e : ε} :
    x.map f = .error e ↔ x = .error e := by
  cases x with
  | error d => simp [Except.map]
  | ok a => simp [Except.map]

theorem mapM_ok_iff {ε α β : Type} {f : α → Except ε β} {xs : List α} {ys : List β} :
    xs.mapM f = .ok ys ↔ List.Forall₂ (fun x y => f x = .ok y) xs ys := by
  induction xs generalizing ys with
  | nil => simp [pure, Except.pure, eq_comm]
  | cons x xs ih =>
      rw [List.mapM_cons]
      cases hx : f x with
      | error e =>
          constructor
          · intro h
            cases h
          · intro h
            cases h with
            | cons hy _ =>
                rw [hx] at hy
                cases hy
      | ok y =>
          cases hxs : xs.mapM f with
          | error e =>
              have hnone : ∀ zs, ¬ List.Forall₂ (fun x y => f x = .ok y) xs zs := by
                intro zs hzs
                rw [ih.mpr hzs] at hxs
                cases hxs
              simp [bind, Except.bind, List.forall₂_cons_left_iff, hnone]
          | ok zs =>
              have hzs : ∀ ws, List.Forall₂ (fun x y => f x = .ok y) xs ws ↔ zs = ws := by
                intro ws
                rw [← ih, hxs, Except.ok.injEq]
              simp [bind, Except.bind, pure, Except.pure, List.forall₂_cons_left_iff, hx, hzs,
                eq_comm]

theorem mapM_congr {ε α β : Type} {f g : α → Except ε β} {xs : List α}
    (h : ∀ x ∈ xs, f x = g x) : xs.mapM f = xs.mapM g := by
  induction xs with
  | nil => rfl
  | cons x xs ih =>
      obtain ⟨hx, hxs⟩ := List.forall_mem_cons.mp h
      rw [List.mapM_cons, List.mapM_cons, hx, ih hxs]

theorem exists_mapM_ok_iff {ε α β : Type} {f : α → Except ε β} {xs : List α} :
    (∃ ys, xs.mapM f = .ok ys) ↔ ∀ x ∈ xs, ∃ y, f x = .ok y := by
  simp only [mapM_ok_iff]
  induction xs with
  | nil => simp
  | cons x xs ih =>
      rw [List.forall_mem_cons, ← ih]
      constructor
      · intro h
        obtain ⟨ys, hys⟩ := h
        cases hys with
        | cons head tail => exact ⟨⟨_, head⟩, _, tail⟩
      · intro h
        obtain ⟨⟨y, hy⟩, ys, hys⟩ := h
        exact ⟨y :: ys, .cons hy hys⟩

theorem mapM_cons_error_iff {ε α β : Type} {f : α → Except ε β} {x : α} {xs : List α} {e : ε} :
    (x :: xs).mapM f = .error e
      ↔ f x = .error e ∨ (∃ b, f x = .ok b) ∧ xs.mapM f = .error e := by
  rw [List.mapM_cons]
  cases f x with
  | error d => simp [bind, Except.bind]
  | ok b => cases xs.mapM f <;> simp [bind, Except.bind, pure, Except.pure]

/-- The failure is that of the first element that fails. -/
theorem mapM_error_iff {ε α β : Type} {f : α → Except ε β} {xs : List α} {e : ε} :
    xs.mapM f = .error e ↔ ∃ before x after, xs = before ++ x :: after
      ∧ (∀ y ∈ before, ∃ b, f y = .ok b) ∧ f x = .error e := by
  induction xs with
  | nil => simp [pure, Except.pure]
  | cons x xs ih =>
      rw [mapM_cons_error_iff, ih]
      constructor
      · intro h
        rcases h with hx | ⟨hx, before, y, after, rfl, hbefore, hy⟩
        · exact ⟨[], x, xs, rfl, by simp, hx⟩
        · exact ⟨x :: before, y, after, rfl, List.forall_mem_cons.mpr ⟨hx, hbefore⟩, hy⟩
      · intro h
        obtain ⟨before, y, after, hsplit, hbefore, hy⟩ := h
        cases before with
        | nil =>
            obtain ⟨rfl, rfl⟩ := List.cons.inj hsplit
            exact Or.inl hy
        | cons z before =>
            obtain ⟨rfl, rfl⟩ := List.cons.inj hsplit
            obtain ⟨hx, hbefore⟩ := List.forall_mem_cons.mp hbefore
            exact Or.inr ⟨hx, before, y, after, rfl, hbefore, hy⟩

theorem mapM_some_iff {α β : Type} {f : α → Option β} {xs : List α} {ys : List β} :
    xs.mapM f = some ys ↔ List.Forall₂ (fun x y => f x = some y) xs ys := by
  induction xs generalizing ys with
  | nil => simp [eq_comm]
  | cons x xs ih =>
      rw [List.mapM_cons, List.forall₂_cons_left_iff]
      simp only [Option.bind_eq_bind, Option.bind_eq_some_iff, Option.pure_def, Option.some.injEq,
        ih]
      constructor
      · intro hsome
        obtain ⟨y, hy, zs, hzs, rfl⟩ := hsome
        exact ⟨y, zs, hy, hzs, rfl⟩
      · intro hsome
        obtain ⟨y, zs, hy, hzs, rfl⟩ := hsome
        exact ⟨y, hy, zs, hzs, rfl⟩

-- ============================================================ the last that counts

/-- The last element that gives anything gives `b`. -/
def LastGives {α β : Type} (gives : α → β → Prop) (xs : List α) (b : β) : Prop :=
  ∃ before x after, xs = before ++ x :: after ∧ gives x b ∧ ∀ y ∈ after, ∀ c, ¬ gives y c

theorem not_lastGives_nil {α β : Type} (gives : α → β → Prop) (b : β) :
    ¬ LastGives gives [] b := by
  simp [LastGives]

theorem lastGives_cons {α β : Type} {gives : α → β → Prop} {x : α} {xs : List α} {b : β} :
    LastGives gives (x :: xs) b
      ↔ LastGives gives xs b ∨ gives x b ∧ ∀ y ∈ xs, ∀ c, ¬ gives y c := by
  constructor
  · intro h
    obtain ⟨before, y, after, hsplit, hy, hafter⟩ := h
    cases before with
    | nil =>
        obtain ⟨rfl, rfl⟩ := List.cons.inj hsplit
        exact Or.inr ⟨hy, hafter⟩
    | cons z before =>
        obtain ⟨rfl, rfl⟩ := List.cons.inj hsplit
        exact Or.inl ⟨before, y, after, rfl, hy, hafter⟩
  · intro h
    rcases h with ⟨before, y, after, rfl, hy, hafter⟩ | ⟨hx, hxs⟩
    · exact ⟨x :: before, y, after, rfl, hy, hafter⟩
    · exact ⟨[], x, xs, rfl, hx, hxs⟩

end EventDocs
