/-
Things by name, kept in the order of their names. The order is part of the
type, so two maps with the same bindings are the same map.
-/

namespace EventDocs

/-- Put a binding in its place in the order of names. A binding of the same name
gives way. -/
def insertByName {α : Type} (name : String) (a : α) : List (String × α) → List (String × α)
  | [] => [(name, a)]
  | (other, b) :: rest =>
    if name < other then (name, a) :: (other, b) :: rest
    else if name = other then (name, a) :: rest
    else (other, b) :: insertByName name a rest

/-- The names of a list stand in strictly ascending order. -/
def Ascending {α : Type} (bindings : List (String × α)) : Prop :=
  bindings.Pairwise fun a b => a.1 < b.1

theorem mem_insertByName {α : Type} {name : String} {a : α} {bindings : List (String × α)}
    {x : String × α} (h : x ∈ insertByName name a bindings) :
    x = (name, a) ∨ x ∈ bindings := by
  induction bindings with
  | nil => simpa [insertByName] using h
  | cons b rest ih =>
    simp only [insertByName] at h
    split at h
    · simpa using h
    · split at h
      · rcases List.mem_cons.mp h with h | h
        · exact .inl h
        · exact .inr (List.mem_cons_of_mem _ h)
      · rcases List.mem_cons.mp h with h | h
        · exact .inr (h ▸ List.mem_cons_self)
        · exact (ih h).imp_right (List.mem_cons_of_mem _)

theorem Ascending.insertByName {α : Type} {name : String} {a : α}
    {bindings : List (String × α)} (h : Ascending bindings) :
    Ascending (insertByName name a bindings) := by
  induction bindings with
  | nil => simp [EventDocs.insertByName, Ascending]
  | cons b rest ih =>
    obtain ⟨below, tail⟩ := List.pairwise_cons.mp h
    simp only [EventDocs.insertByName]
    split
    · next hlt =>
      refine List.pairwise_cons.mpr ⟨fun x hx => ?_, h⟩
      rcases List.mem_cons.mp hx with rfl | hx
      · exact hlt
      · exact String.lt_trans hlt (below x hx)
    · next hnlt =>
      split
      · next heq => exact List.pairwise_cons.mpr ⟨fun x hx => heq ▸ below x hx, tail⟩
      · next hne =>
        refine List.pairwise_cons.mpr ⟨fun x hx => ?_, ih tail⟩
        rcases mem_insertByName hx with rfl | hx
        · exact Decidable.byContradiction fun h => hne (String.le_antisymm h hnlt)
        · exact below x hx

/-- Bindings of distinct names, in the order of the names. -/
structure NameMap (α : Type) where
  bindings : List (String × α)
  ascending : Ascending bindings

namespace NameMap

variable {α : Type}

def empty : NameMap α := ⟨[], .nil⟩

/-- Bind a name, whatever it was bound to before. -/
def insert (m : NameMap α) (name : String) (a : α) : NameMap α :=
  ⟨insertByName name a m.bindings, m.ascending.insertByName⟩

/-- The last of several bindings of one name counts. -/
def ofList (bindings : List (String × α)) : NameMap α :=
  bindings.foldl (fun m b => m.insert b.1 b.2) empty

theorem ext {m n : NameMap α} (h : m.bindings = n.bindings) : m = n := by
  cases m; cases n; simp_all

end NameMap

end EventDocs
