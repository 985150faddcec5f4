import EventDocs.NameMap
import Mathlib.Data.List.Nodup
import Mathlib.Data.String.Basic

/-
What a map by name holds.

A map is filled one binding after the other, so each fact is one about a single binding that is
put in its place, carried along the list. A list that is in order already is its own map
(`ofList_bindings`).
-/

namespace EventDocs

variable {α β : Type} {name : String} {a : α} {bindings : List (String × α)}

-- ============================================================ one binding

theorem lookup_cons_eq_if (name n : String) (a : α) (bindings : List (String × α)) :
    ((name, a) :: bindings).lookup n = if n = name then some a else bindings.lookup n := by
  rw [List.lookup_cons]
  by_cases hn : n = name
  · simp [hn]
  · simp [hn, beq_eq_decide]

theorem lookup_insertByName (name n : String) (a : α) (bindings : List (String × α)) :
    (insertByName name a bindings).lookup n
      = if n = name then some a else bindings.lookup n := by
  induction bindings with
  | nil => exact lookup_cons_eq_if name n a []
  | cons b rest ih =>
      obtain ⟨other, b⟩ := b
      unfold insertByName
      by_cases hlt : name < other
      · rw [if_pos hlt, lookup_cons_eq_if]
      · rw [if_neg hlt]
        by_cases heq : name = other
        · subst heq
          rw [if_pos rfl, lookup_cons_eq_if, lookup_cons_eq_if]
          split <;> rfl
        · rw [if_neg heq, lookup_cons_eq_if, lookup_cons_eq_if, ih]
          by_cases hn : n = name
          · subst hn
            simp [heq]
          · simp [hn]

theorem insertByName_of_forall_lt (h : ∀ b ∈ bindings, b.1 < name) :
    insertByName name a bindings = bindings ++ [(name, a)] := by
  induction bindings with
  | nil => rfl
  | cons b rest ih =>
      obtain ⟨hb, hrest⟩ := List.forall_mem_cons.mp h
      rw [insertByName, if_neg (lt_asymm hb), if_neg hb.ne', ih hrest, List.cons_append]

theorem insertByName_perm (h : name ∉ bindings.map Prod.fst) :
    (insertByName name a bindings).Perm ((name, a) :: bindings) := by
  induction bindings with
  | nil => exact .refl _
  | cons b rest ih =>
      rw [List.map_cons, List.mem_cons, not_or] at h
      unfold insertByName
      split
      · exact .refl _
      · rw [if_neg h.1]
        exact ((ih h.2).cons b).trans (.swap _ _ _)

theorem lookup_map_snd (f : α → β) (n : String) (bindings : List (String × α)) :
    (bindings.map fun b => (b.1, f b.2)).lookup n = (bindings.lookup n).map f := by
  induction bindings with
  | nil => rfl
  | cons b rest ih =>
      obtain ⟨name, a⟩ := b
      rw [List.map_cons, lookup_cons_eq_if, lookup_cons_eq_if, ih]
      split
      · rfl
      · rfl

-- ============================================================ names in order

theorem Ascending.nodup (h : Ascending bindings) : (bindings.map Prod.fst).Nodup := by
  apply List.pairwise_map.mpr
  exact h.imp fun hlt => hlt.ne

theorem ascending_map_iff (f : α → β) :
    Ascending (bindings.map fun b => (b.1, f b.2)) ↔ Ascending bindings :=
  List.pairwise_map

-- ============================================================ maps

namespace NameMap

/-- Bindings that are made in turn, of a list of anything. -/
theorem foldl_insert_eq_ofList (name : β → String) (f : β → α) (l : List β) :
    l.foldl (fun m b => m.insert (name b) (f b)) empty = ofList (l.map fun b => (name b, f b)) := by
  rw [ofList, List.foldl_map]

theorem mem_foldl_insert {m : NameMap α} {x : String × α}
    (h : x ∈ (bindings.foldl (fun m b => m.insert b.1 b.2) m).bindings) :
    x ∈ bindings ∨ x ∈ m.bindings := by
  induction bindings generalizing m with
  | nil => exact Or.inr h
  | cons b rest ih =>
      rcases ih h with hrest | hm
      · exact Or.inl (List.mem_cons_of_mem b hrest)
      · rcases mem_insertByName hm with rfl | hm
        · exact Or.inl List.mem_cons_self
        · exact Or.inr hm

theorem mem_ofList {x : String × α} (h : x ∈ (ofList bindings).bindings) : x ∈ bindings := by
  rcases mem_foldl_insert h with h | h
  · exact h
  · cases h

theorem lookup_foldl_insert (m : NameMap α) (h : (bindings.map Prod.fst).Nodup) (n : String) :
    (bindings.foldl (fun m b => m.insert b.1 b.2) m).bindings.lookup n
      = (bindings.lookup n).or (m.bindings.lookup n) := by
  induction bindings generalizing m with
  | nil => rfl
  | cons b rest ih =>
      obtain ⟨name, a⟩ := b
      obtain ⟨hnew, hrest⟩ := List.nodup_cons.mp h
      have hinsert : (m.insert name a).bindings.lookup n
          = if n = name then some a else m.bindings.lookup n := lookup_insertByName name n a _
      rw [List.foldl_cons, ih (m.insert name a) hrest, hinsert, lookup_cons_eq_if]
      by_cases hn : n = name
      · subst hn
        have hnone : rest.lookup n = none := by
          apply List.lookup_eq_none_iff.mpr
          intro x hx
          have hmem : x.1 ∈ rest.map Prod.fst := List.mem_map_of_mem hx
          have hne : n ≠ x.1 := by
            rintro rfl
            exact hnew hmem
          simpa using hne
        simp [hnone]
      · simp [hn]

/-- The bindings of a list with distinct names are found in its map. -/
theorem lookup_ofList (h : (bindings.map Prod.fst).Nodup) (n : String) :
    (ofList bindings).bindings.lookup n = bindings.lookup n := by
  rw [ofList, lookup_foldl_insert empty h]
  exact Option.or_none

theorem perm_foldl_insert (m : NameMap α) (h : ((m.bindings ++ bindings).map Prod.fst).Nodup) :
    (bindings.foldl (fun m b => m.insert b.1 b.2) m).bindings.Perm (m.bindings ++ bindings) := by
  induction bindings generalizing m with
  | nil =>
      rw [List.append_nil]
      exact .refl _
  | cons b rest ih =>
      have hmove : (m.bindings ++ b :: rest).Perm (b :: (m.bindings ++ rest)) := List.perm_middle
      have hnames := (hmove.map Prod.fst).nodup_iff.mp h
      have hnew : b.1 ∉ m.bindings.map Prod.fst := by
        intro hmem
        refine (List.nodup_cons.mp hnames).1 ?_
        rw [List.map_append]
        exact List.mem_append_left _ hmem
      have hinsert : (m.insert b.1 b.2).bindings.Perm (b :: m.bindings) := insertByName_perm hnew
      have hboth := hinsert.append_right rest
      refine (ih (m.insert b.1 b.2) ?_).trans (hboth.trans hmove.symm)
      exact (hboth.map Prod.fst).nodup_iff.mpr hnames

/-- A list with distinct names and its map have the same bindings. -/
theorem perm_ofList (h : (bindings.map Prod.fst).Nodup) :
    (ofList bindings).bindings.Perm bindings :=
  perm_foldl_insert empty h

theorem bindings_foldl_insert (m : NameMap α) (h : Ascending (m.bindings ++ bindings)) :
    (bindings.foldl (fun m b => m.insert b.1 b.2) m).bindings = m.bindings ++ bindings := by
  induction bindings generalizing m with
  | nil => simp
  | cons b rest ih =>
      have hbelow : ∀ x ∈ m.bindings, x.1 < b.1 := by
        intro x hx
        exact (List.pairwise_append.mp h).2.2 x hx b List.mem_cons_self
      have hinsert : (m.insert b.1 b.2).bindings = m.bindings ++ [b] :=
        insertByName_of_forall_lt hbelow
      rw [List.foldl_cons, ih (m.insert b.1 b.2), hinsert, List.append_assoc]
      · rfl
      · rw [hinsert, List.append_assoc]
        exact h

theorem bindings_ofList (h : Ascending bindings) : (ofList bindings).bindings = bindings :=
  bindings_foldl_insert empty h

theorem ofList_bindings (m : NameMap α) : ofList m.bindings = m :=
  ext (bindings_ofList m.ascending)

end NameMap

end EventDocs
