import EventDocs.Proofs.ContextTree.Shape
import Mathlib.Data.List.Perm.Subperm

/-
The search for the parent of a node, in trees of any shape.

The search goes through a queue that holds the root at first: the node in front is taken off,
and its children go to the end unless the child looked for is one of them (`Search`). Where it
has been it does not note, so on a circle it would go round for ever, and below a node with
two parents it would look twice. What keeps it from both is that the root is nobody's child
and no node is a child twice (`Forest`).

`Scan` says what holds between two turns. The nodes that have left the queue and those that
wait in it are all different, and the children of the former are among them. A turn keeps
this (`Scan.turn`): a child that came into the queue before would have come from another
parent, and there is none. When the queue is empty, the nodes seen are closed under children,
so nothing below the root was missed (`Search.answer_iff`). And since no node is seen twice,
the queue does become empty.

`findParent?` takes the nodes level by level, and as many levels as there are nodes. Level by
level is how the queue goes, and every level but the last has a node of its own (`Scan.search`).
-/

namespace EventDocs.ContextTree

variable {t : ContextTree} {child n : NodeId} {seen queue level later : List NodeId}
  {answer : Option NodeId}

-- ============================================================ statement vocabulary

/-- The root is nobody's child, and any other node is the child of one node at most, and once. -/
structure Forest (t : ContextTree) : Prop where
  root_nowhere : ∀ p, root ∉ t.children p
  nodup : ∀ p, (t.children p).Nodup
  sole : ∀ {p q c}, c ∈ t.children p → c ∈ t.children q → p = q

/-- The search for the node that holds `child` ends with this answer, from this queue on. -/
inductive Search (t : ContextTree) (child : NodeId) : List NodeId → Option NodeId → Prop where
  | exhausted : Search t child [] none
  | found {n : NodeId} {queue : List NodeId} : child ∈ t.children n →
      Search t child (n :: queue) (some n)
  | onward {n : NodeId} {queue : List NodeId} {answer : Option NodeId} :
      child ∉ t.children n → Search t child (queue ++ t.children n) answer →
      Search t child (n :: queue) answer

-- ============================================================ between two turns

/-- The search has taken `seen` off the queue, in vain, and `queue` is left. -/
structure Scan (t : ContextTree) (child : NodeId) (seen queue : List NodeId) : Prop where
  nodup : (seen ++ queue).Nodup
  start : root ∈ seen ++ queue
  reachable : ∀ m ∈ seen ++ queue, t.Reachable m
  /-- Whoever is known, but the root, was found among the children of a node seen. -/
  found : ∀ m ∈ seen ++ queue, m ≠ root → ∃ p ∈ seen, m ∈ t.children p
  spread : ∀ p ∈ seen, ∀ c ∈ t.children p, c ∈ seen ++ queue
  vain : ∀ p ∈ seen, child ∉ t.children p

namespace Scan

theorem start_root (t : ContextTree) (child : NodeId) : Scan t child [] [root] where
  nodup := List.nodup_singleton root
  start := List.mem_singleton_self root
  reachable m hm := by
    rw [List.nil_append, List.mem_singleton] at hm
    subst hm
    exact .start
  found m hm hne := absurd (List.mem_singleton.mp hm) hne
  spread p hp := absurd hp List.not_mem_nil
  vain p hp := absurd hp List.not_mem_nil

/-- The children of the node in front are new: their only parent has not been seen. -/
theorem children_new (h : Scan t child seen (n :: queue)) (hf : t.Forest) {c : NodeId}
    (hc : c ∈ t.children n) : c ∉ seen ++ n :: queue := by
  intro hknown
  have hne : c ≠ root := fun heq => hf.root_nowhere n (heq ▸ hc)
  obtain ⟨p, hp, hcp⟩ := h.found c hknown hne
  have hn : n ∈ seen := hf.sole hcp hc ▸ hp
  exact (List.nodup_append.mp h.nodup).2.2 n hn n List.mem_cons_self rfl

/-- One turn: the node in front is seen, its children are put at the end. -/
theorem turn (h : Scan t child seen (n :: queue)) (hf : t.Forest)
    (hvain : child ∉ t.children n) : Scan t child (seen ++ [n]) (queue ++ t.children n) := by
  have hknown : seen ++ [n] ++ (queue ++ t.children n)
      = (seen ++ n :: queue) ++ t.children n := by simp
  have hfront : t.Reachable n :=
    h.reachable n (List.mem_append_right seen List.mem_cons_self)
  refine ⟨?_, ?_, ?_, ?_, ?_, ?_⟩
  · rw [hknown, List.nodup_append]
    refine ⟨h.nodup, hf.nodup n, ?_⟩
    rintro a ha c hc rfl
    exact h.children_new hf hc ha
  · rw [hknown]
    exact List.mem_append_left _ h.start
  · intro m hm
    rw [hknown] at hm
    rcases List.mem_append.mp hm with hm | hm
    · exact h.reachable m hm
    · exact .child hfront hm
  · intro m hm hne
    rw [hknown] at hm
    rcases List.mem_append.mp hm with hm | hm
    · obtain ⟨p, hp, hmp⟩ := h.found m hm hne
      exact ⟨p, List.mem_append_left [n] hp, hmp⟩
    · exact ⟨n, List.mem_append_right seen (List.mem_singleton_self n), hm⟩
  · intro p hp c hc
    rw [hknown]
    rcases List.mem_append.mp hp with hp | hp
    · exact List.mem_append_left _ (h.spread p hp c hc)
    · rw [List.mem_singleton.mp hp] at hc
      exact List.mem_append_right _ hc
  · intro p hp
    rcases List.mem_append.mp hp with hp | hp
    · exact h.vain p hp
    · rw [List.mem_singleton.mp hp]
      exact hvain

/-- Turns through a whole level. -/
theorem turns (h : Scan t child seen (level ++ later)) (hf : t.Forest)
    (hvain : ∀ m ∈ level, child ∉ t.children m) :
    Scan t child (seen ++ level) (later ++ level.flatMap t.children) := by
  induction level generalizing seen later with
  | nil => simpa using h
  | cons n level ih =>
      rw [List.cons_append] at h
      have hnext := h.turn hf (hvain n List.mem_cons_self)
      rw [List.append_assoc] at hnext
      have hdone := ih hnext fun m hm => hvain m (List.mem_cons_of_mem n hm)
      simpa using hdone

/-- With an empty queue, all that can be reached has been seen. -/
theorem mem_seen (h : Scan t child seen []) (hn : t.Reachable n) : n ∈ seen := by
  have hstart := h.start
  have hspread := h.spread
  rw [List.append_nil] at hstart hspread
  induction hn with
  | start => exact hstart
  | child _ hc ih => exact hspread _ ih _ hc

end Scan

-- ============================================================ the answer

/-- The answer is the node that holds the child, if it can be reached from the root. -/
theorem Search.answer_iff (hsearch : Search t child queue answer) (hf : t.Forest)
    (h : Scan t child seen queue) (p : NodeId) :
    answer = some p ↔ t.Reachable p ∧ child ∈ t.children p := by
  induction hsearch generalizing seen with
  | exhausted =>
      constructor
      · rintro ⟨⟩
      · intro ⟨hp, hc⟩
        exact absurd hc (h.vain p (h.mem_seen hp))
  | @found n queue hn =>
      constructor
      · intro heq
        obtain rfl := Option.some.inj heq
        exact ⟨h.reachable n (List.mem_append_right seen List.mem_cons_self), hn⟩
      · intro ⟨_, hc⟩
        rw [hf.sole hn hc]
  | onward hvain _ ih => exact ih (h.turn hf hvain)

-- ============================================================ level by level

namespace Search

/-- A search through a level goes on with the next one. -/
theorem through (hvain : ∀ m ∈ level, child ∉ t.children m)
    (h : Search t child (later ++ level.flatMap t.children) answer) :
    Search t child (level ++ later) answer := by
  induction level generalizing later with
  | nil => simpa using h
  | cons n level ih =>
      have hrest : Search t child (level ++ (later ++ t.children n)) answer := by
        refine ih (fun m hm => hvain m (List.mem_cons_of_mem n hm)) ?_
        simpa using h
      rw [← List.append_assoc] at hrest
      exact .onward (hvain n List.mem_cons_self) hrest

/-- A search ends at the first node of a level that holds the child. -/
theorem of_find? (h : level.find? (fun m => (t.children m).contains child) = some n) :
    Search t child (level ++ later) (some n) := by
  induction level generalizing later with
  | nil => cases h
  | cons m level ih =>
      by_cases hm : child ∈ t.children m
      · rw [List.find?_cons_of_pos (by simpa using hm)] at h
        obtain rfl := Option.some.inj h
        exact .found hm
      · rw [List.find?_cons_of_neg (by simpa using hm)] at h
        have hrest : Search t child (level ++ (later ++ t.children m)) (some n) := ih h
        rw [← List.append_assoc] at hrest
        exact .onward hm hrest

/-- Numbers that are no nodes have no children, so a search through them ends behind them. -/
theorem of_no_nodes (h : ∀ m ∈ level, ¬ m < t.nodes.size) :
    level.flatMap t.children = [] ∧ Search t child level none := by
  have hnil : ∀ m ∈ level, t.children m = [] :=
    fun m hm => children_eq_nil (Nat.le_of_not_lt (h m hm))
  have hnext : level.flatMap t.children = [] := List.flatMap_eq_nil_iff.mpr hnil
  have hend : Search t child (level ++ []) none := by
    refine through (fun m hm => ?_) ?_
    · rw [hnil m hm]
      exact List.not_mem_nil
    · rw [hnext]
      exact .exhausted
  rw [List.append_nil] at hend
  exact ⟨hnext, hend⟩

end Search

theorem searchLevels_nil (t : ContextTree) (child : NodeId) (fuel : Nat) :
    t.searchLevels child fuel [] = none := by
  induction fuel with
  | zero => rfl
  | succ fuel ih => simpa [searchLevels] using ih

namespace Scan

/-- How many nodes of the tree are among some numbers. -/
def nodeCount (t : ContextTree) (seen : List NodeId) : Nat := seen.countP (· < t.nodes.size)

/-- As long as a node waits, not all have been seen. -/
theorem nodeCount_lt (h : Scan t child seen queue) (hn : n ∈ queue) (hlt : n < t.nodes.size) :
    nodeCount t seen < t.nodes.size := by
  have hnodup : (seen ++ [n]).Nodup :=
    ((List.Sublist.refl seen).append (List.singleton_sublist.mpr hn)).nodup h.nodup
  have hsubset : (seen ++ [n]).filter (· < t.nodes.size) ⊆ List.range t.nodes.size := by
    intro m hm
    simpa using (List.mem_filter.mp hm).2
  have hle := (List.subperm_of_subset (hnodup.filter _) hsubset).length_le
  rw [← List.countP_eq_length_filter, List.countP_append, List.length_range] at hle
  have hone : [n].countP (· < t.nodes.size) = 1 := by simp [hlt]
  unfold nodeCount
  omega

/-- Going level by level is how the queue goes, and there are levels enough: every level with a
node of the tree adds to the nodes seen, and behind a level without one there is nothing. -/
theorem search (h : Scan t child seen level) (hf : t.Forest) {fuel : Nat}
    (hfuel : t.nodes.size ≤ nodeCount t seen + fuel) :
    Search t child level (t.searchLevels child fuel level) := by
  induction fuel generalizing seen level with
  | zero =>
      -- all nodes have been seen, so what still waits are none
      refine (Search.of_no_nodes fun m hm hlt => ?_).2
      have := h.nodeCount_lt hm hlt
      omega
  | succ fuel ih =>
      simp only [searchLevels]
      cases hfind : level.find? fun m => (t.children m).contains child with
      | some n =>
          have hfound : Search t child (level ++ []) (some n) := .of_find? hfind
          rwa [List.append_nil] at hfound
      | none =>
          have hvain : ∀ m ∈ level, child ∉ t.children m := by
            simpa using List.find?_eq_none.mp hfind
          -- a level with a node pays for itself, a level without one is the last
          by_cases hin : ∃ m ∈ level, m < t.nodes.size
          · have hmore : nodeCount t seen + 1 ≤ nodeCount t (seen ++ level) := by
              obtain ⟨m, hm, hlt⟩ := hin
              have hpos : 0 < level.countP (· < t.nodes.size) :=
                List.countP_pos_iff.mpr ⟨m, hm, by simpa using hlt⟩
              unfold nodeCount
              rw [List.countP_append]
              exact Nat.add_le_add_left hpos _
            rw [← List.append_nil level] at h
            have hnext := ih (h.turns hf hvain) (by omega)
            simpa using Search.through hvain hnext
          · obtain ⟨hnext, hend⟩ : level.flatMap t.children = [] ∧ Search t child level none :=
              Search.of_no_nodes fun m hm hlt => hin ⟨m, hm, hlt⟩
            rw [hnext, searchLevels_nil]
            exact hend

end Scan

-- ============================================================ the search ends

namespace Forest

/-- The search from the root comes to an end, and to one only, with the answer of
`findParent?`. -/
theorem search_iff (h : t.Forest) (child : NodeId) (answer : Option NodeId) :
    Search t child [root] answer ↔ answer = t.findParent? child := by
  have hstart := Scan.start_root t child
  have hend : Search t child [root] (t.findParent? child) :=
    hstart.search h (Nat.le_add_left _ _)
  constructor
  · intro hother
    apply Option.ext
    intro p
    rw [hother.answer_iff h hstart, hend.answer_iff h hstart]
  · rintro rfl
    exact hend

/-- The answer is the parent, if it can be reached from the root. -/
theorem findParent?_eq_some_iff (h : t.Forest) {p : NodeId} :
    t.findParent? child = some p ↔ t.Reachable p ∧ child ∈ t.children p :=
  ((h.search_iff child _).mpr rfl).answer_iff h (Scan.start_root t child) p

end Forest

end EventDocs.ContextTree
