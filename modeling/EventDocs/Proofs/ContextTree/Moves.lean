import EventDocs.Proofs.ContextTree.ParentSearch

/-
Moving a node, in trees of any shape.

A move deletes the node that the index has for a key and attaches it again under its new
owner. The delete looks for the parent of the node, and the attach trusts that there is none
any more. That the two together take the node from where it was, put it where it shall be and
touch nothing else, rests on the parent that the search finds being the only one (`Forest`).

The owner may be the former parent; then the node becomes the last of its children. It must
not be below the node itself: the node and all below it would come loose from the root.
-/

namespace EventDocs.ContextTree

variable {t t' : ContextTree} {k : Key} {n owner : NodeId}

-- ============================================================ statement vocabulary

/-- The nodes of the subtree of `n`: itself and all that a walk along children comes to. -/
inductive Within (t : ContextTree) (n : NodeId) : NodeId → Prop where
  | self : Within t n n
  | child {p c : NodeId} : Within t n p → c ∈ t.children p → Within t n c

/-- `t'` is `t` with node `n`, of key `k`, moved to be the last child of `owner`. -/
structure IsMove (t t' : ContextTree) (k : Key) (n owner : NodeId) : Prop where
  last : (t'.children owner).getLast? = some n
  /-- It is nowhere else, so not under its former parent, unless that is the owner. -/
  only : ∀ p, n ∈ t'.children p ↔ p = owner
  others : ∀ p, (t'.children p).filter (· ≠ n) = (t.children p).filter (· ≠ n)
  find : t'.find? k = some n
  index : ∀ l, l ≠ k → t'.find? l = t.find? l
  /-- Every node has the key, the block and the kind that it had. -/
  census : t'.census = t.census
  leafCount : t'.leafCount = t.leafCount
  /-- Nothing comes loose from the root. -/
  reachable : ∀ m, t'.Reachable m ↔ t.Reachable m
  forest : t'.Forest

-- ============================================================ lists of children

/-- Lists of children with `c` taken from wherever it is and put last under `q`. -/
def relocate (kids : NodeId → List NodeId) (c q : NodeId) : NodeId → List NodeId :=
  fun r => (kids r).filter (· ≠ c) ++ if r = q then [c] else []

section Children

variable {kids : NodeId → List NodeId} {q r c d : Nat}

theorem mem_relocate : d ∈ relocate kids c q r ↔ (d ∈ kids r ∧ d ≠ c) ∨ (r = q ∧ d = c) := by
  unfold relocate
  by_cases hr : r = q <;> simp [hr]

theorem filter_relocate (kids : NodeId → List NodeId) (c q r : NodeId) :
    (relocate kids c q r).filter (· ≠ c) = (kids r).filter (· ≠ c) := by
  unfold relocate
  by_cases hr : r = q <;> simp [hr]

theorem getLast?_relocate (kids : NodeId → List NodeId) (c q : NodeId) :
    (relocate kids c q q).getLast? = some c := by
  simp [relocate]

end Children

/-- A node that moves has one parent as before. -/
theorem Forest.relocate (h : t.Forest) (hroot : n ≠ root)
    (hmoved : t'.children = relocate t.children n owner) : t'.Forest where
  root_nowhere p hp := by
    rw [hmoved] at hp
    rcases mem_relocate.mp hp with ⟨hp, -⟩ | ⟨-, heq⟩
    · exact h.root_nowhere p hp
    · exact hroot heq.symm
  nodup p := by
    rw [hmoved, ContextTree.relocate, List.nodup_append]
    refine ⟨(h.nodup p).filter _, ?_, ?_⟩
    · split <;> simp
    · -- it was taken out of the list that it is put behind
      intro a ha b hb heq
      have hne : a ≠ n := by simpa using (List.mem_filter.mp ha).2
      have hbn : b = n := by
        split at hb
        · exact List.mem_singleton.mp hb
        · cases hb
      exact hne (heq.trans hbn)
  sole := by
    intro p q c hp hq
    rw [hmoved] at hp hq
    rcases mem_relocate.mp hp with ⟨hp, hne⟩ | ⟨hpo, hc⟩
    · rcases mem_relocate.mp hq with ⟨hq, -⟩ | ⟨-, hc⟩
      · exact h.sole hp hq
      · exact absurd hc hne
    · rcases mem_relocate.mp hq with ⟨-, hne⟩ | ⟨hqo, -⟩
      · exact absurd hc hne
      · rw [hpo, hqo]

-- ============================================================ walks from the root

/-- All that can be reached is in the subtree of the root. -/
theorem Reachable.within_root (h : t.Reachable n) : t.Within root n := by
  induction h with
  | start => exact .self
  | child _ hc ih => exact .child ih hc

/-- A walk to a node outside of the subtree of `n` keeps away from `n` all the way, so it can
be made in any tree that differs in the place of `n` only. -/
theorem Reachable.avoiding {m : NodeId} (h : t.Reachable m) (hwithin : ¬ t.Within n m)
    (hkept : ∀ {p c}, c ∈ t.children p → c ≠ n → c ∈ t'.children p) : t'.Reachable m := by
  induction h with
  | start => exact .start
  | @child p c _ hc ih =>
      have hp : ¬ t.Within n p := fun hp => hwithin (.child hp hc)
      have hne : c ≠ n := by
        rintro rfl
        exact hwithin .self
      exact .child (ih hp) (hkept hc hne)

/-- After a move to a place outside of the subtree, a walk comes to the same nodes. -/
theorem reachable_relocate_iff (hmoved : t'.children = relocate t.children n owner)
    (hn : t.Reachable n) (howner : t.Reachable owner) (hwithin : ¬ t.Within n owner)
    (m : NodeId) : t'.Reachable m ↔ t.Reachable m := by
  have hkept : ∀ {p c}, c ∈ t.children p → c ≠ n → c ∈ t'.children p := by
    intro p c hc hne
    rw [hmoved]
    exact mem_relocate.mpr (Or.inl ⟨hc, hne⟩)
  have hplace : n ∈ t'.children owner := by
    rw [hmoved]
    exact mem_relocate.mpr (Or.inr ⟨rfl, rfl⟩)
  have hn' : t'.Reachable n := .child (howner.avoiding hwithin hkept) hplace
  constructor
  · intro hm
    induction hm with
    | start => exact .start
    | @child p c _ hc ih =>
        rw [hmoved] at hc
        rcases mem_relocate.mp hc with ⟨hc, -⟩ | ⟨-, rfl⟩
        · exact .child ih hc
        · exact hn
  · intro hm
    induction hm with
    | start => exact .start
    | @child p c _ hc ih =>
        by_cases hne : c = n
        · rw [hne]
          exact hn'
        · exact .child ih (hkept hc hne)

-- ============================================================ the move

namespace Forest

/-- A node other than the root that can be reached has a parent, and the search finds it. -/
theorem exists_findParent? (h : t.Forest) (hn : t.Reachable n) (hroot : n ≠ root) :
    ∃ p, n ∈ t.children p ∧ t.findParent? n = some p := by
  cases hn with
  | start => exact absurd rfl hroot
  | @child p _ hp hc => exact ⟨p, hc, h.findParent?_eq_some_iff.mpr ⟨hp, hc⟩⟩

/-- With one parent, taking the node from under it is taking it from everywhere. -/
theorem children_moveUnder {p : NodeId} (h : t.Forest) (hhangs : t.Hangs k n p)
    (hp : n ∈ t.children p) (howner : owner < t.nodes.size) :
    (t.moveUnder k owner).children = ContextTree.relocate t.children n owner := by
  funext q
  rw [hhangs.children_moveUnder (lt_size_of_mem_children hp) howner, ContextTree.relocate]
  by_cases hq : q = p
  · rw [if_pos hq, hq]
  · have hnot : n ∉ t.children q := fun hmem => hq (h.sole hmem hp)
    have hself : (t.children q).filter (· ≠ n) = t.children q := by
      refine List.filter_eq_self.mpr fun c hc => decide_eq_true ?_
      rintro rfl
      exact hnot hc
    rw [if_neg hq, hself]

theorem isMove (h : t.Forest) (hfind : t.find? k = some n) (hkey : t.keyAt? n = some k)
    (hn : t.Reachable n) (howner : t.Reachable owner) (hnode : owner < t.nodes.size)
    (hwithin : ¬ t.Within n owner) : IsMove t (t.moveUnder k owner) k n owner := by
  -- nothing that can be reached is outside of the subtree of the root
  have hroot : n ≠ root := by
    rintro rfl
    exact hwithin howner.within_root
  obtain ⟨p, hp, hparent⟩ := h.exists_findParent? hn hroot
  have hhangs : t.Hangs k n p := ⟨hkey, hfind, hparent⟩
  have hmoved := h.children_moveUnder hhangs hp hnode
  exact {
    last := by rw [hmoved, getLast?_relocate]
    only := by
      intro q
      rw [hmoved, mem_relocate]
      simp
    others := by
      intro q
      rw [hmoved, filter_relocate]
    find := by rw [hhangs.find?_moveUnder, hfind]
    index := fun l _ => hhangs.find?_moveUnder owner l
    census := hhangs.census_moveUnder owner
    leafCount := hhangs.leafCount_moveUnder owner
    reachable := reachable_relocate_iff hmoved hn howner hwithin
    forest := h.relocate hroot hmoved }

/-- In a forest the search for a parent comes to one end, with the node that holds the child
if that can be reached. And a node that can be reached, found by its key, is moved to any node
that can be reached outside of its own subtree, and nothing else is. -/
theorem search_ends_and_move_is_exact (h : t.Forest) :
    (∀ child, (∀ answer, Search t child [root] answer ↔ answer = t.findParent? child)
        ∧ ∀ p, t.findParent? child = some p ↔ t.Reachable p ∧ child ∈ t.children p)
      ∧ ∀ k n owner, t.find? k = some n → t.keyAt? n = some k → t.Reachable n →
          t.Reachable owner → owner < t.nodes.size → ¬ t.Within n owner →
          IsMove t (t.moveUnder k owner) k n owner := by
  refine ⟨fun child => ⟨h.search_iff child, fun p => h.findParent?_eq_some_iff⟩, ?_⟩
  intro k n owner hfind hkey hn howner hnode hwithin
  exact h.isMove hfind hkey hn howner hnode hwithin

end Forest

-- ============================================================ trees that are built

/-- At every stage of building, the tree is a forest. -/
theorem Inv.forest {blocks placed : List Block} (h : Inv blocks placed t) : t.Forest where
  root_nowhere _ hp := Nat.lt_irrefl _ (h.owned.bound hp).1
  nodup := h.owned.nodup
  sole := h.owned.sole

/-- A set of nodes that is closed under children holds the subtree of each. -/
theorem Within.mem_of_closed {nodes : List NodeId} {m : NodeId} (h : t.Within n m)
    (hn : n ∈ nodes) (hclosed : ∀ p ∈ nodes, ∀ c ∈ t.children p, c ∈ nodes) : m ∈ nodes := by
  induction h with
  | self => exact hn
  | child _ hc ih => exact hclosed _ ih _ hc

/-- A channel of one service, with the leaf below it, is moved to another service. -/
theorem Forest.search_ends_and_move_is_exact_channel :
    let a : Block := { (default : Block) with precedence := .service, label := { id := "a" } }
    let b : Block := { (default : Block) with precedence := .service, label := { id := "b" } }
    let c : Block :=
      { (default : Block) with precedence := .channel, label := { id := "c", parent := "a" } }
    let t := [a, b, c].foldl place empty
    let t' := t.moveUnder ⟨.channel, "c"⟩ 5
    t.find? ⟨.service, "a"⟩ = some 3 ∧ t.find? ⟨.service, "b"⟩ = some 5
      ∧ t.findParent? 7 = some 3 ∧ IsMove t t' ⟨.channel, "c"⟩ 7 5
      ∧ t'.children 3 = [4] ∧ t'.children 5 = [6, 7] ∧ t'.children 7 = [8] := by
  intro a b c t t'
  have hparented : t.Reachable parented := .child .start (by decide)
  have hfirst : t.Reachable 3 := .child hparented (by decide)
  have hsecond : t.Reachable 5 := .child hparented (by decide)
  have hchannel : 7 ∈ t.children 3 := by decide
  have hwithin : ¬ t.Within 7 5 := by
    intro h
    have hmem : 5 ∈ [7, 8] := h.mem_of_closed (by decide) (by decide)
    exact absurd hmem (by decide)
  obtain ⟨hsearch, hmove⟩ :=
    Forest.search_ends_and_move_is_exact (inv_placed [a, b, c]).forest
  refine ⟨by decide, by decide, ((hsearch 7).2 3).mpr ⟨hfirst, hchannel⟩, ?_, by decide,
    by decide, by decide⟩
  exact hmove ⟨.channel, "c"⟩ 7 5 (by decide) (by decide) (.child hfirst hchannel) hsecond
    (by decide) hwithin

end EventDocs.ContextTree
