import EventDocs.Proofs.ContextTree.Building

/-
How many passes there are, and what they leave.

Passes are made as long as there are orphans, and no further one after a pass that left as many
as it found. Said like this (`Passes`) nothing promises an end: the test asks whether two numbers
are equal, and a pass that raised the number, or kept it while it moved somebody, would make the
test wrong in one way or the other. It is right because of what one pass does (`Inv.pass`): it
takes orphans away and puts none back, and if it takes none away it does nothing at all. So every
pass but the last has its own orphan to show for it, and the last one finds nothing to do.

`reconcile` is where these passes end. It asks after each pass whether the number went down, and
a pass over no orphans, which it makes when the last one is taken away, changes nothing.
-/

namespace EventDocs.ContextTree

variable {t t' : ContextTree} {blocks placed : List Block} {n : Nat}

-- ============================================================ statement vocabulary

/-- Passes from `t` on come to an end after `n` of them, in `t'`. There is none if there are no
orphans, and none behind a pass that leaves as many as it found. -/
inductive Passes : ContextTree → Nat → ContextTree → Prop where
  | none {t : ContextTree} : t.orphanCount = 0 → Passes t 0 t
  | last {t : ContextTree} : 0 < t.orphanCount → t.pass.orphanCount = t.orphanCount →
      Passes t 1 t.pass
  | further {t t' : ContextTree} {n : Nat} : 0 < t.orphanCount →
      t.pass.orphanCount ≠ t.orphanCount → Passes t.pass n t' → Passes t (n + 1) t'

-- ============================================================ the run of the passes

/-- There is one way to go on, so there is one end. -/
theorem Passes.unique {m : Nat} {t₁ t₂ : ContextTree} (h₁ : Passes t n t₁)
    (h₂ : Passes t m t₂) : m = n ∧ t₂ = t₁ := by
  induction h₁ generalizing m with
  | none hzero =>
      cases h₂ with
      | none _ => exact ⟨rfl, rfl⟩
      | last hpos _ => omega
      | further hpos _ _ => omega
  | last hpos hsame =>
      cases h₂ with
      | none hzero => omega
      | last _ _ => exact ⟨rfl, rfl⟩
      | further _ hne _ => exact absurd hsame hne
  | further hpos hne _ ih =>
      cases h₂ with
      | none hzero => omega
      | last _ hsame => exact absurd hsame hne
      | further _ _ hmore =>
          obtain ⟨rfl, rfl⟩ := ih hmore
          exact ⟨rfl, rfl⟩

/-- A pass over no orphans changes nothing. -/
theorem Inv.pass_of_none (h : Inv blocks placed t) (hzero : t.orphanCount = 0) : t.pass = t := by
  rcases h.pass.2 with ⟨hsame, -⟩ | hlt
  · exact hsame
  · omega

/-- The passes end in the reconciled tree: by induction on the number of orphans, which every
pass but the last brings down. -/
theorem Inv.passes_reconcile (h : Inv blocks placed t) : ∃ n, Passes t n t.reconcile := by
  induction hcount : t.orphanCount using Nat.strong_induction_on generalizing t with
  | _ count ih =>
      rw [ContextTree.reconcile]
      by_cases hzero : t.orphanCount = 0
      · rw [h.pass_of_none hzero, if_neg (Nat.lt_irrefl _)]
        exact ⟨0, .none hzero⟩
      · have hpos : 0 < t.orphanCount := Nat.pos_of_ne_zero hzero
        rcases h.pass.2 with ⟨hsame, -⟩ | hlt
        · have hstill : t.pass.orphanCount = t.orphanCount := by rw [hsame]
          rw [if_neg (Nat.not_lt_of_le (Nat.le_of_eq hstill.symm))]
          exact ⟨1, .last hpos hstill⟩
        · rw [if_pos hlt]
          obtain ⟨n, hpasses⟩ := ih _ (hcount ▸ hlt) h.pass.1 rfl
          exact ⟨n + 1, .further hpos (Nat.ne_of_lt hlt) hpasses⟩

/-- There are no more passes than orphans. -/
theorem Passes.le_orphanCount (hpasses : Passes t n t') (h : Inv blocks placed t) :
    n ≤ t.orphanCount := by
  induction hpasses with
  | none _ => exact Nat.zero_le _
  | last hpos _ => exact hpos
  | further hpos hne _ ih =>
      have hrest := ih h.pass.1
      rcases h.pass.2 with ⟨hsame, -⟩ | hlt
      · exact absurd (congrArg orphanCount hsame) hne
      · omega

/-- After the first pass there are no more than the orphans that it left. -/
theorem Passes.le_orphanCount_pass (hpasses : Passes t n t') (h : Inv blocks placed t) :
    n ≤ t.pass.orphanCount + 1 := by
  cases hpasses with
  | none _ => exact Nat.zero_le _
  | last _ _ => exact Nat.le_add_left 1 _
  | further _ _ hmore => exact Nat.succ_le_succ (hmore.le_orphanCount h.pass.1)

-- ============================================================ what is left

/-- What an orphan of a closed tree looks for is not there: neither its entity, whose key its own
key leads to, nor the parent that its block names. -/
theorem Inv.not_found_of_closed (h : Inv blocks placed t) (hclosed : t.Closed)
    (hn : n ∈ t.children orphaned) :
    ∃ node b k, t.nodes[n]? = some node ∧ node.isLeaf = true ∧ node.block = some b
      ∧ node.key.owner = b.key ∧ t.find? b.key = none
      ∧ b.parentKey? = some k ∧ t.find? k = none := by
  obtain ⟨i, b, -, hs, -, hbare⟩ := h.orphan hn
  obtain ⟨hentity, hparent⟩ := hclosed n hn b (blockOf?_of_census hbare)
  obtain ⟨k, hk⟩ := Block.parentKey?_ne_none hs
  rw [getElem?_census] at hbare
  obtain ⟨node, hnode, heq⟩ := Option.map_eq_some_iff.mp hbare
  have hkey : node.key = b.key.leaf (i + 1) := congrArg Node.key heq
  refine ⟨node, b, k, hnode, congrArg Node.isLeaf heq, congrArg Node.block heq, ?_, hentity, hk,
    ?_⟩
  · rw [hkey, Key.owner_leaf]
  · unfold declaredParent? at hparent
    rw [hk] at hparent
    exact hparent

/-- When all blocks are placed, the passes come to one end, the finished tree. There are no more
of them than orphans, and at most one more than orphans that the first of them leaves. Whoever is
an orphan at the end has no node for its entity and none for its parent. -/
theorem reconcile_ends (blocks : List Block) :
    (∃ n ≤ (blocks.foldl place empty).orphanCount,
        n ≤ (blocks.foldl place empty).pass.orphanCount + 1
          ∧ ∀ m t, Passes (blocks.foldl place empty) m t ↔ m = n ∧ t = build blocks)
      ∧ ∀ c ∈ (build blocks).children orphaned, ∃ node b k,
          (build blocks).nodes[c]? = some node ∧ node.isLeaf = true ∧ node.block = some b
            ∧ node.key.owner = b.key ∧ (build blocks).find? b.key = none
            ∧ b.parentKey? = some k ∧ (build blocks).find? k = none := by
  constructor
  · have h := inv_placed blocks
    obtain ⟨n, hpasses⟩ := h.passes_reconcile
    refine ⟨n, hpasses.le_orphanCount h, hpasses.le_orphanCount_pass h, fun m t => ?_⟩
    constructor
    · exact fun hother => hpasses.unique hother
    · rintro ⟨rfl, rfl⟩
      exact hpasses
  · intro c hc
    exact (inv_build blocks).not_found_of_closed (closed_build blocks) hc

end EventDocs.ContextTree
