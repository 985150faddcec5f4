import EventDocs.Proofs.ContextTree.Building
import Mathlib.Data.List.Nodup

/-
The shape of a finished tree. Whatever the ids are, the nodes form a tree under the
root, and its leaves are the blocks: none is lost and none is there twice. And every
node hangs where its own block says, although entities are found by keys that other
blocks may have taken (`InPlace`): that is what the seats of the invariant come to.

That every node is reached from the root is no part of the invariant; it follows from
the seats. On the way from a node to its parent the level goes up, or it stays and the
id becomes shorter: a leaf hangs under a node whose id is a proper beginning of its own.
Such a way ends, and it can only end at a fixed node. So no move can close a circle,
although the owner of an orphan is looked up by a text that an author chose.
-/

namespace EventDocs.ContextTree

variable {t : ContextTree} {blocks placed : List Block}

-- ============================================================ statement vocabulary

/-- The nodes that a walk from the root along children comes to. -/
inductive Reachable (t : ContextTree) : NodeId → Prop where
  | start : Reachable t root
  | child {p c : NodeId} : Reachable t p → c ∈ t.children p → Reachable t c

/-- The nodes form a tree: each but the root stands once in one list of children, and
all are reached from the root. -/
structure IsTree (t : ContextTree) : Prop where
  root_nowhere : ∀ p, root ∉ t.children p
  once : ∀ n < t.nodes.size, n ≠ root →
    ∃ p < t.nodes.size, (t.children p).count n = 1 ∧ ∀ q, q ≠ p → n ∉ t.children q
  inside : ∀ p, ∀ c ∈ t.children p, c < t.nodes.size
  reachable : ∀ n < t.nodes.size, t.Reachable n

/-- Node `p` has `n` among its children, and no other node has. -/
def ParentOf (t : ContextTree) (p n : NodeId) : Prop :=
  n ∈ t.children p ∧ ∀ q, n ∈ t.children q → q = p

/-- Every node hangs where the block that it carries says. -/
structure InPlace (t : ContextTree) : Prop where
  structural : ∀ n node, t.nodes[n]? = some node →
    (node.key.precedence = .structural ↔ n = root ∨ n = orphaned ∨ n = parented)
  /-- A service hangs under `parented`, any other entity under a node with the key of the
  parent that its block names. -/
  entity : ∀ n node, t.nodes[n]? = some node → node.isLeaf = false →
    node.key.precedence ≠ .structural →
      ∃ b p, node.block = some b ∧ node.key = b.key ∧ t.ParentOf p n
        ∧ (b.precedence = .service → p = parented)
        ∧ (b.precedence ≠ .service → ∃ k, b.parentKey? = some k ∧ t.keyAt? p = some k)
  leaf : ∀ n node, t.nodes[n]? = some node → node.isLeaf = true →
    ∃ b p, node.block = some b ∧ t.ParentOf p n
      ∧ (p = orphaned ∨ t.keyAt? p = some b.key)
  orphan : ∀ n ∈ t.children orphaned, ∃ b, t.blockOf? n = some b
    ∧ (b.precedence = .channel ∨ b.precedence = .operation ∨ b.precedence = .message)

/-- The leaves by their numbers. -/
def leafNodes (t : ContextTree) : List NodeId :=
  (List.range t.nodes.size).filter fun n => (t.nodes[n]?).any (·.isLeaf)

-- ============================================================ reachability

/-- A child of a child of the root. -/
theorem Reachable.below_top (top : t.children root = [orphaned, parented]) {p c : NodeId}
    (hp : p = orphaned ∨ p = parented) (hc : c ∈ t.children p) : t.Reachable c :=
  .child (.child .start (by rw [top]; simpa using hp)) hc

namespace Inv

theorem reachable_fixed (h : Inv blocks placed t) {n : NodeId} (hn : n < 3) :
    t.Reachable n := by
  match n, hn with
  | 0, _ => exact .start
  | 1, _ => exact .child .start (by rw [h.top]; decide)
  | 2, _ => exact .child .start (by rw [h.top]; decide)

/-- By level, then by the length of the id: the parent of a node is a fixed one, or it
comes earlier in this order. -/
theorem reachable_of_keyAt? (h : Inv blocks placed t) (level length : Nat) :
    ∀ {n : NodeId} {k : Key}, t.keyAt? n = some k → k.precedence.number = level →
      k.id.length = length → t.Reachable n := by
  induction level using Nat.strong_induction_on generalizing length with
  | _ level ihLevel =>
  induction length using Nat.strong_induction_on with
  | _ length ihLength =>
      intro n k hk hlevel hlength
      obtain ⟨node, hnode, rfl⟩ := keyAt?_eq_some_iff.mp hk
      rcases h.listed.node_cases hnode with ⟨hfixed, -⟩ | ⟨b, -, -, rfl⟩ | ⟨i, b, -, rfl⟩
      · exact h.reachable_fixed hfixed
      · obtain ⟨p, hp⟩ := h.exists_parent hnode rfl
        have hseat := h.seated hp hnode rfl
        by_cases hb : b.precedence = .service
        · exact .below_top h.top (Or.inr (hseat.service rfl hb)) hp
        · obtain ⟨l, hl, hkey⟩ := hseat.child rfl hb
          have hnum : b.precedence.number = l.precedence.number + 1 := b.number_parentKey hl
          have hup : l.precedence.number < level := by
            rw [← hlevel]
            show l.precedence.number < b.precedence.number
            omega
          exact .child (ihLevel _ hup _ hkey rfl rfl) hp
      · obtain ⟨p, hp⟩ := h.exists_parent hnode rfl
        rcases (h.seated hp hnode rfl).leaf rfl with ⟨horphaned, -⟩ | hkey
        · exact .below_top h.top (Or.inl horphaned) hp
        · have hshort : b.key.id.length < length := by
            rw [← hlength]
            exact Key.length_lt_leaf b.key (i + 1)
          exact .child (ihLength _ hshort hkey hlevel rfl) hp

theorem reachable (h : Inv blocks placed t) {n : NodeId} (hn : n < t.nodes.size) :
    t.Reachable n := by
  obtain ⟨node, hnode⟩ := exists_census hn
  exact h.reachable_of_keyAt? _ _ (keyAt?_of_census hnode) rfl rfl

theorem isTree (h : Inv blocks placed t) : t.IsTree where
  root_nowhere p hp := Nat.lt_irrefl _ (h.owned.bound hp).1
  once n hn hroot := by
    obtain ⟨p, hp⟩ := h.owned.covered (Nat.pos_of_ne_zero hroot) hn
    refine ⟨p, lt_size_of_mem_children hp, List.count_eq_one_of_mem (h.owned.nodup p) hp, ?_⟩
    intro q hq hmem
    exact hq (h.owned.sole hmem hp)
  inside _ _ hc := (h.owned.bound hc).2
  reachable _ hn := h.reachable hn

end Inv

-- ============================================================ seats

namespace Inv

variable {n : Nat} {node : Node} {b : Block}

/-- Below the root, a node with a block has one parent, and that is its seat. -/
theorem exists_parentOf (h : Inv blocks placed t) (hnode : t.census[n]? = some node)
    (hb : node.block = some b) : ∃ p, t.ParentOf p n ∧ t.Seat p node.isLeaf b := by
  obtain ⟨p, hp⟩ := h.exists_parent hnode hb
  exact ⟨p, ⟨hp, fun q hq => h.owned.sole hq hp⟩, h.seated hp hnode hb⟩

/-- The fixed nodes are the structural ones. -/
theorem structural_iff (h : Inv blocks placed t) (hnode : t.census[n]? = some node) :
    node.key.precedence = .structural ↔ n = root ∨ n = orphaned ∨ n = parented := by
  have hfixed : n < 3 ↔ n = root ∨ n = orphaned ∨ n = parented := by
    show n < 3 ↔ n = 0 ∨ n = 1 ∨ n = 2
    omega
  rw [← hfixed]
  constructor
  · intro hs
    rcases h.listed.node_cases hnode with ⟨hlt, -⟩ | ⟨b, -, hb, rfl⟩ | ⟨i, b, hb, rfl⟩
    · exact hlt
    · exact absurd hs hb
    · exact absurd hs (h.listed.source b (List.mem_of_getElem? hb)).2
  · intro hlt
    by_contra hs
    exact absurd (h.three_le (keyAt?_of_census hnode) hs) (Nat.not_le_of_lt hlt)

/-- Whoever is neither structural nor a service is of one of the other levels. -/
theorem level_of_orphan (h : Inv blocks placed t) (hn : n ∈ t.children orphaned) :
    ∃ b, t.blockOf? n = some b
      ∧ (b.precedence = .channel ∨ b.precedence = .operation ∨ b.precedence = .message) := by
  obtain ⟨i, b, -, hs, hserv, hnode⟩ := h.orphan hn
  refine ⟨b, blockOf?_of_census hnode, ?_⟩
  cases hp : b.precedence with
  | structural => exact absurd hp hs
  | service => exact absurd hp hserv
  | channel => exact Or.inl rfl
  | operation => exact Or.inr (Or.inl rfl)
  | message => exact Or.inr (Or.inr rfl)

theorem inPlace (h : Inv blocks placed t) : t.InPlace where
  structural _ _ hnode := (h.structural_iff (census_of_node hnode) :)
  entity n node hnode hleaf hs := by
    have hbare := census_of_node hnode
    rcases h.listed.node_cases hbare with ⟨hlt, -⟩ | ⟨b, -, -, heq⟩ | ⟨i, b, -, heq⟩
    · exact absurd (h.three_le (keyAt?_of_census hbare) hs) (Nat.not_le_of_lt hlt)
    · have hblock : node.block = some b := congrArg Node.block heq
      obtain ⟨p, hp, hseat⟩ := h.exists_parentOf hbare hblock
      exact ⟨b, p, hblock, congrArg Node.key heq, hp, hseat.service hleaf, hseat.child hleaf⟩
    · have hisLeaf : node.isLeaf = true := congrArg Node.isLeaf heq
      rw [hleaf] at hisLeaf
      cases hisLeaf
  leaf n node hnode hleaf := by
    have hbare := census_of_node hnode
    obtain ⟨i, b, -, heq⟩ := h.listed.leaf_of_isLeaf hbare hleaf
    have hblock : node.block = some b := congrArg Node.block heq
    obtain ⟨p, hp, hseat⟩ := h.exists_parentOf hbare hblock
    exact ⟨b, p, hblock, hp, (hseat.leaf hleaf).imp_left And.left⟩
  orphan _ hn := h.level_of_orphan hn

end Inv

-- ============================================================ leaves and blocks

/-- The members of a list that pass a test, found by their positions. -/
theorem map_filter_range {α : Type} (l : List α) (test : α → Bool) :
    ((List.range l.length).filter fun n => (l[n]?).any test).map (l[·]?)
      = (l.filter test).map some := by
  have hall : (List.range l.length).map (l[·]?) = l.map some := by
    apply List.ext_getElem?
    intro n
    by_cases hn : n < l.length <;> simp [hn]
  have hfilter : (l.map some).filter (Option.any test) = (l.filter test).map some := by
    rw [List.filter_map]
    rfl
  rw [← hfilter, ← hall, List.filter_map]
  rfl

/-- The leaves, in the order of their numbers, carry the placed blocks in order. -/
theorem Inv.map_blockOf?_leafNodes (h : Inv blocks placed t) :
    t.leafNodes.map t.blockOf? = placed.map some := by
  have hleaves : t.leafNodes = (List.range t.census.length).filter
      fun n => (t.census[n]?).any (·.isLeaf) := by
    unfold leafNodes
    rw [length_census]
    refine List.filter_congr fun n _ => ?_
    rw [getElem?_census]
    cases t.nodes[n]? <;> rfl
  have hblocks : t.leafNodes.map t.blockOf?
      = (t.leafNodes.map (t.census[·]?)).map (·.bind (·.block)) := by
    rw [List.map_map]
    exact List.map_congr_left fun n _ => t.blockOf?_eq n
  rw [hblocks, hleaves, map_filter_range, h.listed.leaves]
  apply List.ext_getElem?
  intro i
  simp [leafNodesOf, Node.leaf, Function.comp_def]

/-- The tree of any blocks is a tree, and its leaves are these blocks. -/
theorem build_isTree (blocks : List Block) :
    (build blocks).IsTree
      ∧ (build blocks).leafNodes.map (build blocks).blockOf?
          = (blocks.filter (·.precedence ≠ .structural)).map some :=
  ⟨(inv_build blocks).isTree, (inv_build blocks).map_blockOf?_leafNodes⟩

/-- In the tree of any blocks every node is in its place. -/
theorem build_inPlace (blocks : List Block) : (build blocks).InPlace :=
  (inv_build blocks).inPlace

end EventDocs.ContextTree
