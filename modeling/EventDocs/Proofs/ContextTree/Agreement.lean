import EventDocs.Proofs.ContextTree.Shape

/-
Where index and structure agree. The index is meant to find every reachable node by its
key and nothing else, and leaves are meant to have no children. Both hold exactly as long
as no author's id is mistaken for the key of a leaf:

- if the key of a block is the key of some leaf, the block's own leaf ends up under that
  leaf, or the entity made for the block is hidden behind it. Nobody repairs that later,
  since nodes never change their keys and entities never move;
- if the declared parent of a block is the key of some leaf, the entity made for the block
  hangs under that leaf. It does no harm only when the entity was there before, made for
  another block.

There is no third way to go wrong, and unmarked blocks cannot go wrong at all
(`agrees_of_unmarked`).
-/

namespace EventDocs.ContextTree

variable {t : ContextTree} {blocks placed : List Block} {b : Block} {n : NodeId}

-- ============================================================ statement vocabulary

/-- The index finds the reachable nodes by their keys, and no leaf has children. -/
structure Agrees (t : ContextTree) : Prop where
  distinct : ∀ m n, t.Reachable m → t.Reachable n → t.keyAt? m = t.keyAt? n → m = n
  find_iff : ∀ k n, t.find? k = some n ↔ t.Reachable n ∧ t.keyAt? n = some k
  childless : ∀ n node, t.Reachable n → t.nodes[n]? = some node → node.isLeaf = true →
    t.children n = []

/-- The keys that the leaves of some blocks get. -/
def leafKeys (blocks : List Block) : List Key :=
  (substantial blocks).mapIdx fun i b => b.key.leaf (i + 1)

/-- Node `n` is an entity and was made for block `b`. -/
def MadeFor (t : ContextTree) (n : NodeId) (b : Block) : Prop :=
  ∃ node, t.nodes[n]? = some node ∧ node.isLeaf = false ∧ node.block = some b

theorem mem_leafKeys {k : Key} :
    k ∈ leafKeys blocks
      ↔ ∃ i, ∃ b : Block, (substantial blocks)[i]? = some b ∧ k = b.key.leaf (i + 1) := by
  unfold leafKeys
  rw [List.mem_mapIdx]
  constructor
  · intro ⟨i, hi, hk⟩
    exact ⟨i, _, List.getElem?_eq_getElem hi, hk.symm⟩
  · intro ⟨i, b, hb, hk⟩
    obtain ⟨hi, rfl⟩ := List.getElem?_eq_some_iff.mp hb
    exact ⟨i, hi, hk.symm⟩

-- ============================================================ leaves and entities

namespace Inv

theorem lt_size_of_reachable (h : Inv blocks placed t) (hn : t.Reachable n) :
    n < t.nodes.size := by
  cases hn with
  | start => exact Nat.lt_of_lt_of_le (by decide) h.listed.three_le_size
  | child hp hc => exact (h.owned.bound hc).2

/-- Every placed block has its leaf. -/
theorem exists_leaf (h : Inv blocks placed t) {i : Nat} (hb : placed[i]? = some b) :
    ∃ n : Nat, t.census[n]? = some (.leaf (b.key.leaf (i + 1)) b) := by
  have hmem : Node.leaf (b.key.leaf (i + 1)) b ∈ t.census.filter (·.isLeaf) := by
    rw [h.listed.leaves]
    obtain ⟨hi, hget⟩ := List.getElem?_eq_some_iff.mp hb
    exact List.mem_mapIdx.mpr ⟨i, hi, by rw [hget]⟩
  exact List.mem_iff_getElem?.mp (List.mem_filter.mp hmem).1

/-- It hangs among the orphans or under a node with the key of its entity. -/
theorem exists_seat (h : Inv blocks (substantial blocks) t) (hb : b ∈ blocks)
    (hs : b.precedence ≠ .structural) :
    ∃ n p : NodeId, t.blockOf? n = some b ∧ n ∈ t.children p
      ∧ ((p = orphaned ∧ b.precedence ≠ .service) ∨ t.keyAt? p = some b.key) := by
  obtain ⟨i, hi⟩ := List.mem_iff_getElem?.mp (mem_substantial.mpr ⟨hb, hs⟩)
  obtain ⟨n, hn⟩ := h.exists_leaf hi
  obtain ⟨p, hp⟩ := h.exists_parent hn rfl
  exact ⟨n, p, blockOf?_of_census hn, hp, (h.seated hp hn rfl).leaf rfl⟩

/-- A node whose key is neither structural nor that of a leaf is an entity. -/
theorem entity_of_keyAt? (h : Inv blocks placed t) {k : Key} (hn : t.keyAt? n = some k)
    (hs : k.precedence ≠ .structural)
    (hfree : ∀ i (b : Block), placed[i]? = some b → k ≠ b.key.leaf (i + 1)) :
    ∃ b ∈ blocks, b.precedence ≠ .structural ∧ b.key = k
      ∧ t.census[n]? = some (.entity b.key b) := by
  obtain ⟨node, hnode, hkey⟩ := keyAt?_eq_some_iff.mp hn
  rcases h.listed.node_cases hnode with ⟨hlt, -⟩ | ⟨b, hb, hbs, rfl⟩ | ⟨i, b, hb, rfl⟩
  · exact absurd (h.three_le hn hs) (Nat.not_le_of_lt hlt)
  · exact ⟨b, hb, hbs, hkey, hnode⟩
  · exact absurd hkey.symm (hfree i b hb)

/-- An entity is the node of its block's key in the census. -/
theorem census_of_madeFor (h : Inv blocks placed t) (hn : t.MadeFor n b) :
    b ∈ blocks ∧ b.precedence ≠ .structural ∧ t.census[n]? = some (.entity b.key b) := by
  obtain ⟨node, hnode, hleaf, hblock⟩ := hn
  have hbare := census_of_node hnode
  obtain ⟨hb, hs, heq⟩ := h.listed.entity_of_block hbare hleaf hblock
  exact ⟨hb, hs, heq ▸ hbare⟩

end Inv

-- ============================================================ a collision does harm

namespace Agrees

/-- In a tree that agrees, nothing hangs under the node of a leaf's key. -/
theorem not_under_leaf (ha : t.Agrees) (h : Inv blocks placed t) {i : Nat}
    (hb : placed[i]? = some b) {p c : NodeId} (hc : c ∈ t.children p) :
    t.keyAt? p ≠ some (b.key.leaf (i + 1)) := by
  intro hp
  obtain ⟨m, hm⟩ := h.exists_leaf hb
  have hpm : p = m := by
    refine ha.distinct p m (h.reachable (lt_size_of_mem_children hc))
      (h.reachable (lt_size_of_census hm)) ?_
    rw [hp, keyAt?_of_census hm]
    rfl
  subst hpm
  rw [getElem?_census] at hm
  obtain ⟨node, hnode, hbare⟩ := Option.map_eq_some_iff.mp hm
  have hleaf : node.isLeaf = true := congrArg Node.isLeaf hbare
  rw [ha.childless p node (h.reachable (lt_size_of_mem_children hc)) hnode hleaf] at hc
  cases hc

/-- No block has the key of a leaf. Its own leaf would hang under that leaf: it cannot
have stayed an orphan, as the index does have a node for its key. -/
theorem key_not_mem_leafKeys (ha : (build blocks).Agrees) (hb : b ∈ blocks)
    (hs : b.precedence ≠ .structural) : b.key ∉ leafKeys blocks := by
  intro hmem
  have h := inv_build blocks
  obtain ⟨i, c, hc, hkey⟩ := mem_leafKeys.mp hmem
  obtain ⟨n, p, hn, hp, hseat⟩ := h.exists_seat hb hs
  rcases hseat with ⟨horphaned, -⟩ | howner
  · rw [horphaned] at hp
    obtain ⟨m, hm⟩ := h.exists_leaf hc
    have hfind : (build blocks).find? b.key = some m := by
      rw [hkey]
      exact h.indexed.leaf hm rfl
    rw [(closed_build blocks n hp b hn).1] at hfind
    cases hfind
  · exact ha.not_under_leaf h hc hp (howner.trans (congrArg some hkey))

/-- No entity was made for a block that names a leaf as its parent. -/
theorem parentKey_not_mem_leafKeys (ha : (build blocks).Agrees)
    (hn : (build blocks).MadeFor n b) {k : Key} (hk : k ∈ leafKeys blocks) :
    b.parentKey? ≠ some k := by
  intro hparent
  have h := inv_build blocks
  obtain ⟨i, c, hc, rfl⟩ := mem_leafKeys.mp hk
  obtain ⟨-, -, hnode⟩ := h.census_of_madeFor hn
  obtain ⟨p, hp⟩ := h.exists_parent hnode rfl
  have hcs : c.precedence ≠ .structural := (h.listed.source c (List.mem_of_getElem? hc)).2
  have hserv : b.precedence ≠ .service :=
    b.ne_service_of_parentKey hparent (by rw [Key.precedence_leaf]; exact hcs)
  obtain ⟨l, hl, hkey⟩ := (h.seated hp hnode rfl).child rfl hserv
  rw [hparent] at hl
  obtain rfl := Option.some.inj hl
  exact ha.not_under_leaf h hc hp hkey

end Agrees

-- ============================================================ no collision, no harm

/-- No key of a block is the key of a leaf. -/
def KeysFree (blocks placed : List Block) : Prop :=
  ∀ b ∈ blocks, b.precedence ≠ .structural →
    ∀ i (c : Block), placed[i]? = some c → b.key ≠ c.key.leaf (i + 1)

/-- No entity was made for a block that names a leaf as its parent. -/
def ParentsFree (placed : List Block) (t : ContextTree) : Prop :=
  ∀ n b, t.MadeFor n b →
    ∀ i (c : Block), placed[i]? = some c → b.parentKey? ≠ some (c.key.leaf (i + 1))

namespace Inv

theorem isLeaf_of_lt_three (h : Inv blocks placed t) (hlt : n < 3) {node : Node}
    (hnode : t.census[n]? = some node) : node.isLeaf = false := by
  rw [h.listed.getElem?_of_lt_three hlt] at hnode
  exact (of_mem_fixedNodes (List.mem_of_getElem? hnode)).1

/-- A leaf and a node that is none never share a key. -/
theorem key_ne_of_leaf (h : Inv blocks placed t) (hkeys : KeysFree blocks placed)
    {m n : Nat} {x y : Node} (hx : t.census[m]? = some x) (hy : t.census[n]? = some y)
    (hxl : x.isLeaf = true) (hyl : y.isLeaf = false) : x.key ≠ y.key := by
  intro hkey
  obtain ⟨i, c, hc, rfl⟩ := h.listed.leaf_of_isLeaf hx hxl
  have hcs : c.precedence ≠ .structural := (h.listed.source c (List.mem_of_getElem? hc)).2
  rcases h.listed.node_cases hy with ⟨hlt, -⟩ | ⟨b, hb, hbs, rfl⟩ | ⟨j, b, -, rfl⟩
  · have hn : t.keyAt? n = some (c.key.leaf (i + 1)) := by
      rw [keyAt?_of_census hy, ← hkey]
      rfl
    exact absurd (h.three_le hn hcs) (Nat.not_le_of_lt hlt)
  · exact hkeys b hb hbs i c hc hkey.symm
  · cases hyl

theorem eq_of_key_eq (h : Inv blocks placed t) (hkeys : KeysFree blocks placed) {m n : Nat}
    {x y : Node} (hx : t.census[m]? = some x) (hy : t.census[n]? = some y)
    (hkey : x.key = y.key) : m = n := by
  cases hxl : x.isLeaf with
  | true =>
      cases hyl : y.isLeaf with
      | true =>
          have hm := h.indexed.leaf hx hxl
          have hn := h.indexed.leaf hy hyl
          rw [hkey, hn] at hm
          exact (Option.some.inj hm).symm
      | false => exact absurd hkey (h.key_ne_of_leaf hkeys hx hy hxl hyl)
  | false =>
      cases hyl : y.isLeaf with
      | true => exact absurd hkey.symm (h.key_ne_of_leaf hkeys hy hx hyl hxl)
      | false => exact h.indexed.unique hx hy hxl hyl hkey

theorem children_leaf (h : Inv blocks placed t) (hkeys : KeysFree blocks placed)
    (hparents : ParentsFree placed t) {i : Nat} {c : Block} (hc : placed[i]? = some c)
    (hn : t.census[n]? = some (.leaf (c.key.leaf (i + 1)) c)) : t.children n = [] := by
  have hfixed : 3 ≤ n := by
    by_contra hlt
    cases h.isLeaf_of_lt_three (Nat.lt_of_not_le hlt) hn
  have hkey : t.keyAt? n = some (c.key.leaf (i + 1)) := keyAt?_of_census hn
  rw [List.eq_nil_iff_forall_not_mem]
  intro d hd
  obtain ⟨node, hnode⟩ := exists_census (h.owned.bound hd).2
  rcases h.listed.node_cases hnode with ⟨hlt, -⟩ | ⟨b, hb, hbs, rfl⟩ | ⟨j, b, hb, rfl⟩
  · -- a fixed node hangs under the root only
    have hroot := h.mem_root_of_lt_three (h.owned.bound hd).1 hlt
    rw [h.owned.sole hd hroot] at hfixed
    exact absurd hfixed (by decide)
  · have hmade : t.MadeFor d b := by
      rw [getElem?_census] at hnode
      obtain ⟨full, hfull, hbare⟩ := Option.map_eq_some_iff.mp hnode
      exact ⟨full, hfull, congrArg Node.isLeaf hbare, congrArg Node.block hbare⟩
    have hseat := h.seated hd hnode rfl
    by_cases hserv : b.precedence = .service
    · rw [hseat.service rfl hserv] at hfixed
      exact absurd hfixed (by decide)
    · obtain ⟨k, hk, hp⟩ := hseat.child rfl hserv
      rw [hkey] at hp
      exact hparents d b hmade i c hc (hk.trans hp.symm)
  · rcases (h.seated hd hnode rfl).leaf rfl with ⟨horphaned, -⟩ | hp
    · rw [horphaned] at hfixed
      exact absurd hfixed (by decide)
    · have hsource := h.listed.source b (List.mem_of_getElem? hb)
      rw [hkey] at hp
      exact hkeys b hsource.1 hsource.2 i c hc (Option.some.inj hp).symm

theorem agrees (h : Inv blocks placed t) (hkeys : KeysFree blocks placed)
    (hparents : ParentsFree placed t) : t.Agrees where
  distinct m n hm hn hkey := by
    obtain ⟨x, hx⟩ := exists_census (h.lt_size_of_reachable hm)
    obtain ⟨y, hy⟩ := exists_census (h.lt_size_of_reachable hn)
    rw [keyAt?_of_census hx, keyAt?_of_census hy] at hkey
    exact h.eq_of_key_eq hkeys hx hy (Option.some.inj hkey)
  find_iff k n := by
    constructor
    · intro hfind
      have hkey := h.indexed.sound hfind
      exact ⟨h.reachable (lt_size_of_keyAt? hkey), hkey⟩
    · intro ⟨_, hkey⟩
      obtain ⟨m, hm⟩ := h.indexed.complete hkey
      obtain ⟨x, hx, hxk⟩ := keyAt?_eq_some_iff.mp (h.indexed.sound hm)
      obtain ⟨y, hy, hyk⟩ := keyAt?_eq_some_iff.mp hkey
      rw [hm, h.eq_of_key_eq hkeys hx hy (hxk.trans hyk.symm)]
  childless n node _ hnode hleaf := by
    have hbare := census_of_node hnode
    obtain ⟨i, c, hc, heq⟩ := h.listed.leaf_of_isLeaf hbare hleaf
    exact h.children_leaf hkeys hparents hc (heq ▸ hbare)

end Inv

/-- Without a leaf mark in any id or parent, nothing can be mistaken for a leaf. -/
theorem agrees_of_unmarked (hblocks : Unmarked blocks) : (build blocks).Agrees := by
  have h := inv_build blocks
  refine h.agrees ?_ ?_
  · intro b hb _ i c _ hkey
    exact hblocks.key_ne_leaf hb c.key (i + 1) hkey.symm
  · intro n b hn i c _
    exact hblocks.parentKey_ne_leaf (h.census_of_madeFor hn).1 c.key (i + 1)

-- ============================================================ the exact condition

/-- Index and structure agree exactly if no block has the key of a leaf and no entity was
made for a block that names a leaf as its parent. -/
theorem build_agrees_iff (blocks : List Block) :
    (build blocks).Agrees
      ↔ (∀ b ∈ blocks, b.precedence ≠ .structural → b.key ∉ leafKeys blocks)
        ∧ ∀ n b, (build blocks).MadeFor n b → ∀ k ∈ leafKeys blocks, b.parentKey? ≠ some k := by
  constructor
  · intro ha
    exact ⟨fun b hb hs => ha.key_not_mem_leafKeys hb hs,
      fun n b hn k hk => ha.parentKey_not_mem_leafKeys hn hk⟩
  · intro ⟨hkeys, hparents⟩
    refine (inv_build blocks).agrees ?_ ?_
    · intro b hb hs i c hc hkey
      exact hkeys b hb hs (mem_leafKeys.mpr ⟨i, c, hc, hkey⟩)
    · intro n b hn i c hc
      exact hparents n b hn _ (mem_leafKeys.mpr ⟨i, c, hc, rfl⟩)

/-- A service that is called like the first leaf of another. -/
theorem build_not_agrees_of_leaf_id :
    ¬ (build [{ (default : Block) with precedence := .service, label := { id := "a" } },
        { (default : Block) with precedence := .service, label := { id := "a__leaf__1" } }]).Agrees := by
  intro ha
  exact ha.key_not_mem_leafKeys (List.mem_cons_of_mem _ List.mem_cons_self) (by decide)
    (by decide)

end EventDocs.ContextTree
