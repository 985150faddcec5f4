import EventDocs.Proofs.ContextTree.Agreement
import Mathlib.Data.List.Perm.Basic

/-
Which entities a finished tree has, and which blocks stay orphans, said without a tree:
a service is resolvable, and so is what a block describes if the parent that the block
names is resolvable. The tree has exactly the resolvable entities, and a block is an
orphan exactly if what it describes is not resolvable. So the order of the blocks plays
no part.

Blocks are unmarked here. Then the key of a block, and the key of the parent it names,
are never the key of a leaf, and a node with such a key is an entity. One half then
follows from the seats, level by level: an entity hangs under an entity, up to the
services. The other half follows from the end of the passes: no orphan is left that the
tree could have taken.
-/

namespace EventDocs.ContextTree

variable {t : ContextTree} {blocks placed : List Block} {b : Block} {n : NodeId} {k : Key}

-- ============================================================ statement vocabulary

/-- The keys of entities that have a place: every service has one, and every other entity
that some block puts under an entity that has one. -/
inductive Resolvable (blocks : List Block) : Key → Prop where
  | service {b : Block} : b ∈ blocks → b.precedence = .service → Resolvable blocks b.key
  | child {b : Block} {k : Key} : b ∈ blocks → b.precedence ≠ .service →
      b.parentKey? = some k → Resolvable blocks k → Resolvable blocks b.key

/-- The keys of the entities, in the order of their numbers. -/
def entityKeys (t : ContextTree) : List Key :=
  (t.census.filter fun node => !node.isLeaf && node.block.isSome).map (·.key)

theorem Resolvable.mono {blocks' : List Block} (h : Resolvable blocks k)
    (hsub : ∀ b ∈ blocks, b ∈ blocks') : Resolvable blocks' k := by
  induction h with
  | service hb hp => exact .service (hsub _ hb) hp
  | child hb hp hparent _ ih => exact .child (hsub _ hb) hp hparent ih

theorem resolvable_perm {blocks' : List Block} (h : blocks.Perm blocks') :
    Resolvable blocks k ↔ Resolvable blocks' k :=
  ⟨fun hk => hk.mono fun _ hb => h.mem_iff.mp hb,
    fun hk => hk.mono fun _ hb => h.mem_iff.mpr hb⟩

-- ============================================================ nodes of unmarked keys

namespace Inv

/-- A node with the key of an unmarked block is an entity. -/
theorem entity_of_key (h : Inv blocks placed t) (hblocks : Unmarked blocks) (hb : b ∈ blocks)
    (hs : b.precedence ≠ .structural) (hn : t.keyAt? n = some b.key) :
    ∃ c ∈ blocks, c.precedence ≠ .structural ∧ c.key = b.key
      ∧ t.census[n]? = some (.entity c.key c) :=
  h.entity_of_keyAt? hn hs fun i c _ => (hblocks.key_ne_leaf hb c.key (i + 1)).symm

/-- So is a node with the key of the parent that an unmarked block names. -/
theorem entity_of_parentKey (h : Inv blocks placed t) (hblocks : Unmarked blocks)
    (hb : b ∈ blocks) (hserv : b.precedence ≠ .service) (hk : b.parentKey? = some k)
    (hn : t.keyAt? n = some k) :
    ∃ c ∈ blocks, c.precedence ≠ .structural ∧ c.key = k
      ∧ t.census[n]? = some (.entity c.key c) := by
  refine h.entity_of_keyAt? hn (b.precedence_parentKey_ne hk hserv) ?_
  intro i c _ heq
  exact hblocks.parentKey_ne_leaf hb c.key (i + 1) (heq ▸ hk)

/-- The entities, seen from their keys. -/
theorem mem_entityKeys (h : Inv blocks placed t) :
    k ∈ t.entityKeys
      ↔ ∃ (n : NodeId) (b : Block), b ∈ blocks ∧ b.precedence ≠ .structural ∧ b.key = k
          ∧ t.census[n]? = some (.entity b.key b) := by
  unfold entityKeys
  rw [List.mem_map]
  constructor
  · intro ⟨node, hmem, hkey⟩
    obtain ⟨hmem, htest⟩ := List.mem_filter.mp hmem
    obtain ⟨n, hn⟩ := List.mem_iff_getElem?.mp hmem
    simp only [Bool.and_eq_true, Bool.not_eq_eq_eq_not, Bool.not_true] at htest
    obtain ⟨b, hblock⟩ := Option.isSome_iff_exists.mp htest.2
    obtain ⟨hb, hs, rfl⟩ := h.listed.entity_of_block hn htest.1 hblock
    exact ⟨n, b, hb, hs, hkey, hn⟩
  · intro ⟨n, b, _, _, hkey, hn⟩
    exact ⟨_, List.mem_filter.mpr ⟨List.mem_of_getElem? hn, rfl⟩, hkey⟩

/-- No two entities share a key. -/
theorem nodup_entityKeys (h : Inv blocks placed t) : t.entityKeys.Nodup := by
  unfold entityKeys
  rw [List.Nodup, List.pairwise_map, List.pairwise_filter]
  rw [List.pairwise_iff_getElem]
  intro m n hm hn hlt hx hy hkey
  simp only [Bool.and_eq_true, Bool.not_eq_eq_eq_not, Bool.not_true] at hx hy
  have hmn := h.indexed.unique (List.getElem?_eq_getElem hm) (List.getElem?_eq_getElem hn)
    hx.1 hy.1 hkey
  omega

-- ============================================================ only what is resolvable

/-- An entity is resolvable, by induction on its level: its parent is an entity one level
up, and a service needs none. -/
theorem resolvable_of_entity (h : Inv blocks placed t) (hblocks : Unmarked blocks)
    (level : Nat) :
    ∀ {n : NodeId} {b : Block}, b ∈ blocks → b.precedence.number = level →
      t.census[n]? = some (.entity b.key b) → Resolvable blocks b.key := by
  induction level with
  | zero =>
      intro n b hb hlevel hn
      -- no entity is of the level of the fixed nodes
      obtain ⟨-, hs, -⟩ := h.listed.entity_of_block hn rfl rfl
      cases hp : b.precedence with
      | structural => exact absurd hp hs
      | _ => rw [hp] at hlevel; cases hlevel
  | succ level ih =>
      intro n b hb hlevel hn
      by_cases hserv : b.precedence = .service
      · exact .service hb hserv
      · obtain ⟨p, hp⟩ := h.exists_parent hn rfl
        obtain ⟨k, hk, hkey⟩ := (h.seated hp hn rfl).child rfl hserv
        obtain ⟨c, hc, -, hck, hcn⟩ := h.entity_of_parentKey hblocks hb hserv hk hkey
        have hup : c.precedence.number = level := by
          have hnum := b.number_parentKey hk
          rw [← hck, show c.key.precedence = c.precedence from rfl] at hnum
          omega
        exact .child hb hserv hk (hck ▸ ih hc hup hcn)

/-- A leaf with a place belongs to an entity. -/
theorem resolvable_of_leaf (h : Inv blocks placed t) (hblocks : Unmarked blocks)
    (hb : b ∈ blocks) (hs : b.precedence ≠ .structural) (hn : t.keyAt? n = some b.key) :
    b.key ∈ t.entityKeys ∧ Resolvable blocks b.key := by
  obtain ⟨c, hc, hcs, hck, hcn⟩ := h.entity_of_key hblocks hb hs hn
  exact ⟨h.mem_entityKeys.mpr ⟨n, c, hc, hcs, hck, hcn⟩,
    hck ▸ h.resolvable_of_entity hblocks _ hc rfl hcn⟩

/-- A leaf carries a block. -/
theorem leaf_of_mem_leafNodes (h : Inv blocks placed t) (hn : n ∈ t.leafNodes)
    (hb : t.blockOf? n = some b) :
    b ∈ blocks ∧ b.precedence ≠ .structural
      ∧ ∃ i, t.census[n]? = some (.leaf (b.key.leaf (i + 1)) b) := by
  obtain ⟨hlt, hany⟩ := List.mem_filter.mp hn
  obtain ⟨full, hfull, hleaf⟩ := Option.any_eq_true _ _ |>.mp hany
  have hnode := census_of_node hfull
  obtain ⟨i, c, hc, heq⟩ := h.listed.leaf_of_isLeaf hnode hleaf
  rw [heq] at hnode
  rw [blockOf?_of_census hnode] at hb
  obtain rfl : c = b := Option.some.inj hb
  obtain ⟨hsource, hs⟩ := h.listed.source c (List.mem_of_getElem? hc)
  exact ⟨hsource, hs, i, hnode⟩

end Inv

-- ============================================================ all that is resolvable

/-- Every resolvable entity is there, by induction on the chain of parents. The leaf of
the block that puts the entity in its place cannot be an orphan: a service is none, and
any other block has a parent in the tree, which the last pass would have found. -/
theorem mem_entityKeys_of_resolvable (hblocks : Unmarked blocks)
    (hk : Resolvable blocks k) : k ∈ (build blocks).entityKeys := by
  have h := inv_build blocks
  induction hk with
  | @service b hb hserv =>
      have hs : b.precedence ≠ .structural := by rw [hserv]; decide
      obtain ⟨n, p, -, hp, hseat⟩ := h.exists_seat hb hs
      rcases hseat with ⟨-, hne⟩ | hkey
      · exact absurd hserv hne
      · exact (h.resolvable_of_leaf hblocks hb hs hkey).1
  | @child b k hb hserv hk _ ih =>
      have hs : b.precedence ≠ .structural := by
        intro hs
        unfold Block.parentKey? Key.ofParent? at hk
        rw [hs] at hk
        cases hk
      obtain ⟨n, p, hn, hp, hseat⟩ := h.exists_seat hb hs
      rcases hseat with ⟨rfl, -⟩ | hkey
      · obtain ⟨m, c, -, -, hck, hm⟩ := h.mem_entityKeys.mp ih
        obtain ⟨q, hq⟩ := h.indexed.complete (keyAt?_of_census hm)
        have hfound : (build blocks).declaredParent? b = some q := by
          unfold declaredParent?
          rw [hk, ← hck]
          exact hq
        rw [(closed_build blocks n hp b hn).2] at hfound
        cases hfound
      · exact (h.resolvable_of_leaf hblocks hb hs hkey).1

theorem mem_entityKeys_iff (hblocks : Unmarked blocks) :
    k ∈ (build blocks).entityKeys ↔ Resolvable blocks k := by
  constructor
  · intro hk
    obtain ⟨n, b, hb, -, rfl, hn⟩ := (inv_build blocks).mem_entityKeys.mp hk
    exact (inv_build blocks).resolvable_of_entity hblocks _ hb rfl hn
  · exact mem_entityKeys_of_resolvable hblocks

/-- A block is an orphan exactly if what it describes is not resolvable. -/
theorem orphan_iff_not_resolvable (hblocks : Unmarked blocks)
    (hn : n ∈ (build blocks).leafNodes) (hb : (build blocks).blockOf? n = some b) :
    n ∈ (build blocks).children orphaned ↔ ¬ Resolvable blocks b.key := by
  have h := inv_build blocks
  obtain ⟨hmem, hs, hnode⟩ := h.leaf_of_mem_leafNodes hn hb
  constructor
  · intro horphan hres
    obtain ⟨m, c, -, -, hck, hm⟩ :=
      h.mem_entityKeys.mp (mem_entityKeys_of_resolvable hblocks hres)
    obtain ⟨q, hq⟩ := h.indexed.complete (keyAt?_of_census hm)
    have hq : (build blocks).find? b.key = some q := hck ▸ hq
    rw [(closed_build blocks n horphan b hb).1] at hq
    cases hq
  · intro hres
    obtain ⟨i, hnode⟩ := hnode
    obtain ⟨p, hp⟩ := h.exists_parent hnode rfl
    rcases (h.seated hp hnode rfl).leaf rfl with ⟨rfl, -⟩ | hkey
    · exact hp
    · exact absurd (h.resolvable_of_leaf hblocks hmem hs hkey).2 hres

-- ============================================================ orphans by their blocks

namespace Inv

/-- What hangs under `orphaned` are leaves, so its blocks are those of its children. -/
theorem leafBlocks_orphaned (h : Inv blocks placed t) :
    t.leafBlocks orphaned = (t.children orphaned).filterMap t.blockOf? := by
  rw [leafBlocks_eq]
  refine List.filterMap_congr fun n hn => ?_
  obtain ⟨i, b, -, -, -, hnode⟩ := h.orphan hn
  rw [blockOf?_of_census hnode, hnode]
  rfl

theorem filterMap_blockOf?_leafNodes (h : Inv blocks placed t) :
    t.leafNodes.filterMap t.blockOf? = placed := by
  have hmap := congrArg (List.filterMap id) h.map_blockOf?_leafNodes
  rw [List.filterMap_map, List.filterMap_map] at hmap
  simpa using hmap

theorem mem_leafNodes_of_orphan (h : Inv blocks placed t) (hn : n ∈ t.children orphaned) :
    n ∈ t.leafNodes := by
  obtain ⟨i, b, -, -, -, hnode⟩ := h.orphan hn
  refine List.mem_filter.mpr ⟨List.mem_range.mpr (lt_size_of_census hnode), ?_⟩
  rw [getElem?_census] at hnode
  obtain ⟨node, hget, hbare⟩ := Option.map_eq_some_iff.mp hnode
  rw [hget]
  exact congrArg Node.isLeaf hbare

end Inv

open Classical in
/-- The blocks among the orphans, up to their order. -/
theorem leafBlocks_orphaned_perm (hblocks : Unmarked blocks) :
    ((build blocks).leafBlocks orphaned).Perm
      ((substantial blocks).filter fun b => ¬ Resolvable blocks b.key) := by
  have h := inv_build blocks
  have hnodes : ((build blocks).children orphaned).Perm
      ((build blocks).leafNodes.filter (· ∈ (build blocks).children orphaned)) := by
    have hnodup : (build blocks).leafNodes.Nodup := List.nodup_range.filter _
    apply (List.perm_ext_iff_of_nodup (h.owned.nodup orphaned) (hnodup.filter _)).mpr
    intro n
    rw [List.mem_filter, decide_eq_true_eq]
    exact ⟨fun hn => ⟨h.mem_leafNodes_of_orphan hn, hn⟩, And.right⟩
  have hsame : ((build blocks).leafNodes.filter
        (· ∈ (build blocks).children orphaned)).filterMap (build blocks).blockOf?
      = (substantial blocks).filter fun b => ¬ Resolvable blocks b.key := by
    rw [← h.filterMap_blockOf?_leafNodes, List.filter_filterMap, List.filterMap_filter]
    refine List.filterMap_congr fun n hn => ?_
    cases hb : (build blocks).blockOf? n with
    | none => simp
    | some b => simp [Option.filter, orphan_iff_not_resolvable hblocks hn hb]
  rw [h.leafBlocks_orphaned, ← hsame]
  exact hnodes.filterMap _

-- ============================================================ the finished tree

/-- The entities of a finished tree are the resolvable ones, the orphans are the blocks
of all others, and neither depends on the order of the blocks. -/
theorem build_resolves (hblocks : Unmarked blocks) :
    (∀ k, k ∈ (build blocks).entityKeys ↔ Resolvable blocks k)
      ∧ (∀ n ∈ (build blocks).leafNodes, ∀ b, (build blocks).blockOf? n = some b →
          (n ∈ (build blocks).children orphaned ↔ ¬ Resolvable blocks b.key))
      ∧ ∀ blocks', blocks.Perm blocks' →
          (build blocks).entityKeys.Perm (build blocks').entityKeys
            ∧ ((build blocks).leafBlocks orphaned).Perm ((build blocks').leafBlocks orphaned) := by
  refine ⟨fun k => mem_entityKeys_iff hblocks,
    fun n hn b hb => orphan_iff_not_resolvable hblocks hn hb, ?_⟩
  intro blocks' hperm
  have hblocks' : Unmarked blocks' := fun b hb => hblocks b (hperm.mem_iff.mpr hb)
  constructor
  · rw [List.perm_ext_iff_of_nodup (inv_build blocks).nodup_entityKeys
      (inv_build blocks').nodup_entityKeys]
    intro k
    rw [mem_entityKeys_iff hblocks, mem_entityKeys_iff hblocks']
    exact resolvable_perm hperm
  · have hfilter := hperm.filter (fun b => b.precedence ≠ .structural)
    classical
    refine (leafBlocks_orphaned_perm hblocks).trans ?_
    refine .trans ?_ (leafBlocks_orphaned_perm hblocks').symm
    rw [List.filter_congr fun b _ => by rw [resolvable_perm hperm]]
    exact hfilter.filter _

/-- A channel and its service, the channel first, and a channel of nobody. -/
theorem build_resolves_late_service :
    let a : Block := { (default : Block) with precedence := .service, label := { id := "a" } }
    let c : Block :=
      { (default : Block) with precedence := .channel, label := { id := "c", parent := "a" } }
    let d : Block :=
      { (default : Block) with precedence := .channel, label := { id := "d", parent := "b" } }
    ⟨.channel, "c"⟩ ∈ (build [d, c, a]).entityKeys
      ∧ ((build [d, c, a]).leafBlocks orphaned).Perm ((build [a, c, d]).leafBlocks orphaned) := by
  intro a c d
  have hblocks : Unmarked [d, c, a] := by decide
  have h := build_resolves hblocks
  refine ⟨(h.1 _).mpr ?_, (h.2.2 _ ?_).2⟩
  · exact .child (b := c) (by simp) (by decide) rfl (.service (b := a) (by simp) rfl)
  · exact (List.reverse_perm [d, c, a]).symm

end EventDocs.ContextTree
