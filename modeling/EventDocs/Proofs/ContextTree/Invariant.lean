import EventDocs.Proofs.ContextTree.Effects

/-
The invariant of a tree that is being built, for blocks with any ids whatsoever.
It has four parts:

- `Listed`: the census is the three fixed nodes, entities made for blocks, and one
  leaf for each block placed so far, in the order of the blocks;
- `Owned`: every node but the root stands once in one list of children;
- `Seated`: every node hangs where its own block says. An entity hangs under
  `parented` or under a node with the key of its declared parent, a leaf under
  `orphaned` or under a node with the key of its entity;
- `Indexed`: the index only gives nodes that have the key asked for, every key of a
  node is in it, and of a leaf and an entity with one key it gives the leaf.

Keys can collide, so `Indexed` does not say that the index finds every node: an entity
whose key a later leaf takes is not found any more. It says enough for the two facts
that building rests on: an orphan is always found by its key, and no two entities
share a key.

Each part is kept by each of the three operations of a build; the last section puts
them together.
-/

namespace EventDocs

-- ============================================================ levels

/-- The level of a parent is known for every block but a structural one. -/
theorem Block.parentKey?_ne_none {b : Block} (h : b.precedence ≠ .structural) :
    ∃ k, b.parentKey? = some k := by
  unfold Block.parentKey? Key.ofParent?
  cases hb : b.precedence with
  | structural => exact absurd hb h
  | _ => exact ⟨_, rfl⟩

/-- A parent is one level up. -/
theorem Block.number_parentKey {b : Block} {k : Key} (h : b.parentKey? = some k) :
    b.precedence.number = k.precedence.number + 1 := by
  obtain ⟨level, hlevel, rfl⟩ := Option.map_eq_some_iff.mp h
  exact Precedence.number_of_parent? hlevel

/-- Only a service looks for its parent among the fixed nodes. -/
theorem Block.precedence_parentKey_ne {b : Block} {k : Key} (h : b.parentKey? = some k)
    (hb : b.precedence ≠ .service) : k.precedence ≠ .structural := by
  obtain ⟨level, hlevel, rfl⟩ := Option.map_eq_some_iff.mp h
  rintro rfl
  cases hp : b.precedence with
  | service => exact hb hp
  | _ => rw [hp] at hlevel; cases hlevel

/-- What names a parent of another level is no service. -/
theorem Block.ne_service_of_parentKey {b : Block} {k : Key} (h : b.parentKey? = some k)
    (hk : k.precedence ≠ .structural) : b.precedence ≠ .service := by
  intro hb
  have hnum := b.number_parentKey h
  rw [hb] at hnum
  cases hp : k.precedence with
  | structural => exact hk hp
  | _ => rw [hp] at hnum; cases hnum

/-- Nothing is its own parent. -/
theorem Block.parentKey?_ne_key (b : Block) : b.parentKey? ≠ some b.key := by
  intro h
  have hnum := b.number_parentKey h
  rw [show b.key.precedence = b.precedence from rfl] at hnum
  omega

namespace ContextTree

variable {t : ContextTree} {blocks placed : List Block} {b : Block}

-- ============================================================ single ownership

/-- Every number from one up to `size` stands once in one list of children. -/
structure Owned (kids : Nat → List Nat) (size : Nat) : Prop where
  bound : ∀ {p c}, c ∈ kids p → 0 < c ∧ c < size
  nodup : ∀ p, (kids p).Nodup
  sole : ∀ {p q c}, c ∈ kids p → c ∈ kids q → p = q
  covered : ∀ {c}, 0 < c → c < size → ∃ p, c ∈ kids p

namespace Owned

variable {kids : Nat → List Nat} {size p q c : Nat}

/-- A new node under any node. -/
theorem grow (h : Owned kids size) (hsize : 0 < size) (p : Nat) :
    Owned (grow kids p size) (size + 1) where
  bound := by
    intro q c hc
    rcases mem_grow.mp hc with hc | ⟨-, rfl⟩
    · have := h.bound hc
      omega
    · omega
  nodup := by
    intro q
    unfold ContextTree.grow
    split
    · have hnew : size ∉ kids p := fun hmem => Nat.lt_irrefl _ (h.bound hmem).2
      exact List.nodup_append.mpr ⟨h.nodup p, by simp, by
        rintro a ha b hb rfl
        exact hnew (List.mem_singleton.mp hb ▸ ha)⟩
    · exact h.nodup q
  sole := by
    intro q r c hq hr
    rcases mem_grow.mp hq with hq | ⟨rfl, hc⟩
    · rcases mem_grow.mp hr with hr | ⟨-, hc⟩
      · exact h.sole hq hr
      · have := h.bound hq
        omega
    · rcases mem_grow.mp hr with hr | ⟨rfl, -⟩
      · have := h.bound hr
        omega
      · rfl
  covered := by
    intro c hpos hlt
    by_cases hc : c < size
    · obtain ⟨q, hq⟩ := h.covered hpos hc
      exact ⟨q, mem_grow.mpr (Or.inl hq)⟩
    · exact ⟨p, mem_grow.mpr (Or.inr ⟨rfl, by omega⟩)⟩

/-- A node that moves from one parent to another. -/
theorem shift (h : Owned kids size) (hc : c ∈ kids p) (hne : q ≠ p) :
    Owned (shift kids p q c) size := by
  have hmem : ∀ {d r}, d ∈ ContextTree.shift kids p q c r
      ↔ (d ∈ kids r ∧ d ≠ c) ∨ (r = q ∧ d = c) :=
    mem_shift (fun r hr => h.sole hr hc) hne
  refine ⟨?_, ?_, ?_, ?_⟩
  · intro r d hd
    rcases hmem.mp hd with ⟨hd, -⟩ | ⟨-, rfl⟩
    · exact h.bound hd
    · exact h.bound hc
  · intro r
    have hnot : c ∉ kids q := fun hq => hne (h.sole hq hc)
    unfold ContextTree.shift
    split
    · exact (h.nodup p).filter _
    · split
      · exact List.nodup_append.mpr ⟨h.nodup q, by simp, by
          rintro a ha b hb rfl
          exact hnot (List.mem_singleton.mp hb ▸ ha)⟩
      · exact h.nodup r
  · intro r s d hr hs
    rcases hmem.mp hr with ⟨hr, hd⟩ | ⟨rfl, hd⟩
    · rcases hmem.mp hs with ⟨hs, -⟩ | ⟨-, hd'⟩
      · exact h.sole hr hs
      · exact absurd hd' hd
    · rcases hmem.mp hs with ⟨-, hd'⟩ | ⟨rfl, -⟩
      · exact absurd hd hd'
      · rfl
  · intro d hpos hlt
    by_cases hd : d = c
    · exact ⟨q, hmem.mpr (Or.inr ⟨rfl, hd⟩)⟩
    · obtain ⟨r, hr⟩ := h.covered hpos hlt
      exact ⟨r, hmem.mpr (Or.inl ⟨hr, hd⟩)⟩

end Owned

-- ============================================================ the census

/-- The nodes that every tree has. -/
def fixedNodes : List Node :=
  [.structural "root" [], .structural "orphaned" [], .structural "parented" []]

/-- The leaves of some blocks: each has its own number in its key. -/
def leafNodesOf (placed : List Block) : List Node :=
  placed.mapIdx fun i b => .leaf (b.key.leaf (i + 1)) b

/-- The census holds the fixed nodes, entities made for blocks of `blocks`, and the
leaves of `placed` in order. -/
structure Listed (blocks placed : List Block) (t : ContextTree) : Prop where
  fixed : fixedNodes <+: t.census
  made : ∀ node ∈ t.census.drop 3, node.isLeaf = false →
    ∃ b ∈ blocks, b.precedence ≠ .structural ∧ node = .entity b.key b
  leaves : t.census.filter (·.isLeaf) = leafNodesOf placed
  source : ∀ b ∈ placed, b ∈ blocks ∧ b.precedence ≠ .structural

theorem leafNodesOf_append (placed : List Block) (b : Block) :
    leafNodesOf (placed ++ [b])
      = leafNodesOf placed ++ [.leaf (b.key.leaf (placed.length + 1)) b] := by
  unfold leafNodesOf
  rw [List.mapIdx_append]
  simp

theorem mem_leafNodesOf {node : Node} (h : node ∈ leafNodesOf placed) :
    ∃ i b, placed[i]? = some b ∧ node = .leaf (b.key.leaf (i + 1)) b := by
  obtain ⟨i, hi, rfl⟩ := List.mem_mapIdx.mp h
  exact ⟨i, placed[i], List.getElem?_eq_getElem hi, rfl⟩

/-- The fixed nodes are no leaves and carry no block. -/
theorem of_mem_fixedNodes {node : Node} (h : node ∈ fixedNodes) :
    node.isLeaf = false ∧ node.block = none := by
  simp only [fixedNodes, List.mem_cons, List.not_mem_nil, or_false] at h
  rcases h with rfl | rfl | rfl <;> exact ⟨rfl, rfl⟩

namespace Listed

theorem three_le_size (h : Listed blocks placed t) : 3 ≤ t.nodes.size := by
  rw [← length_census]
  exact h.fixed.length_le

theorem getElem?_of_lt_three (h : Listed blocks placed t) {n : Nat} (hlt : n < 3) :
    t.census[n]? = fixedNodes[n]? := by
  obtain ⟨rest, hrest⟩ := h.fixed
  rw [← hrest, List.getElem?_append_left hlt]

/-- A leaf belongs to a placed block. -/
theorem leaf_of_isLeaf (h : Listed blocks placed t) {n : Nat} {node : Node}
    (hn : t.census[n]? = some node) (hleaf : node.isLeaf = true) :
    ∃ i b, placed[i]? = some b ∧ node = .leaf (b.key.leaf (i + 1)) b := by
  have hmem : node ∈ t.census.filter (·.isLeaf) :=
    List.mem_filter.mpr ⟨List.mem_of_getElem? hn, hleaf⟩
  rw [h.leaves] at hmem
  exact mem_leafNodesOf hmem

/-- The three kinds of nodes. -/
theorem node_cases (h : Listed blocks placed t) {n : Nat} {node : Node}
    (hn : t.census[n]? = some node) :
    (n < 3 ∧ fixedNodes[n]? = some node)
      ∨ (∃ b ∈ blocks, b.precedence ≠ .structural ∧ node = .entity b.key b)
      ∨ ∃ i b, placed[i]? = some b ∧ node = .leaf (b.key.leaf (i + 1)) b := by
  by_cases hlt : n < 3
  · rw [h.getElem?_of_lt_three hlt] at hn
    exact Or.inl ⟨hlt, hn⟩
  · right
    cases hleaf : node.isLeaf with
    | false =>
        left
        refine h.made node (List.mem_iff_getElem?.mpr ⟨n - 3, ?_⟩) hleaf
        rw [List.getElem?_drop, ← hn]
        congr 1
        omega
    | true =>
        right
        exact h.leaf_of_isLeaf hn hleaf

/-- A node with a block that is no leaf is the entity of that block's key. -/
theorem entity_of_block (h : Listed blocks placed t) {n : Nat} {node : Node}
    (hn : t.census[n]? = some node) (hleaf : node.isLeaf = false)
    (hblock : node.block = some b) :
    b ∈ blocks ∧ b.precedence ≠ .structural ∧ node = .entity b.key b := by
  rcases h.node_cases hn with ⟨-, hfixed⟩ | ⟨c, hc, hs, rfl⟩ | ⟨i, c, -, rfl⟩
  · rw [(of_mem_fixedNodes (List.mem_of_getElem? hfixed)).2] at hblock
    cases hblock
  · obtain rfl := Option.some.inj hblock
    exact ⟨hc, hs, rfl⟩
  · cases hleaf

/-- A new node that is no leaf. -/
theorem withEntity (h : Listed blocks placed t) (hb : b ∈ blocks)
    (hs : b.precedence ≠ .structural) {parent : NodeId} :
    Listed blocks placed (t.withEntity b parent) where
  fixed := by
    rw [census_withEntity]
    exact h.fixed.trans (List.prefix_append _ _)
  made := by
    intro node hnode hleaf
    rw [census_withEntity, List.drop_append_of_le_length
      (by rw [length_census]; exact h.three_le_size)] at hnode
    rcases List.mem_append.mp hnode with hnode | hnode
    · exact h.made node hnode hleaf
    · exact ⟨b, hb, hs, List.mem_singleton.mp hnode⟩
  leaves := by
    rw [census_withEntity, List.filter_append, h.leaves]
    simp [Node.entity]
  source := h.source

/-- A new leaf, for the next block. -/
theorem withLeaf (h : Listed blocks placed t) (hcount : t.leafCount = placed.length)
    (hb : b ∈ blocks) (hs : b.precedence ≠ .structural) {owner : NodeId} :
    Listed blocks (placed ++ [b]) (t.withLeaf b owner) where
  fixed := by
    rw [census_withLeaf]
    exact h.fixed.trans (List.prefix_append _ _)
  made := by
    intro node hnode hleaf
    rw [census_withLeaf, List.drop_append_of_le_length
      (by rw [length_census]; exact h.three_le_size)] at hnode
    rcases List.mem_append.mp hnode with hnode | hnode
    · exact h.made node hnode hleaf
    · rw [List.mem_singleton.mp hnode] at hleaf
      cases hleaf
  leaves := by
    rw [census_withLeaf, List.filter_append, h.leaves, leafNodesOf_append, hcount]
    simp [Node.leaf]
  source := by
    intro c hc
    rcases List.mem_append.mp hc with hc | hc
    · exact h.source c hc
    · rw [List.mem_singleton.mp hc]
      exact ⟨hb, hs⟩

end Listed

-- ============================================================ seats

/-- Node `p` is where a node made for block `b` may hang. -/
structure Seat (t : ContextTree) (p : NodeId) (isLeaf : Bool) (b : Block) : Prop where
  leaf : isLeaf = true →
    (p = orphaned ∧ b.precedence ≠ .service) ∨ t.keyAt? p = some b.key
  service : isLeaf = false → b.precedence = .service → p = parented
  child : isLeaf = false → b.precedence ≠ .service →
    ∃ k, b.parentKey? = some k ∧ t.keyAt? p = some k

/-- Every node hangs where its block lets it. -/
def Seated (t : ContextTree) : Prop :=
  ∀ {p c : Nat} {node : Node} {b : Block}, c ∈ t.children p → t.census[c]? = some node →
    node.block = some b → t.Seat p node.isLeaf b

section Seats

variable {t' : ContextTree} {p : NodeId} {node : Node} {isLeaf : Bool}

/-- Only the keys of nodes matter to a seat. -/
theorem Seat.mono (h : t.Seat p isLeaf b)
    (hkeys : ∀ {n k}, t.keyAt? n = some k → t'.keyAt? n = some k) :
    t'.Seat p isLeaf b where
  leaf hl := (h.leaf hl).imp_right hkeys
  service := h.service
  child hl hs := by
    obtain ⟨k, hk, hp⟩ := h.child hl hs
    exact ⟨k, hk, hkeys hp⟩

theorem Seated.added (h : t.Seated) (hown : Owned t.children t.nodes.size)
    (ha : Added t t' node p)
    (hseat : ∀ {b}, node.block = some b → t.Seat p node.isLeaf b) : t'.Seated := by
  have hkeys : ∀ {n k}, t.keyAt? n = some k → t'.keyAt? n = some k :=
    fun hk => ha.keyAt?_iff.mpr (Or.inl hk)
  intro q c x b hc hx hb
  rw [ha.children] at hc
  rcases mem_grow.mp hc with hc | ⟨rfl, rfl⟩
  · rcases ha.census_iff.mp hx with hx | ⟨rfl, -⟩
    · exact (h hc hx hb).mono hkeys
    · exact absurd (hown.bound hc).2 (Nat.lt_irrefl _)
  · rcases ha.census_iff.mp hx with hx | ⟨-, rfl⟩
    · exact absurd (lt_size_of_census hx) (Nat.lt_irrefl _)
    · exact (hseat hb).mono hkeys

theorem Seated.moved (h : t.Seated) {n owner : NodeId} (hm : Moved t t' n owner)
    (hn : ∀ p, n ∈ t.children p → p = orphaned) (hne : owner ≠ orphaned)
    (hnode : t.census[n]? = some node)
    (hseat : ∀ {b}, node.block = some b → t.Seat owner node.isLeaf b) : t'.Seated := by
  have hkeys : ∀ {n k}, t.keyAt? n = some k → t'.keyAt? n = some k :=
    fun hk => hm.keyAt?.trans hk
  intro q c x b hc hx hb
  rw [hm.children] at hc
  rw [hm.census] at hx
  rcases (mem_shift hn hne).mp hc with ⟨hc, -⟩ | ⟨rfl, rfl⟩
  · exact (h hc hx hb).mono hkeys
  · rw [hnode] at hx
    obtain rfl := Option.some.inj hx
    exact (hseat hb).mono hkeys

end Seats

-- ============================================================ the index

/-- What the index is good for although keys may collide. -/
structure Indexed (t : ContextTree) : Prop where
  sound : ∀ {k n}, t.find? k = some n → t.keyAt? n = some k
  complete : ∀ {n k}, t.keyAt? n = some k → ∃ m, t.find? k = some m
  leaf : ∀ {n : Nat} {node}, t.census[n]? = some node → node.isLeaf = true →
    t.find? node.key = some n
  unique : ∀ {m n : Nat} {x y}, t.census[m]? = some x → t.census[n]? = some y →
    x.isLeaf = false → y.isLeaf = false → x.key = y.key → m = n

namespace Indexed

variable {t' : ContextTree} {p : NodeId} {node : Node}

/-- A new node: its key leads to it, and no other key to another node than before. -/
theorem sound_added (h : Indexed t) (ha : Added t t' node p) {k : Key} {n : NodeId}
    (hk : t'.find? k = some n) : t'.keyAt? n = some k := by
  rw [ha.find] at hk
  rw [ha.keyAt?_iff]
  split at hk
  · next heq => exact Or.inr ⟨(Option.some.inj hk).symm, heq⟩
  · exact Or.inl (h.sound hk)

theorem complete_added (h : Indexed t) (ha : Added t t' node p) {k : Key} {n : NodeId}
    (hk : t'.keyAt? n = some k) : ∃ m, t'.find? k = some m := by
  rw [ha.find]
  split
  · exact ⟨_, rfl⟩
  · next hne =>
    rcases ha.keyAt?_iff.mp hk with hk | ⟨-, heq⟩
    · exact h.complete hk
    · exact absurd heq hne

/-- A new entity, whose key nothing has. -/
theorem added_entity (h : Indexed t) (ha : Added t t' node p) (hleaf : node.isLeaf = false)
    (hnone : t.find? node.key = none) : Indexed t' := by
  have hfresh : ∀ {n : Nat} {x}, t.census[n]? = some x → x.key ≠ node.key := by
    intro n x hx heq
    obtain ⟨m, hm⟩ := h.complete (keyAt?_of_census hx)
    rw [heq, hnone] at hm
    cases hm
  refine ⟨h.sound_added ha, h.complete_added ha, ?_, ?_⟩
  · intro n x hx hxl
    rcases ha.census_iff.mp hx with hx | ⟨-, rfl⟩
    · rw [ha.find, if_neg (hfresh hx)]
      exact h.leaf hx hxl
    · rw [hleaf] at hxl
      cases hxl
  · intro m n x y hx hy hxl hyl hkey
    rcases ha.census_iff.mp hx with hx | ⟨rfl, rfl⟩
    · rcases ha.census_iff.mp hy with hy | ⟨-, rfl⟩
      · exact h.unique hx hy hxl hyl hkey
      · exact absurd hkey (hfresh hx)
    · rcases ha.census_iff.mp hy with hy | ⟨rfl, -⟩
      · exact absurd hkey.symm (hfresh hy)
      · rfl

/-- A new leaf, whose key no other leaf has. -/
theorem added_leaf (h : Indexed t) (ha : Added t t' node p) (hleaf : node.isLeaf = true)
    (hfresh : ∀ {n : Nat} {x}, t.census[n]? = some x → x.isLeaf = true → x.key ≠ node.key) :
    Indexed t' := by
  refine ⟨h.sound_added ha, h.complete_added ha, ?_, ?_⟩
  · intro n x hx hxl
    rw [ha.find]
    rcases ha.census_iff.mp hx with hx | ⟨rfl, rfl⟩
    · rw [if_neg (hfresh hx hxl)]
      exact h.leaf hx hxl
    · rw [if_pos rfl]
  · intro m n x y hx hy hxl hyl hkey
    rcases ha.census_iff.mp hx with hx | ⟨-, rfl⟩
    · rcases ha.census_iff.mp hy with hy | ⟨-, rfl⟩
      · exact h.unique hx hy hxl hyl hkey
      · rw [hleaf] at hyl
        cases hyl
    · rw [hleaf] at hxl
      cases hxl

theorem moved (h : Indexed t) {n owner : NodeId} (hm : Moved t t' n owner) : Indexed t' := by
  refine ⟨?_, ?_, ?_, ?_⟩
  · intro k n hk
    rw [hm.find] at hk
    exact hm.keyAt?.trans (h.sound hk)
  · intro n k hk
    rw [hm.keyAt?] at hk
    rw [hm.find]
    exact h.complete hk
  · intro n x hx
    rw [hm.census] at hx
    rw [hm.find]
    exact h.leaf hx
  · intro m n x y hx hy
    rw [hm.census] at hx hy
    exact h.unique hx hy

end Indexed

-- ============================================================ the whole invariant

/-- The invariant of building. `blocks` are the blocks of the whole run, `placed` those
that have a leaf by now. -/
structure Inv (blocks placed : List Block) (t : ContextTree) : Prop where
  count : t.leafCount = placed.length
  listed : Listed blocks placed t
  top : t.children root = [orphaned, parented]
  owned : Owned t.children t.nodes.size
  seated : t.Seated
  indexed : Indexed t

theorem children_empty (p : NodeId) : empty.children p = if p = root then [orphaned, parented] else [] :=
  match p with
  | 0 | 1 | 2 | _ + 3 => rfl

theorem owned_empty : Owned empty.children empty.nodes.size where
  bound := by
    intro p c hc
    rw [children_empty] at hc
    split at hc
    · rcases List.mem_cons.mp hc with rfl | hc
      · decide
      · rw [List.mem_singleton.mp hc]
        decide
    · cases hc
  nodup := by
    intro p
    rw [children_empty]
    split <;> decide
  sole := by
    intro p q c hp hq
    rw [children_empty] at hp hq
    split at hp
    · split at hq
      · simp_all
      · cases hq
    · cases hp
  covered := by
    intro c hpos hlt
    refine ⟨root, ?_⟩
    have hc : c = 1 ∨ c = 2 := by
      have : empty.nodes.size = 3 := rfl
      omega
    rcases hc with rfl | rfl <;> decide

theorem keyAt?_empty {n : NodeId} {k : Key} :
    empty.keyAt? n = some k ↔ (k, n) ∈ empty.index := by
  match n with
  | 0 | 1 | 2 =>
    simp [keyAt?, empty, Node.structural, eq_comm, root, orphaned, parented]
  | n + 3 => simp [keyAt?, empty, root, orphaned, parented]

theorem indexed_empty : Indexed empty where
  sound := by
    intro k n hk
    rw [keyAt?_empty]
    simp only [find?, List.lookup_eq_some_iff] at hk
    obtain ⟨l₁, l₂, h, -⟩ := hk
    rw [h]
    simp
  complete := by
    intro n k hk
    rw [keyAt?_empty] at hk
    simp only [empty, List.mem_cons, List.not_mem_nil, or_false, Prod.mk.injEq] at hk
    rcases hk with ⟨rfl, -⟩ | ⟨rfl, -⟩ | ⟨rfl, -⟩
    · exact ⟨parented, rfl⟩
    · exact ⟨orphaned, rfl⟩
    · exact ⟨root, rfl⟩
  leaf := by
    intro n node hn hl
    match n with
    | 0 | 1 | 2 =>
      simp [empty, census, Node.bare, Node.structural] at hn
      subst hn
      cases hl
    | n + 3 => simp [empty, census] at hn
  unique := by
    intro m n x y hx hy _ _ hkey
    have hm := keyAt?_empty.mp (keyAt?_of_census hx)
    have hn := keyAt?_empty.mp (keyAt?_of_census hy)
    rw [hkey] at hm
    simp only [empty, List.mem_cons, List.not_mem_nil, or_false, Prod.mk.injEq] at hm hn
    grind
theorem inv_empty (blocks : List Block) : Inv blocks [] empty where
  count := rfl
  listed := by
    refine ⟨List.prefix_refl _, ?_, rfl, ?_⟩
    · intro node hnode
      cases hnode
    · intro b hb
      cases hb
  top := rfl
  owned := owned_empty
  seated := by
    intro p c node b _ hnode hb
    have hmem : node ∈ fixedNodes := List.mem_of_getElem? hnode
    simp only [fixedNodes, Node.structural, List.mem_cons, List.not_mem_nil, or_false] at hmem
    rcases hmem with rfl | rfl | rfl <;> cases hb
  indexed := indexed_empty

namespace Inv

variable {parent owner n : NodeId}

-- ------------------------------------------------------------ fixed and other nodes

/-- A node with a key that is not structural is none of the fixed ones. -/
theorem three_le (h : Inv blocks placed t) {k : Key} (hk : t.keyAt? n = some k)
    (hs : k.precedence ≠ .structural) : 3 ≤ n := by
  by_contra hlt
  obtain ⟨node, hnode, rfl⟩ := keyAt?_eq_some_iff.mp hk
  rw [h.listed.getElem?_of_lt_three (Nat.lt_of_not_le hlt)] at hnode
  have hmem : node ∈ fixedNodes := List.mem_of_getElem? hnode
  simp only [fixedNodes, List.mem_cons, List.not_mem_nil, or_false] at hmem
  rcases hmem with rfl | rfl | rfl <;> exact hs rfl

/-- An entity may only hang under a node of the tree below the root, and not among the
orphans. -/
theorem of_seat_entity (h : Inv blocks placed t) (hseat : t.Seat parent false b) :
    parent < t.nodes.size ∧ parent ≠ root ∧ parent ≠ orphaned := by
  by_cases hb : b.precedence = .service
  · rw [hseat.service rfl hb]
    exact ⟨h.listed.three_le_size, by decide, by decide⟩
  · obtain ⟨k, hk, hp⟩ := hseat.child rfl hb
    have hthree : 3 ≤ parent := h.three_le hp (Block.precedence_parentKey_ne hk hb)
    refine ⟨lt_size_of_keyAt? hp, ?_, ?_⟩
    · rintro rfl
      exact absurd hthree (by decide)
    · rintro rfl
      exact absurd hthree (by decide)

/-- The owner of a leaf is a node of the tree, none of the fixed ones. -/
theorem of_owner (h : Inv blocks placed t) (hs : b.precedence ≠ .structural)
    (howner : t.keyAt? owner = some b.key) :
    owner < t.nodes.size ∧ owner ≠ root ∧ owner ≠ orphaned := by
  have hthree : 3 ≤ owner := h.three_le howner hs
  refine ⟨lt_size_of_keyAt? howner, ?_, ?_⟩
  · rintro rfl
    exact absurd hthree (by decide)
  · rintro rfl
    exact absurd hthree (by decide)

theorem top_grow (h : Inv blocks placed t) (hne : parent ≠ root) (c : NodeId) :
    grow t.children parent c root = [orphaned, parented] := by
  rw [grow, if_neg (Ne.symm hne), h.top]

-- ------------------------------------------------------------ the three operations

theorem withEntity (h : Inv blocks placed t) (hb : b ∈ blocks)
    (hs : b.precedence ≠ .structural) (hnone : t.find? b.key = none)
    (hseat : t.Seat parent false b) : Inv blocks placed (t.withEntity b parent) := by
  obtain ⟨hlt, hroot, -⟩ := h.of_seat_entity hseat
  have ha := t.added_withEntity b hlt
  refine ⟨?_, h.listed.withEntity hb hs, ?_, ?_, ?_, h.indexed.added_entity ha rfl hnone⟩
  · rw [leafCount_withEntity, h.count]
  · rw [ha.children, h.top_grow hroot]
  · rw [ha.children, ha.size]
    exact h.owned.grow (Nat.lt_of_lt_of_le (by decide) h.listed.three_le_size) parent
  · refine Seated.added h.seated h.owned ha ?_
    intro c hc
    obtain rfl := Option.some.inj hc
    exact hseat

theorem withLeaf (h : Inv blocks placed t) (hb : b ∈ blocks)
    (hs : b.precedence ≠ .structural)
    (howner : (owner = orphaned ∧ b.precedence ≠ .service) ∨ t.keyAt? owner = some b.key) :
    Inv blocks (placed ++ [b]) (t.withLeaf b owner) := by
  have hplace : owner < t.nodes.size ∧ owner ≠ root := by
    rcases howner with ⟨rfl, -⟩ | hkey
    · exact ⟨Nat.lt_of_lt_of_le (by decide) h.listed.three_le_size, by decide⟩
    · exact ⟨(h.of_owner hs hkey).1, (h.of_owner hs hkey).2.1⟩
  obtain ⟨hlt, hroot⟩ := hplace
  have ha := t.added_withLeaf b hlt
  refine ⟨?_, h.listed.withLeaf h.count hb hs, ?_, ?_, ?_, h.indexed.added_leaf ha rfl ?_⟩
  · rw [leafCount_withLeaf, h.count]
    simp
  · rw [ha.children, h.top_grow hroot]
  · rw [ha.children, ha.size]
    exact h.owned.grow (Nat.lt_of_lt_of_le (by decide) h.listed.three_le_size) owner
  · refine Seated.added h.seated h.owned ha ?_
    intro c hc
    obtain rfl := Option.some.inj hc
    exact ⟨fun _ => howner, by rintro ⟨⟩, by rintro ⟨⟩⟩
  · -- the numbers of the leaves so far are smaller than the new one
    intro n x hx hxl hkey
    obtain ⟨i, c, hc, rfl⟩ := h.listed.leaf_of_isLeaf hx hxl
    have hi : i < placed.length := (List.getElem?_eq_some_iff.mp hc).1
    have hnum := (Key.leaf_inj hkey).2
    rw [h.count] at hnum
    omega

/-- The two fixed nodes below the root. -/
theorem mem_root_of_lt_three (h : Inv blocks placed t) {n : Nat} (hpos : 0 < n) (hlt : n < 3) :
    n ∈ t.children root := by
  rw [h.top]
  match n, hpos, hlt with
  | 1, _, _ => decide
  | 2, _, _ => decide

/-- What hangs under `orphaned`: leaves of blocks that are no services. -/
theorem orphan (h : Inv blocks placed t) (hn : n ∈ t.children orphaned) :
    ∃ i b, b ∈ blocks ∧ b.precedence ≠ .structural ∧ b.precedence ≠ .service
      ∧ t.census[n]? = some (.leaf (b.key.leaf (i + 1)) b) := by
  obtain ⟨node, hnode⟩ := exists_census (h.owned.bound hn).2
  rcases h.listed.node_cases hnode with ⟨hthree, -⟩ | ⟨b, -, hs, rfl⟩ | ⟨i, b, hb, rfl⟩
  · -- the fixed nodes hang under the root, and nowhere else
    have hroot := h.mem_root_of_lt_three (h.owned.bound hn).1 hthree
    exact absurd (h.owned.sole hn hroot) (by decide)
  · have hseat := h.seated hn hnode rfl
    exact absurd rfl (h.of_seat_entity hseat).2.2
  · obtain ⟨hmem, hs⟩ := h.listed.source b (List.mem_of_getElem? hb)
    refine ⟨i, b, hmem, hs, ?_, hnode⟩
    rcases (h.seated hn hnode rfl).leaf rfl with ⟨-, hserv⟩ | howner
    · exact hserv
    · exact absurd rfl (h.of_owner hs howner).2.2

/-- The index finds an orphan by its key. -/
theorem orphan_of_leaf (h : Inv blocks placed t) (hn : n ∈ t.children orphaned) {k : Key}
    (hnode : t.census[n]? = some (.leaf k b)) : t.Orphan k n := by
  refine ⟨h.top, hn, ?_, keyAt?_of_census hnode, h.indexed.leaf hnode rfl⟩
  intro hroot
  exact absurd (h.owned.sole hn hroot) (by decide)

theorem moveUnder (h : Inv blocks placed t) {k : Key} (hs : b.precedence ≠ .structural)
    (hn : t.Orphan k n) (hnode : t.census[n]? = some (.leaf k b))
    (howner : t.keyAt? owner = some b.key) :
    Inv blocks placed (t.moveUnder k owner) := by
  obtain ⟨hlt, hroot, hne⟩ := h.of_owner hs howner
  have hm := hn.moved hlt hne
  refine ⟨?_, ?_, ?_, ?_, ?_, h.indexed.moved hm⟩
  · rw [hn.hangs.leafCount_moveUnder, h.count]
  · obtain ⟨hfixed, hmade, hleaves, hsource⟩ := h.listed
    rw [← hm.census] at hfixed hmade hleaves
    exact ⟨hfixed, hmade, hleaves, hsource⟩
  · rw [hm.children, shift, if_neg (by decide), if_neg (Ne.symm hroot), h.top]
  · rw [hm.children, hm.size]
    exact h.owned.shift hn.mem hne
  · refine Seated.moved h.seated hm (fun p hp => h.owned.sole hp hn.mem) hne hnode ?_
    intro c hc
    obtain rfl := Option.some.inj hc
    exact ⟨fun _ => Or.inr howner, by rintro ⟨⟩, by rintro ⟨⟩⟩

end Inv

end ContextTree

end EventDocs
