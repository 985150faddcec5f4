import EventDocs.ContextTree.Build
import EventDocs.Proofs.ContextTree.LeafKey

/-
What each operation does to what can be seen of a tree. Four things can be seen:

- the census: every node by its number, without its children. Operations only add
  to its end, so a node never changes its key, its block or its kind;
- the children of a node;
- what the index finds by a key;
- the number of leaf keys given out.

Building a tree is made of three operations: a new entity (`withEntity`), a new leaf
(`withLeaf`) and an orphan that moves (`moveUnder`). Each has one equation for each
of the four, and the placing and adopting functions are stated as compositions of the
three. The equations of a move hold for every node whose parent the search finds
(`Hangs`); an orphan is one. Nothing after this file opens an operation again.
-/

namespace EventDocs

/-- A node without its children. -/
def Node.bare (node : Node) : Node := { node with children := [] }

/-- The block of a leaf. -/
def Node.leafBlock? (node : Node) : Option Block :=
  if node.isLeaf then node.block else none

namespace ContextTree

variable {t : ContextTree}

-- ============================================================ what can be seen

/-- All nodes by their numbers, without their children. -/
def census (t : ContextTree) : List Node := t.nodes.toList.map Node.bare

/-- The key of a node. -/
def keyAt? (t : ContextTree) (n : NodeId) : Option Key := (t.nodes[n]?).map (·.key)

@[simp] theorem length_census (t : ContextTree) : t.census.length = t.nodes.size := by
  simp [census]

theorem getElem?_census (t : ContextTree) (n : NodeId) :
    t.census[n]? = (t.nodes[n]?).map Node.bare := by
  simp [census]

theorem census_of_node {n : NodeId} {node : Node} (h : t.nodes[n]? = some node) :
    t.census[n]? = some node.bare := by
  rw [getElem?_census, h]
  rfl

theorem lt_size_of_census {n : NodeId} {node : Node} (h : t.census[n]? = some node) :
    n < t.nodes.size := by
  obtain ⟨hn, -⟩ := List.getElem?_eq_some_iff.mp h
  simpa using hn

theorem exists_census {n : NodeId} (h : n < t.nodes.size) :
    ∃ node, t.census[n]? = some node := by
  rw [← length_census] at h
  exact ⟨_, List.getElem?_eq_getElem h⟩

theorem keyAt?_eq (t : ContextTree) (n : NodeId) :
    t.keyAt? n = (t.census[n]?).map (·.key) := by
  rw [keyAt?, getElem?_census]
  cases t.nodes[n]? <;> rfl

theorem keyAt?_eq_some_iff {n : NodeId} {k : Key} :
    t.keyAt? n = some k ↔ ∃ node, t.census[n]? = some node ∧ node.key = k := by
  rw [keyAt?_eq, Option.map_eq_some_iff]

theorem keyAt?_of_census {n : NodeId} {node : Node} (h : t.census[n]? = some node) :
    t.keyAt? n = some node.key :=
  keyAt?_eq_some_iff.mpr ⟨node, h, rfl⟩

theorem lt_size_of_keyAt? {n : NodeId} {k : Key} (h : t.keyAt? n = some k) :
    n < t.nodes.size := by
  obtain ⟨node, hnode, -⟩ := keyAt?_eq_some_iff.mp h
  exact lt_size_of_census hnode

theorem leafBlocks_eq (t : ContextTree) (n : NodeId) :
    t.leafBlocks n = (t.children n).filterMap fun c => (t.census[c]?).bind Node.leafBlock? := by
  unfold leafBlocks leaves
  rw [List.filterMap_filter, List.filterMap_filterMap]
  refine List.filterMap_congr fun c _ => ?_
  rw [getElem?_census]
  cases t.nodes[c]? <;> rfl

theorem entities_eq (t : ContextTree) (n : NodeId) :
    t.entities n = (t.children n).filter fun c => (t.census[c]?).any (!·.isLeaf) := by
  refine List.filter_congr fun c _ => ?_
  rw [getElem?_census]
  cases t.nodes[c]? <;> rfl

theorem children_eq_nil (h : t.nodes.size ≤ n) : t.children n = [] := by
  unfold children
  rw [Array.getElem?_eq_none h]

/-- Only a node of the tree has children. -/
theorem lt_size_of_mem_children {p c : NodeId} (h : c ∈ t.children p) :
    p < t.nodes.size := by
  by_contra hp
  rw [children_eq_nil (Nat.le_of_not_lt hp)] at h
  cases h

-- ============================================================ lists of children

/-- Lists of children with `c` put last under `p`. -/
def grow (kids : NodeId → List NodeId) (p c : NodeId) : NodeId → List NodeId :=
  fun q => if q = p then kids p ++ [c] else kids q

/-- Lists of children with `c` taken from under `p` and put last under `q`. -/
def shift (kids : NodeId → List NodeId) (p q c : NodeId) : NodeId → List NodeId :=
  fun r => if r = p then (kids p).filter (· ≠ c) else if r = q then kids q ++ [c] else kids r

section Children

variable {kids : NodeId → List NodeId} {p q r c d : Nat}

theorem mem_grow : d ∈ grow kids p c q ↔ d ∈ kids q ∨ (q = p ∧ d = c) := by
  unfold grow
  by_cases hq : q = p
  · subst hq
    simp
  · simp [hq]

theorem mem_shift (hc : ∀ r, c ∈ kids r → r = p) (hne : q ≠ p) :
    d ∈ shift kids p q c r ↔ (d ∈ kids r ∧ d ≠ c) ∨ (r = q ∧ d = c) := by
  unfold shift
  by_cases hr : r = p
  · subst hr
    simp [Ne.symm hne]
  · have hd : d ∈ kids r → d ≠ c := by
      rintro hd rfl
      exact hr (hc r hd)
    by_cases hq : r = q
    · subst hq
      simp only [if_neg hr, if_true, List.mem_append, List.mem_singleton, true_and]
      exact or_congr_left ⟨fun h => ⟨h, hd h⟩, And.left⟩
    · simp only [if_neg hr, hq, if_false, false_and, or_false]
      exact ⟨fun h => ⟨h, hd h⟩, And.left⟩

end Children

-- ============================================================ the index

theorem lookup_filter_ne (index : List (Key × NodeId)) (k l : Key) :
    (index.filter fun entry => entry.1 ≠ k).lookup l
      = if l = k then none else index.lookup l := by
  induction index with
  | nil => simp
  | cons entry rest ih =>
    obtain ⟨key, n⟩ := entry
    by_cases hk : key = k
    · subst hk
      by_cases hl : l = key
      · simpa [hl] using ih
      · have hl' : (l == key) = false := by simpa using hl
        simpa [hl, hl', List.lookup_cons] using ih
    · by_cases hl : l = key
      · subst hl
        simp [hk]
      · have hl' : (l == key) = false := by simpa using hl
        simpa [hk, hl', List.lookup_cons] using ih

theorem find?_indexAt (t : ContextTree) (k l : Key) (n : NodeId) :
    (t.indexAt k n).find? l = if l = k then some n else t.find? l := by
  unfold find? indexAt
  by_cases hl : l = k
  · simp [hl]
  · have hl' : (l == k) = false := by simpa using hl
    have h := lookup_filter_ne t.index k l
    simp only [if_neg hl] at h ⊢
    rw [← h]
    simp [List.lookup_cons, hl']

theorem find?_unindex (t : ContextTree) (k l : Key) :
    (t.unindex k).find? l = if l = k then none else t.find? l :=
  lookup_filter_ne t.index k l

@[simp] theorem find?_modifyChildren (t : ContextTree) (n : NodeId)
    (f : List NodeId → List NodeId) (k : Key) :
    (t.modifyChildren n f).find? k = t.find? k := rfl

-- ============================================================ children

@[simp] theorem census_modifyChildren (t : ContextTree) (n : NodeId)
    (f : List NodeId → List NodeId) : (t.modifyChildren n f).census = t.census := by
  apply List.ext_getElem?
  intro i
  rw [getElem?_census, getElem?_census, modifyChildren, Array.getElem?_modify]
  split
  · next hi =>
    subst hi
    cases t.nodes[n]? <;> rfl
  · rfl

theorem children_modifyChildren {n : NodeId} (h : n < t.nodes.size)
    (f : List NodeId → List NodeId) (q : NodeId) :
    (t.modifyChildren n f).children q
      = if q = n then f (t.children n) else t.children q := by
  unfold children modifyChildren
  rw [Array.getElem?_modify]
  by_cases hq : q = n
  · subst hq
    rw [Array.getElem?_eq_getElem h]
    simp
  · simp [hq, Ne.symm hq]

-- ============================================================ a new node

section Add

variable {node : Node} {parent : NodeId}

theorem add_eq (t : ContextTree) (node : Node) (parent : NodeId) :
    (t.add node parent).2
      = (({ t with nodes := t.nodes.push node } : ContextTree).indexAt node.key
          t.nodes.size).modifyChildren parent (· ++ [t.nodes.size]) := by
  simp [add, attach]

theorem census_add (t : ContextTree) (node : Node) (parent : NodeId) :
    (t.add node parent).2.census = t.census ++ [node.bare] := by
  rw [add_eq, census_modifyChildren]
  simp [census]

theorem find?_add (t : ContextTree) (node : Node) (parent : NodeId) (k : Key) :
    (t.add node parent).2.find? k
      = if k = node.key then some t.nodes.size else t.find? k := by
  rw [add_eq, find?_modifyChildren, find?_indexAt]
  rfl

/-- A new node comes last among the children of its parent; it has none itself. -/
theorem children_add (hnode : node.children = []) (h : parent < t.nodes.size) :
    (t.add node parent).2.children = grow t.children parent t.nodes.size := by
  have hpushed : ∀ q, children ({ t with nodes := t.nodes.push node }.indexAt node.key
      t.nodes.size) q = t.children q := by
    intro q
    unfold children
    rw [nodes_indexAt, Array.getElem?_push]
    by_cases hq : q = t.nodes.size
    · subst hq
      simp [hnode]
    · rw [if_neg hq]
  have hsize : parent < (t.nodes.push node).size := by
    rw [Array.size_push]
    exact Nat.lt_succ_of_lt h
  funext q
  rw [add_eq, children_modifyChildren hsize, hpushed, hpushed]
  rfl

theorem leafCount_add (t : ContextTree) (node : Node) (parent : NodeId) :
    (t.add node parent).2.leafCount = t.leafCount := by
  rw [add_eq]
  rfl

end Add

-- ============================================================ attaching and deleting

theorem leafCount_attach (t : ContextTree) (n parent : NodeId) :
    (t.attach n parent).leafCount = t.leafCount := by
  unfold attach
  cases t.nodes[n]? <;> rfl

theorem leafCount_delete (t : ContextTree) (k : Key) :
    (t.delete k).2.leafCount = t.leafCount := by
  unfold delete
  cases t.find? k with
  | none => rfl
  | some n =>
      simp only
      cases (t.unindex k).findParent? n <;> rfl

-- ============================================================ a node that moves

/-- The search looks at nothing but children. -/
theorem searchLevels_unindex (t : ContextTree) (k : Key) (child : NodeId) (fuel : Nat)
    (level : List NodeId) :
    (t.unindex k).searchLevels child fuel level = t.searchLevels child fuel level := by
  have hchildren : (t.unindex k).children = t.children := rfl
  induction fuel generalizing level with
  | zero => rfl
  | succ fuel ih => simp only [searchLevels, hchildren, ih]

theorem findParent?_unindex (t : ContextTree) (k : Key) (n : NodeId) :
    (t.unindex k).findParent? n = t.findParent? n :=
  t.searchLevels_unindex k n t.nodes.size [root]

/-- The index finds node `n` by its key `k`, and the search finds `p` as its parent. -/
structure Hangs (t : ContextTree) (k : Key) (n p : NodeId) : Prop where
  key : t.keyAt? n = some k
  find : t.find? k = some n
  parent : t.findParent? n = some p

namespace Hangs

variable {k : Key} {n p owner : NodeId}

/-- A move takes the node out of the index and from under its parent, then puts it back
under its owner. -/
theorem moveUnder_eq (h : t.Hangs k n p) (owner : NodeId) :
    t.moveUnder k owner
      = (((t.unindex k).modifyChildren p (·.filter (· ≠ n))).indexAt k n).modifyChildren owner
          (· ++ [n]) := by
  have hkey : ((t.unindex k).modifyChildren p (·.filter (· ≠ n))).keyAt? n = some k := by
    rw [keyAt?_eq, census_modifyChildren]
    exact (t.keyAt?_eq n).symm.trans h.key
  obtain ⟨node, hnode, rfl⟩ := Option.map_eq_some_iff.mp hkey
  unfold moveUnder delete
  simp only [h.find, findParent?_unindex, h.parent]
  unfold attach
  rw [hnode]

theorem census_moveUnder (h : t.Hangs k n p) (owner : NodeId) :
    (t.moveUnder k owner).census = t.census := by
  rw [h.moveUnder_eq owner, census_modifyChildren]
  show ((t.unindex k).modifyChildren p _).census = t.census
  rw [census_modifyChildren]
  rfl

theorem find?_moveUnder (h : t.Hangs k n p) (owner : NodeId) (l : Key) :
    (t.moveUnder k owner).find? l = t.find? l := by
  rw [h.moveUnder_eq owner, find?_modifyChildren, find?_indexAt, find?_modifyChildren,
    find?_unindex]
  by_cases hl : l = k
  · rw [if_pos hl, hl, h.find]
  · rw [if_neg hl, if_neg hl]

theorem leafCount_moveUnder (h : t.Hangs k n p) (owner : NodeId) :
    (t.moveUnder k owner).leafCount = t.leafCount := by
  rw [h.moveUnder_eq owner]
  rfl

/-- A move changes two lists of children, or one twice, and no other. -/
theorem children_moveUnder (h : t.Hangs k n p) (hp : p < t.nodes.size)
    (howner : owner < t.nodes.size) (q : NodeId) :
    (t.moveUnder k owner).children q
      = (if q = p then (t.children p).filter (· ≠ n) else t.children q)
          ++ if q = owner then [n] else [] := by
  have hremoved : ∀ r, children (((t.unindex k).modifyChildren p
      (·.filter (· ≠ n))).indexAt k n) r
      = if r = p then (t.children p).filter (· ≠ n) else t.children r :=
    children_modifyChildren (t := t.unindex k) hp _
  have howner' : owner < (((t.unindex k).modifyChildren p
      (·.filter (· ≠ n))).indexAt k n).nodes.size := by
    rw [nodes_indexAt, size_modifyChildren]
    exact howner
  rw [h.moveUnder_eq owner, children_modifyChildren howner', hremoved, hremoved]
  by_cases hq : q = owner
  · subst hq
    rw [if_pos rfl, if_pos rfl]
  · rw [if_neg hq, if_neg hq, List.append_nil]

end Hangs

-- ============================================================ an orphan that moves

/-- The search for the parent of an orphan ends on its second level. -/
theorem findParent?_eq_orphaned {n : NodeId} (top : t.children root = [orphaned, parented])
    (mem : n ∈ t.children orphaned) (not_top : n ∉ t.children root) :
    t.findParent? n = some orphaned := by
  have hsize : 1 < t.nodes.size := lt_size_of_mem_children mem
  obtain ⟨fuel, hfuel⟩ : ∃ fuel, t.nodes.size = fuel + 2 := ⟨t.nodes.size - 2, by omega⟩
  have htop : (t.children root).contains n = false := by simpa using not_top
  have hlow : (t.children orphaned).contains n = true := by simpa using mem
  unfold findParent?
  rw [hfuel]
  simp only [searchLevels, List.find?_cons, htop, List.find?_nil, List.flatMap_cons,
    List.flatMap_nil, List.append_nil]
  rw [top]
  simp only [List.find?_cons, hlow]

/-- The index finds node `n` by its key `k`, and `n` hangs under `orphaned`. -/
structure Orphan (t : ContextTree) (k : Key) (n : NodeId) : Prop where
  top : t.children root = [orphaned, parented]
  mem : n ∈ t.children orphaned
  not_top : n ∉ t.children root
  key : t.keyAt? n = some k
  find : t.find? k = some n

namespace Orphan

variable {k : Key} {n owner : NodeId}

theorem hangs (h : t.Orphan k n) : t.Hangs k n orphaned :=
  ⟨h.key, h.find, findParent?_eq_orphaned h.top h.mem h.not_top⟩

/-- The move of an orphan to a place elsewhere changes two lists of children. -/
theorem children_moveUnder (h : t.Orphan k n) (howner : owner < t.nodes.size)
    (hne : owner ≠ orphaned) :
    (t.moveUnder k owner).children = shift t.children orphaned owner n := by
  funext q
  rw [h.hangs.children_moveUnder (lt_size_of_mem_children h.mem) howner, shift]
  by_cases hq : q = orphaned
  · rw [if_pos hq, if_pos hq, if_neg (hq ▸ Ne.symm hne), List.append_nil]
  · rw [if_neg hq, if_neg hq]
    by_cases ho : q = owner
    · subst ho
      rw [if_pos rfl, if_pos rfl]
    · rw [if_neg ho, if_neg ho, List.append_nil]

end Orphan

-- ============================================================ a new entity

section WithEntity

variable (t : ContextTree) (b : Block) {parent : NodeId}

/-- The tree with a new entity, made for a block. -/
def withEntity (parent : NodeId) : ContextTree :=
  (t.add (.entity b.key b) parent).2

theorem census_withEntity :
    (t.withEntity b parent).census = t.census ++ [.entity b.key b] :=
  census_add t _ parent

theorem find?_withEntity (k : Key) :
    (t.withEntity b parent).find? k
      = if k = b.key then some t.nodes.size else t.find? k :=
  find?_add t _ parent k

theorem children_withEntity (h : parent < t.nodes.size) :
    (t.withEntity b parent).children = grow t.children parent t.nodes.size :=
  children_add rfl h

theorem leafCount_withEntity : (t.withEntity b parent).leafCount = t.leafCount :=
  leafCount_add t _ parent

end WithEntity

-- ============================================================ a new leaf

section WithLeaf

variable (t : ContextTree) (b : Block) {owner : NodeId}

/-- The tree with a new leaf for a block. -/
def withLeaf (owner : NodeId) : ContextTree :=
  ((t.leafKey b.key).2.add (.leaf (t.leafKey b.key).1 b) owner).2

theorem census_withLeaf :
    (t.withLeaf b owner).census = t.census ++ [.leaf (b.key.leaf (t.leafCount + 1)) b] :=
  census_add _ _ owner

theorem find?_withLeaf (k : Key) :
    (t.withLeaf b owner).find? k
      = if k = b.key.leaf (t.leafCount + 1) then some t.nodes.size else t.find? k :=
  find?_add _ _ owner k

theorem children_withLeaf (h : owner < t.nodes.size) :
    (t.withLeaf b owner).children = grow t.children owner t.nodes.size :=
  children_add (t := (t.leafKey b.key).2) rfl h

theorem leafCount_withLeaf : (t.withLeaf b owner).leafCount = t.leafCount + 1 :=
  leafCount_add _ _ owner

end WithLeaf

-- ============================================================ what the operations share

/-- An element of a list with one more at its end. -/
theorem getElem?_concat_iff {α : Type} {l : List α} {a x : α} {n : Nat} :
    (l ++ [a])[n]? = some x ↔ l[n]? = some x ∨ (n = l.length ∧ x = a) := by
  rcases Nat.lt_trichotomy n l.length with hn | hn | hn
  · rw [List.getElem?_append_left hn]
    simp [Nat.ne_of_lt hn]
  · subst hn
    simp [eq_comm]
  · rw [List.getElem?_eq_none (by simp; omega), List.getElem?_eq_none (by omega)]
    simp [Nat.ne_of_gt hn]

/-- `t'` is `t` with one more node, the last child of `parent`. -/
structure Added (t t' : ContextTree) (node : Node) (parent : NodeId) : Prop where
  census : t'.census = t.census ++ [node]
  children : t'.children = grow t.children parent t.nodes.size
  find : ∀ k, t'.find? k = if k = node.key then some t.nodes.size else t.find? k

/-- `t'` is `t` with node `n` moved from under `orphaned` to under `owner`. -/
structure Moved (t t' : ContextTree) (n owner : NodeId) : Prop where
  census : t'.census = t.census
  children : t'.children = shift t.children orphaned owner n
  find : ∀ k, t'.find? k = t.find? k

theorem added_withEntity (t : ContextTree) (b : Block) {parent : NodeId}
    (h : parent < t.nodes.size) :
    Added t (t.withEntity b parent) (.entity b.key b) parent :=
  ⟨t.census_withEntity b, t.children_withEntity b h, t.find?_withEntity b⟩

theorem added_withLeaf (t : ContextTree) (b : Block) {owner : NodeId}
    (h : owner < t.nodes.size) :
    Added t (t.withLeaf b owner) (.leaf (b.key.leaf (t.leafCount + 1)) b) owner :=
  ⟨t.census_withLeaf b, t.children_withLeaf b h, t.find?_withLeaf b⟩

theorem Orphan.moved {k : Key} {n owner : NodeId} (h : t.Orphan k n)
    (howner : owner < t.nodes.size) (hne : owner ≠ orphaned) :
    Moved t (t.moveUnder k owner) n owner :=
  ⟨h.hangs.census_moveUnder owner, h.children_moveUnder howner hne, h.hangs.find?_moveUnder owner⟩

namespace Added

variable {t' : ContextTree} {node x : Node} {parent : NodeId} {n : Nat} {k : Key}

theorem census_iff (h : Added t t' node parent) :
    t'.census[n]? = some x ↔ t.census[n]? = some x ∨ (n = t.nodes.size ∧ x = node) := by
  rw [h.census, getElem?_concat_iff, length_census]

theorem keyAt?_iff (h : Added t t' node parent) :
    t'.keyAt? n = some k ↔ t.keyAt? n = some k ∨ (n = t.nodes.size ∧ k = node.key) := by
  simp only [keyAt?_eq_some_iff, h.census_iff]
  constructor
  · rintro ⟨x, hx | ⟨hn, rfl⟩, rfl⟩
    · exact Or.inl ⟨x, hx, rfl⟩
    · exact Or.inr ⟨hn, rfl⟩
  · rintro (⟨x, hx, rfl⟩ | ⟨hn, rfl⟩)
    · exact ⟨x, Or.inl hx, rfl⟩
    · exact ⟨node, Or.inr ⟨hn, rfl⟩, rfl⟩

theorem size (h : Added t t' node parent) : t'.nodes.size = t.nodes.size + 1 := by
  rw [← length_census, h.census]
  simp

end Added

namespace Moved

variable {t' : ContextTree} {n owner m : NodeId}

theorem keyAt? (h : Moved t t' n owner) : t'.keyAt? m = t.keyAt? m := by
  rw [keyAt?_eq, keyAt?_eq, h.census]

theorem size (h : Moved t t' n owner) : t'.nodes.size = t.nodes.size := by
  rw [← length_census, h.census, length_census]

end Moved

-- ============================================================ placing and adopting

section Compositions

variable (t : ContextTree) {b : Block} {n : NodeId} {i : Nat}

/-- Give a block a leaf under its entity, which is made under `parent` if it is not
there. -/
def settle (b : Block) (parent : NodeId) : ContextTree :=
  match t.find? b.key with
  | some owner => t.withLeaf b owner
  | none => (t.withEntity b parent).withLeaf b t.nodes.size

/-- Move the orphan of a block under its entity, which is made under `parent` if it
is not there. -/
def resettle (k : Key) (b : Block) (parent : NodeId) : ContextTree :=
  match t.find? b.key with
  | some owner => t.moveUnder k owner
  | none => (t.withEntity b parent).moveUnder k t.nodes.size

/-- Giving out a leaf key and making the entity may change places. -/
theorem settle_eq (b : Block) (parent : NodeId) :
    (((t.leafKey b.key).2.findOrCreate b.key b parent).2.add
        (.leaf (t.leafKey b.key).1 b)
        ((t.leafKey b.key).2.findOrCreate b.key b parent).1).2 = t.settle b parent := by
  unfold settle findOrCreate
  have hfind : (t.leafKey b.key).2.find? b.key = t.find? b.key := rfl
  rw [hfind]
  cases t.find? b.key with
  | some owner => rfl
  | none =>
      have hcomm : ((t.leafKey b.key).2.add (.entity b.key b) parent).2
          = ((t.withEntity b parent).leafKey b.key).2 := by
        rw [withEntity, add_eq, leafKey, leafKey, leafCount_add, add_eq]
        rfl
      have hkey : ((t.withEntity b parent).leafKey b.key).1 = (t.leafKey b.key).1 := by
        rw [leafKey, leafKey, leafCount_withEntity]
      unfold withLeaf
      rw [hkey, ← hcomm]
      rfl

theorem placeService_eq (b : Block) : t.placeService b = t.settle b parented :=
  t.settle_eq b parented

theorem placeChild_eq (b : Block) :
    t.placeChild b = match t.declaredParent? b with
      | some parent => t.settle b parent
      | none => t.withLeaf b orphaned := by
  have hparent : (t.leafKey b.key).2.declaredParent? b = t.declaredParent? b := rfl
  unfold placeChild
  simp only [hparent]
  cases t.declaredParent? b with
  | some parent => exact t.settle_eq b parent
  | none => rfl

variable {t} (h : t.census[n]? = some (.leaf (b.key.leaf i) b))
include h

theorem adoptByOwner_eq :
    t.adoptByOwner n = match t.find? b.key with
      | some owner => t.moveUnder (b.key.leaf i) owner
      | none => t := by
  rw [getElem?_census] at h
  obtain ⟨⟨key, block, children, isLeaf⟩, hnode, hbare⟩ := Option.map_eq_some_iff.mp h
  simp only [Node.bare, Node.leaf, Node.mk.injEq] at hbare
  obtain ⟨rfl, -, -, -⟩ := hbare
  unfold adoptByOwner
  cases hfind : t.find? b.key with
  | some owner => simp only [hnode, Key.owner_leaf, hfind]
  | none => simp only [hnode, Key.owner_leaf, hfind]

theorem adoptByParent_eq :
    t.adoptByParent n = match t.declaredParent? b with
      | some parent => t.resettle (b.key.leaf i) b parent
      | none => t := by
  rw [getElem?_census] at h
  obtain ⟨⟨key, block, children, isLeaf⟩, hnode, hbare⟩ := Option.map_eq_some_iff.mp h
  simp only [Node.bare, Node.leaf, Node.mk.injEq] at hbare
  obtain ⟨rfl, rfl, -, -⟩ := hbare
  unfold adoptByParent resettle findOrCreate
  simp only [hnode, Key.owner_leaf]
  cases t.declaredParent? b with
  | none => rfl
  | some parent => cases t.find? b.key <;> rfl

end Compositions

end ContextTree

end EventDocs
