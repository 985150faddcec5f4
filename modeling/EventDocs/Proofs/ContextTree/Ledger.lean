import EventDocs.Proofs.ContextTree.Resolution
import EventDocs.Proofs.Document.Outline

/-
Building on lists of blocks. A ledger keeps what a tree under construction amounts to:
the founders of the entities in the order in which these were made, the blocks with a
place in the order in which they got it, and the orphans. There is no index and there
are no nodes; whether an entity is there is asked of the list of founders.

For unmarked blocks a tree is such a ledger and nothing more (`Tracks`): the leaves of an
entity are the blocks of its key, in the order in which they got their place, and its
entities are the founders that name it as their parent, in the order of the founders.
This file states what a ledger does and shows that the two operations that a build is
made of, a new entity and a leaf that gets a place, keep the two in step. That the leaf is
new, or an orphan that moves, makes no difference to its new owner (`Gains`).
-/

namespace EventDocs

-- ============================================================ ledgers

structure Ledger where
  /-- The founders of the entities, in the order in which these were made. -/
  founders : List Block
  /-- The blocks with a place, in the order in which they got it. -/
  content : List Block
  orphans : List Block

namespace Ledger

def empty : Ledger := ⟨[], [], []⟩

/-- There is an entity of that key. -/
def knows (l : Ledger) (k : Key) : Bool := l.founders.any (·.key = k)

/-- There is the entity that a block describes. -/
def knowsEntity (l : Ledger) (b : Block) : Bool := l.knows b.key

/-- There is the entity that a block names as its parent. -/
def knowsParent (l : Ledger) (b : Block) : Bool := b.parentKey?.any l.knows

/-- Give a block its place; it founds its entity if nobody has. -/
def enroll (l : Ledger) (b : Block) : Ledger :=
  { l with
    founders := if l.knows b.key then l.founders else l.founders ++ [b]
    content := l.content ++ [b] }

def setAside (l : Ledger) (b : Block) : Ledger := { l with orphans := l.orphans ++ [b] }

/-- Give a block its place if it is able to have one. -/
def consider (able : Ledger → Block → Bool) (l : Ledger) (b : Block) : Ledger :=
  if able l b then l.enroll b else l.setAside b

def place (l : Ledger) (b : Block) : Ledger :=
  match b.precedence with
  | .structural => l
  | .service => l.enroll b
  | .channel | .operation | .message => l.consider knowsParent b

/-- Consider the orphans once more, one after another. -/
def review (able : Ledger → Block → Bool) (l : Ledger) : Ledger :=
  l.orphans.foldl (consider able) { l with orphans := [] }

def pass (l : Ledger) : Ledger := (l.review knowsEntity).review knowsParent

/-- Passes until one brings the number of orphans down no further. -/
def reconcile (l : Ledger) : Ledger :=
  if l.pass.orphans.length < l.orphans.length then l.pass.reconcile else l.pass
  termination_by l.orphans.length
  decreasing_by assumption

/-- The ledger of some blocks. -/
def ofBlocks (blocks : List Block) : Ledger := (blocks.foldl place empty).reconcile

/-- What documents are made from: the blocks of an entity are those of its key. -/
def outline (l : Ledger) : Outline where
  founders := l.founders
  content k := l.content.filter (·.key = k)

variable {l : Ledger} {b : Block} {k : Key}

theorem knows_iff : l.knows k = true ↔ ∃ f ∈ l.founders, f.key = k := by
  simp [knows]

end Ledger

/-- The block of a node that is no leaf. -/
def Node.entityBlock? (node : Node) : Option (Option Block) :=
  if node.isLeaf then none else some node.block

/-- The founder of an entity. -/
def Node.founder? (node : Node) : Option Block :=
  if node.isLeaf then none else node.block

namespace ContextTree

variable {t t' : ContextTree} {blocks placed : List Block} {b f : Block} {n p : NodeId}
  {k : Key} {l : Ledger}

-- ============================================================ reading children

/-- What can be read off the children of a node, one after another. -/
def read {α : Type} (t : ContextTree) (look : Node → Option α) (n : NodeId) : List α :=
  (t.children n).filterMap fun c => (t.census[c]?).bind look

theorem leafBlocks_eq_read (t : ContextTree) (n : NodeId) :
    t.leafBlocks n = t.read Node.leafBlock? n := t.leafBlocks_eq n

theorem map_blockOf?_entities (t : ContextTree) (n : NodeId) :
    (t.entities n).map t.blockOf? = t.read Node.entityBlock? n := by
  unfold read
  rw [entities_eq, ← List.filterMap_eq_map, List.filterMap_filter]
  refine List.filterMap_congr fun c _ => ?_
  rw [Function.comp_apply, blockOf?_eq]
  cases hc : t.census[c]? with
  | none => rfl
  | some node => cases hleaf : node.isLeaf <;> simp [Node.entityBlock?, hleaf]

/-- A new node is read last among the children of its parent. -/
theorem Added.read {node : Node} (ha : Added t t' node p)
    (hown : Owned t.children t.nodes.size) {α : Type} (look : Node → Option α) (n : NodeId) :
    t'.read look n = t.read look n ++ if n = p then (look node).toList else [] := by
  have hnew : t'.census[t.nodes.size]? = some node := ha.census_iff.mpr (Or.inr ⟨rfl, rfl⟩)
  have hold : (t.children n).filterMap (fun c => (t'.census[c]?).bind look)
      = (t.children n).filterMap fun c => (t.census[c]?).bind look := by
    refine List.filterMap_congr fun c hc => ?_
    obtain ⟨x, hx⟩ := exists_census (hown.bound hc).2
    rw [hx, ha.census_iff.mpr (Or.inl hx)]
  unfold ContextTree.read
  rw [ha.children, grow]
  by_cases hn : n = p
  · subst hn
    rw [if_pos rfl, if_pos rfl, List.filterMap_append, hold]
    congr 1
    rw [List.filterMap_cons, hnew, Option.bind_some]
    cases look node <;> rfl
  · rw [if_neg hn, if_neg hn, hold, List.append_nil]

/-- So is an orphan that moves. -/
theorem Moved.read {node : Node} {owner : NodeId} (hm : Moved t t' n owner)
    (hnode : t.census[n]? = some node) {α : Type} (look : Node → Option α) {m : NodeId}
    (hne : m ≠ orphaned) :
    t'.read look m = t.read look m ++ if m = owner then (look node).toList else [] := by
  unfold ContextTree.read
  rw [hm.children, hm.census, shift, if_neg hne]
  by_cases ho : m = owner
  · subst ho
    rw [if_pos rfl, if_pos rfl, List.filterMap_append]
    congr 1
    rw [List.filterMap_cons, hnode, Option.bind_some]
    cases look node <;> rfl
  · rw [if_neg ho, if_neg ho, List.append_nil]

/-- `t'` has the entities of `t`, and under `p` one more leaf, the last, with block `b`. -/
structure Gains (t t' : ContextTree) (b : Block) (p : NodeId) : Prop where
  founders : t'.census.filterMap Node.founder? = t.census.filterMap Node.founder?
  entity : ∀ {n : NodeId} {f : Block}, t'.census[n]? = some (.entity f.key f) →
    t.census[n]? = some (.entity f.key f)
  leaves : ∀ {n : NodeId}, n ≠ orphaned →
    t'.leafBlocks n = t.leafBlocks n ++ if n = p then [b] else []
  entities : ∀ {n : NodeId}, n ≠ orphaned →
    (t'.entities n).map t'.blockOf? = (t.entities n).map t.blockOf?

theorem gains_withLeaf (hown : Owned t.children t.nodes.size) {owner : NodeId}
    (hlt : owner < t.nodes.size) : Gains t (t.withLeaf b owner) b owner := by
  have ha := t.added_withLeaf b hlt
  refine ⟨?_, ?_, ?_, ?_⟩
  · rw [ha.census, List.filterMap_append]
    exact List.append_nil _
  · intro n f hn
    rcases ha.census_iff.mp hn with hn | ⟨-, hf⟩
    · exact hn
    · cases congrArg Node.isLeaf hf
  · intro n _
    rw [leafBlocks_eq_read, ha.read hown, ← leafBlocks_eq_read]
    rfl
  · intro n _
    rw [map_blockOf?_entities, ha.read hown, ← map_blockOf?_entities]
    simp [Node.entityBlock?, Node.leaf]

theorem Moved.gains {owner : NodeId} (hm : Moved t t' n owner)
    (hnode : t.census[n]? = some (.leaf k b)) : Gains t t' b owner := by
  refine ⟨by rw [hm.census], ?_, ?_, ?_⟩
  · intro m f hn
    rw [← hm.census]
    exact hn
  · intro m hne
    rw [leafBlocks_eq_read, hm.read hnode _ hne, ← leafBlocks_eq_read]
    rfl
  · intro m hne
    rw [map_blockOf?_entities, hm.read hnode _ hne, ← map_blockOf?_entities]
    simp [Node.entityBlock?, Node.leaf]

-- ============================================================ trees and ledgers in step

/-- The tree has the entities of the ledger, and each has its blocks and its entities in
the order of the ledger. Orphans are left out here. -/
structure Tracks (t : ContextTree) (l : Ledger) : Prop where
  founders : t.census.filterMap Node.founder? = l.founders
  known : ∀ b ∈ l.content, l.knowsEntity b = true
  depicts : t.Depicts l.outline

/-- A list with one more element, filtered. -/
theorem filter_concat {α : Type} (test : α → Bool) (l : List α) (a : α) :
    (l ++ [a]).filter test = l.filter test ++ if test a then [a] else [] := by
  rw [List.filter_append, List.filter_cons, List.filter_nil]

/-- Two nodes that are no leaves and share a key are one. -/
theorem Inv.entity_unique (h : Inv blocks placed t) {m n : NodeId} {c f : Block}
    (hm : t.census[m]? = some (.entity c.key c)) (hn : t.census[n]? = some (.entity f.key f))
    (hkey : c.key = f.key) : m = n :=
  h.indexed.unique hm hn rfl rfl hkey

/-- Entities come after the fixed nodes. -/
theorem Inv.three_le_entity (h : Inv blocks placed t)
    (hn : t.census[n]? = some (.entity f.key f)) : 3 ≤ n := by
  obtain ⟨-, hs, -⟩ := h.listed.entity_of_block hn rfl rfl
  exact h.three_le (keyAt?_of_census hn) hs

theorem Inv.entity_ne_orphaned (h : Inv blocks placed t)
    (hn : t.census[n]? = some (.entity f.key f)) : n ≠ orphaned :=
  Nat.ne_of_gt (Nat.lt_of_lt_of_le (by decide) (h.three_le_entity hn))

-- ------------------------------------------------------------ seats of entities

section Seats

variable (h : Inv blocks placed t) {parent : NodeId} (hseat : t.Seat parent false b)
include h hseat

/-- A new entity goes under `parented` exactly if it is a service. -/
theorem Inv.parented_eq_iff : parented = parent ↔ b.precedence = .service := by
  constructor
  · intro hp
    by_contra hserv
    obtain ⟨k, hk, hkey⟩ := hseat.child rfl hserv
    have hthree := h.three_le hkey (b.precedence_parentKey_ne hk hserv)
    rw [← hp] at hthree
    exact absurd hthree (by decide)
  · intro hserv
    exact (hseat.service rfl hserv).symm

/-- It goes under an entity exactly if its block names that one as the parent. -/
theorem Inv.eq_parent_iff (hblocks : Unmarked blocks) (hb : b ∈ blocks)
    (hn : t.census[n]? = some (.entity f.key f)) :
    n = parent ↔ b.parentKey? = some f.key := by
  constructor
  · intro hp
    subst hp
    have hserv : b.precedence ≠ .service := by
      intro hserv
      have hthree : 3 ≤ n := h.three_le_entity hn
      rw [hseat.service rfl hserv] at hthree
      exact absurd hthree (by decide)
    obtain ⟨k, hk, hkey⟩ := hseat.child rfl hserv
    rw [keyAt?_of_census hn] at hkey
    rw [hk, ← hkey]
    rfl
  · intro hk
    obtain ⟨-, hs, -⟩ := h.listed.entity_of_block hn rfl rfl
    have hserv := b.ne_service_of_parentKey hk hs
    obtain ⟨l, hl, hkey⟩ := hseat.child rfl hserv
    obtain rfl : l = f.key := Option.some.inj (hl.symm.trans hk)
    obtain ⟨c, -, -, hck, hc⟩ := h.entity_of_parentKey hblocks hb hserv hk hkey
    exact h.entity_unique hn hc hck.symm

end Seats

namespace Tracks

variable (h : Inv blocks placed t) (hblocks : Unmarked blocks) (htr : t.Tracks l)
include h htr

theorem mem_founders : f ∈ l.founders ↔ ∃ n : NodeId, t.census[n]? = some (.entity f.key f) := by
  rw [← htr.founders, List.mem_filterMap]
  constructor
  · intro ⟨node, hmem, hnode⟩
    obtain ⟨n, hn⟩ := List.mem_iff_getElem?.mp hmem
    unfold Node.founder? at hnode
    cases hleaf : node.isLeaf with
    | true =>
        rw [hleaf] at hnode
        cases hnode
    | false =>
        rw [hleaf] at hnode
        obtain ⟨-, -, rfl⟩ := h.listed.entity_of_block hn hleaf hnode
        exact ⟨n, hn⟩
  · intro ⟨n, hn⟩
    exact ⟨_, List.mem_of_getElem? hn, rfl⟩

/-- The index and the list of founders give the same answer on a key that only an entity
can have. -/
theorem isSome_find? (hk : ∀ n, t.keyAt? n = some k →
      ∃ c ∈ blocks, c.precedence ≠ .structural ∧ c.key = k
        ∧ t.census[n]? = some (.entity c.key c)) :
    (t.find? k).isSome = l.knows k := by
  rw [Bool.eq_iff_iff, Option.isSome_iff_exists, Ledger.knows_iff]
  constructor
  · intro ⟨n, hn⟩
    obtain ⟨c, -, -, hck, hc⟩ := hk n (h.indexed.sound hn)
    exact ⟨c, (htr.mem_founders h).mpr ⟨n, hc⟩, hck⟩
  · intro ⟨f, hf, hfk⟩
    obtain ⟨n, hn⟩ := (htr.mem_founders h).mp hf
    exact h.indexed.complete (hfk ▸ keyAt?_of_census hn)

include hblocks

theorem isSome_find?_key (hb : b ∈ blocks) (hs : b.precedence ≠ .structural) :
    (t.find? b.key).isSome = l.knowsEntity b :=
  htr.isSome_find? h fun _ hn => h.entity_of_key hblocks hb hs hn

theorem isSome_declaredParent? (hb : b ∈ blocks) (hserv : b.precedence ≠ .service) :
    (t.declaredParent? b).isSome = l.knowsParent b := by
  unfold declaredParent? Ledger.knowsParent
  cases hk : b.parentKey? with
  | none => rfl
  | some k => exact htr.isSome_find? h fun _ hn => h.entity_of_parentKey hblocks hb hserv hk hn

-- ------------------------------------------------------------ a new entity

/-- Nothing was recorded for an entity that is not there. -/
theorem content_eq_nil (hb : b ∈ blocks) (hs : b.precedence ≠ .structural)
    (hfind : t.find? b.key = none) : l.outline.content b.key = [] := by
  have hunknown : l.knows b.key = false := by
    have hsome := htr.isSome_find?_key h hblocks hb hs
    rw [hfind] at hsome
    exact hsome.symm
  refine List.filter_eq_nil_iff.mpr fun c hc hkey => ?_
  have hknown : l.knows c.key = true := htr.known c hc
  rw [of_decide_eq_true hkey, hunknown] at hknown
  cases hknown

omit hblocks in
theorem under_eq_nil (hs : b.precedence ≠ .structural) (hfind : t.find? b.key = none) :
    l.outline.under b = [] := by
  refine List.filter_eq_nil_iff.mpr fun c hc hk => ?_
  have hk : c.parentKey? = some b.key := of_decide_eq_true hk
  have hserv := c.ne_service_of_parentKey hk hs
  obtain ⟨m, hm⟩ := (htr.mem_founders h).mp hc
  obtain ⟨p, hp⟩ := h.exists_parent hm rfl
  obtain ⟨k, hck, hkey⟩ := (h.seated hp hm rfl).child rfl hserv
  obtain rfl : k = b.key := Option.some.inj (hck.symm.trans hk)
  obtain ⟨q, hq⟩ := h.indexed.complete hkey
  rw [hfind] at hq
  cases hq

variable {parent : NodeId}

omit hblocks htr in
/-- The new node has no children yet. -/
theorem read_withEntity_new {α : Type} (look : Node → Option α)
    (hseat : t.Seat parent false b) :
    (t.withEntity b parent).read look t.nodes.size = [] := by
  have hlt := (h.of_seat_entity hseat).1
  rw [(t.added_withEntity b hlt).read h.owned, if_neg (Nat.ne_of_gt hlt),
    List.append_nil, read, children_eq_nil (Nat.le_refl _)]
  rfl

theorem depicts_withEntity (hb : b ∈ blocks) (hs : b.precedence ≠ .structural)
    (hfind : t.find? b.key = none) (hseat : t.Seat parent false b) :
    (t.withEntity b parent).Depicts
      { l.outline with founders := l.founders ++ [b] } := by
  have ha := t.added_withEntity b (h.of_seat_entity hseat).1
  refine ⟨?_, ?_, ?_⟩
  · intro n f hn
    rw [leafBlocks_eq_read]
    rcases ha.census_iff.mp hn with hn | ⟨rfl, hf⟩
    · rw [ha.read h.owned, ← leafBlocks_eq_read, htr.depicts.leaves hn]
      simp [Node.leafBlock?, Node.entity]
    · -- the new entity: no block was recorded under its key
      obtain rfl : f = b := Option.some.inj (congrArg Node.block hf)
      rw [read_withEntity_new h _ hseat]
      exact (htr.content_eq_nil h hblocks hb hs hfind).symm
  · intro n f hn
    rw [map_blockOf?_entities, Outline.under, filter_concat, List.map_append]
    rcases ha.census_iff.mp hn with hn | ⟨rfl, hf⟩
    · rw [ha.read h.owned, ← map_blockOf?_entities, htr.depicts.entities hn]
      simp only [h.eq_parent_iff hseat hblocks hb hn, decide_eq_true_eq]
      split <;> rfl
    · -- the new entity: no founder can have named it, nor does it name itself
      obtain rfl : f = b := Option.some.inj (congrArg Node.block hf)
      have hnil : l.founders.filter (·.parentKey? = some f.key) = [] :=
        htr.under_eq_nil h hs hfind
      rw [read_withEntity_new h _ hseat, hnil, if_neg (by simp [f.parentKey?_ne_key])]
      rfl
  · rw [map_blockOf?_entities, Outline.services, filter_concat, List.map_append,
      ha.read h.owned, ← map_blockOf?_entities, htr.depicts.services]
    simp only [h.parented_eq_iff hseat, decide_eq_true_eq]
    split <;> rfl

theorem withEntity (hb : b ∈ blocks) (hs : b.precedence ≠ .structural)
    (hfind : t.find? b.key = none) (hseat : t.Seat parent false b) :
    (t.withEntity b parent).Tracks { l with founders := l.founders ++ [b] } := by
  refine ⟨?_, ?_, htr.depicts_withEntity h hblocks hb hs hfind hseat⟩
  · rw [census_withEntity, List.filterMap_append, htr.founders]
    rfl
  · intro c hc
    obtain ⟨f, hf, hkey⟩ := Ledger.knows_iff.mp (htr.known c hc)
    exact Ledger.knows_iff.mpr ⟨f, List.mem_append_left _ hf, hkey⟩

-- ------------------------------------------------------------ a leaf with a place

omit hblocks in
/-- A leaf under the entity of its block is one more block with a place. -/
theorem gains {owner : NodeId} (hg : Gains t t' b owner)
    (howner : t.census[owner]? = some (.entity f.key f)) (hkey : f.key = b.key) :
    t'.Tracks { l with content := l.content ++ [b] } := by
  refine ⟨by rw [hg.founders, htr.founders], ?_, ?_, ?_, ?_⟩
  · intro c hc
    rcases List.mem_append.mp hc with hc | hc
    · exact htr.known c hc
    · rw [List.mem_singleton.mp hc]
      exact Ledger.knows_iff.mpr ⟨f, (htr.mem_founders h).mpr ⟨owner, howner⟩, hkey⟩
  · intro n g hn
    have hn := hg.entity hn
    have hsame : n = owner ↔ b.key = g.key := by
      rw [← hkey]
      constructor
      · intro heq
        subst heq
        rw [hn] at howner
        exact (congrArg Node.key (Option.some.inj howner)).symm
      · intro heq
        exact (h.entity_unique howner hn heq).symm
    rw [hg.leaves (h.entity_ne_orphaned hn), htr.depicts.leaves hn]
    show _ = (l.content ++ [b]).filter (·.key = g.key)
    rw [filter_concat]
    simp only [hsame, decide_eq_true_eq]
    rfl
  · intro n g hn
    rw [hg.entities (h.entity_ne_orphaned (hg.entity hn)), htr.depicts.entities (hg.entity hn)]
    rfl
  · rw [hg.entities (by decide), htr.depicts.services]
    rfl

omit hblocks in
/-- A leaf among the orphans changes nothing else. -/
theorem gains_orphan (hg : Gains t t' b orphaned) : t'.Tracks l := by
  refine ⟨by rw [hg.founders, htr.founders], htr.known, ?_, ?_, ?_⟩
  · intro n g hn
    have hne := h.entity_ne_orphaned (hg.entity hn)
    rw [hg.leaves hne, if_neg hne, List.append_nil, htr.depicts.leaves (hg.entity hn)]
  · intro n g hn
    rw [hg.entities (h.entity_ne_orphaned (hg.entity hn)), htr.depicts.entities (hg.entity hn)]
  · rw [hg.entities (by decide), htr.depicts.services]

end Tracks

end ContextTree

end EventDocs
