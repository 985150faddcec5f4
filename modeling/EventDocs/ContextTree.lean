import EventDocs.Block
import EventDocs.Text.Split

/-
The context tree: which block belongs to which entity, and which entity to
which parent.

    root
    ├── orphaned      leaves whose parent is not known (yet)
    └── parented      service ── channel ── operation ── message

An entity is a node for a service, channel, operation or message; the blocks
that describe it hang under it as leaves. Nodes are numbered in the order in
which they were added and never renumbered. An index finds a node by its key,
precedence and id; attaching a node indexes it, and deleting it takes it out of
the index together with the structure.
-/

namespace EventDocs

-- ============================================================ keys

/-- What a node is found by. -/
structure Key where
  precedence : Precedence
  id : String
deriving DecidableEq, Repr, Inhabited

namespace Key

/-- Stands between the id of an entity and the number of one of its leaves. -/
def leafMark : List Char := ['_', '_', 'l', 'e', 'a', 'f', '_', '_']

/-- The key of the entity that a leaf's key belongs to: all before the last
leaf mark. -/
def owner (k : Key) : Key :=
  match Text.cutOnLast leafMark k.id.toList with
  | some (id, _) => ⟨k.precedence, .ofList id⟩
  | none => k

/-- The key of the leaf number `n` of an entity. -/
def leaf (k : Key) (n : Nat) : Key :=
  ⟨k.precedence, .ofList (k.id.toList ++ leafMark ++ Nat.toDigits 10 n)⟩

/-- The key one level up under which a parent of that name would be. -/
def ofParent? (p : Precedence) (parent : String) : Option Key :=
  p.parent?.map fun level => ⟨level, parent⟩

/-- `<precedence>_#_<id>` -/
def text (k : Key) : String :=
  k.precedence.number.repr ++ "_#_" ++ k.id

end Key

/-- The key of the entity that a block describes. -/
def Block.key (b : Block) : Key := ⟨b.precedence, b.label.id⟩

/-- The key of the entity that a block names as its parent. -/
def Block.parentKey? (b : Block) : Option Key :=
  Key.ofParent? b.precedence b.label.parent

-- ============================================================ trees

/-- A node by its number. -/
abbrev NodeId := Nat

structure Node where
  key : Key
  /-- The block that the node was made for; none for the three fixed nodes. -/
  block : Option Block
  /-- In the order in which they were attached. -/
  children : List NodeId
  isLeaf : Bool
deriving DecidableEq, Repr, Inhabited

namespace Node

/-- A node that only holds the tree together. -/
def structural (id : String) (children : List NodeId) : Node :=
  ⟨⟨.structural, id⟩, none, children, false⟩

/-- The node of an entity. -/
def entity (key : Key) (block : Block) : Node := ⟨key, some block, [], false⟩

/-- The node of a block. -/
def leaf (key : Key) (block : Block) : Node := ⟨key, some block, [], true⟩

end Node

structure ContextTree where
  nodes : Array Node
  /-- Nodes by their keys; every key stands here once at most. -/
  index : List (Key × NodeId)
  /-- How many leaf keys have been given out. -/
  leafCount : Nat
deriving DecidableEq, Repr

namespace ContextTree

/-- The top of every tree. -/
def root : NodeId := 0

/-- Holds the leaves that have no place. -/
def orphaned : NodeId := 1

/-- Holds the services. -/
def parented : NodeId := 2

/-- The tree without blocks. -/
def empty : ContextTree where
  nodes := #[.structural "root" [orphaned, parented], .structural "orphaned" [],
    .structural "parented" []]
  index := [(⟨.structural, "parented"⟩, parented), (⟨.structural, "orphaned"⟩, orphaned),
    (⟨.structural, "root"⟩, root)]
  leafCount := 0

-- ------------------------------------------------------------ looking

/-- The children of a node; none if there is no such node. -/
def children (t : ContextTree) (n : NodeId) : List NodeId :=
  match t.nodes[n]? with
  | some node => node.children
  | none => []

/-- How many leaves have no place. -/
def orphanCount (t : ContextTree) : Nat := (t.children orphaned).length

/-- The node that the index has for a key. -/
def find? (t : ContextTree) (k : Key) : Option NodeId := t.index.lookup k

/-- Look for the node that holds `child`, level by level. -/
def searchLevels (t : ContextTree) (child : NodeId) : Nat → List NodeId → Option NodeId
  | 0, _ => none
  | fuel + 1, level =>
    match level.find? fun n => (t.children n).contains child with
    | some n => some n
    | none => searchLevels t child fuel (level.flatMap t.children)

/-- The first node, from the root downwards and from left to right, that has
`child` among its children. There are no more levels than nodes. -/
def findParent? (t : ContextTree) (child : NodeId) : Option NodeId :=
  t.searchLevels child t.nodes.size [root]

/-- The children of a node that are leaves. -/
def leaves (t : ContextTree) (n : NodeId) : List Node :=
  ((t.children n).filterMap (t.nodes[·]?)).filter (·.isLeaf)

/-- The children of a node that are entities. -/
def entities (t : ContextTree) (n : NodeId) : List NodeId :=
  (t.children n).filter fun c => (t.nodes[c]?).any (!·.isLeaf)

/-- The blocks of the leaves under a node. -/
def leafBlocks (t : ContextTree) (n : NodeId) : List Block :=
  (t.leaves n).filterMap (·.block)

-- ------------------------------------------------------------ changing

/-- A key for a new leaf of an entity, never given out before. -/
def leafKey (t : ContextTree) (k : Key) : Key × ContextTree :=
  (k.leaf (t.leafCount + 1), { t with leafCount := t.leafCount + 1 })

/-- Change the list of children of a node. -/
def modifyChildren (t : ContextTree) (n : NodeId) (f : List NodeId → List NodeId) :
    ContextTree :=
  { t with nodes := t.nodes.modify n fun node => { node with children := f node.children } }

/-- Let the index find node `n` by a key, whatever it found before. -/
def indexAt (t : ContextTree) (k : Key) (n : NodeId) : ContextTree :=
  { t with index := (k, n) :: t.index.filter fun entry => entry.1 ≠ k }

/-- Let the index find nothing by a key. -/
def unindex (t : ContextTree) (k : Key) : ContextTree :=
  { t with index := t.index.filter fun entry => entry.1 ≠ k }

/-- Make a node the last child of another and index it. -/
def attach (t : ContextTree) (n parent : NodeId) : ContextTree :=
  match t.nodes[n]? with
  | some node => (t.indexAt node.key n).modifyChildren parent (· ++ [n])
  | none => t

/-- Add a node as the last child of another; it gets the next number. -/
def add (t : ContextTree) (node : Node) (parent : NodeId) : NodeId × ContextTree :=
  (t.nodes.size, { t with nodes := t.nodes.push node }.attach t.nodes.size parent)

/-- Take the node that the index has for a key out of the index and away from
its parent. It keeps its children and may be attached again. -/
def delete (t : ContextTree) (k : Key) : Option NodeId × ContextTree :=
  match t.find? k with
  | none => (none, t)
  | some n =>
    let t := t.unindex k
    match t.findParent? n with
    | some parent => (some n, t.modifyChildren parent (·.filter (· ≠ n)))
    | none => (some n, t)

-- ------------------------------------------------------------ small laws

@[simp] theorem nodes_indexAt (t : ContextTree) (k : Key) (n : NodeId) :
    (t.indexAt k n).nodes = t.nodes := rfl

@[simp] theorem nodes_unindex (t : ContextTree) (k : Key) : (t.unindex k).nodes = t.nodes := rfl

@[simp] theorem index_modifyChildren (t : ContextTree) (n : NodeId)
    (f : List NodeId → List NodeId) : (t.modifyChildren n f).index = t.index := rfl

@[simp] theorem size_modifyChildren (t : ContextTree) (n : NodeId)
    (f : List NodeId → List NodeId) : (t.modifyChildren n f).nodes.size = t.nodes.size := by
  simp [modifyChildren]

end ContextTree

end EventDocs
