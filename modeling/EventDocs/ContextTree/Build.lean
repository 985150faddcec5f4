import EventDocs.ContextTree

/-
Building the context tree from a list of blocks. Each block is placed in turn:
a service always finds a place, any other block if its parent has one, and the
rest are orphaned. Then passes over the orphans give a place to every orphan
whose entity or whose parent has appeared meanwhile, until a pass leaves as many
orphans as it found.
-/

namespace EventDocs.ContextTree

-- ============================================================ placing

/-- The node of the block's parent, if it is there. -/
def declaredParent? (t : ContextTree) (b : Block) : Option NodeId :=
  b.parentKey?.bind t.find?

/-- The node for a key, made under `parent` if it is not there. -/
def findOrCreate (t : ContextTree) (k : Key) (b : Block) (parent : NodeId) :
    NodeId × ContextTree :=
  match t.find? k with
  | some n => (n, t)
  | none => t.add (.entity k b) parent

/-- Place a block of a service, which needs no parent. -/
def placeService (t : ContextTree) (b : Block) : ContextTree :=
  let (leafKey, t) := t.leafKey b.key
  let (owner, t) := t.findOrCreate b.key b parented
  (t.add (.leaf leafKey b) owner).2

/-- Place a block of a channel, operation or message under its parent, or among
the orphans. -/
def placeChild (t : ContextTree) (b : Block) : ContextTree :=
  let (leafKey, t) := t.leafKey b.key
  match t.declaredParent? b with
  | some parent =>
    let (owner, t) := t.findOrCreate b.key b parent
    (t.add (.leaf leafKey b) owner).2
  | none => (t.add (.leaf leafKey b) orphaned).2

/-- Place a block by its precedence. -/
def place (t : ContextTree) (b : Block) : ContextTree :=
  match b.precedence with
  | .structural => t
  | .service => t.placeService b
  | .channel | .operation | .message => t.placeChild b

-- ============================================================ adopting

/-- Move the node of a key under another node. -/
def moveUnder (t : ContextTree) (k : Key) (owner : NodeId) : ContextTree :=
  match t.delete k with
  | (some n, t) => t.attach n owner
  | (none, t) => t

/-- Move an orphan under its entity, if that is there. -/
def adoptByOwner (t : ContextTree) (orphan : NodeId) : ContextTree :=
  match t.nodes[orphan]? with
  | some node =>
    match t.find? node.key.owner with
    | some owner => t.moveUnder node.key owner
    | none => t
  | none => t

/-- Move an orphan under its entity if its parent is there, making the entity if
need be. -/
def adoptByParent (t : ContextTree) (orphan : NodeId) : ContextTree :=
  match t.nodes[orphan]? with
  | some { key, block := some b, .. } =>
    match t.declaredParent? b with
    | some parent =>
      let (owner, t) := t.findOrCreate key.owner b parent
      t.moveUnder key owner
    | none => t
  | _ => t

/-- One pass: all orphans by their owner, then those that are left by their
parent. -/
def pass (t : ContextTree) : ContextTree :=
  let t := (t.children orphaned).foldl adoptByOwner t
  (t.children orphaned).foldl adoptByParent t

/-- Passes until one brings the number of orphans down no further. -/
def reconcile (t : ContextTree) : ContextTree :=
  let next := t.pass
  if next.orphanCount < t.orphanCount then next.reconcile else next
  termination_by t.orphanCount
  decreasing_by assumption

/-- The tree of some blocks. -/
def build (blocks : List Block) : ContextTree :=
  (blocks.foldl place empty).reconcile

end EventDocs.ContextTree
