import EventDocs.Proofs.ContextTree.Agreement
import EventDocs.Proofs.Document.Texts
import EventDocs.Proofs.NameMap

/-
Documents from lists of blocks. An outline says which entities there are and which blocks
describe each of them. An entity is given by its founder, the block that puts it under its
parent. Documents are read off an outline level by level, without a tree and without going
through anything in turn: the texts of an entity are those that `Outline.lastText?` finds in its
list, and a channel's operations are the last ones of their category.

A tree depicts an outline if the leaves of each entity carry the blocks that describe it,
and its entities are those that the outline has under it, in the same order. Then both
give the same documents (`Inv.assemble_eq`).
-/

namespace EventDocs

open Document

-- ============================================================ outlines

/-- Entities and what describes them. -/
structure Outline where
  /-- The founders of all entities, in the order in which these are listed. -/
  founders : List Block
  /-- The blocks that describe the entity of a key. -/
  content : Key → List Block

namespace Outline

variable (o : Outline)

def services : List Block := o.founders.filter (·.precedence = .service)

/-- The entities that have this one as their parent. -/
def under (parent : Block) : List Block :=
  o.founders.filter (·.parentKey? = some parent.key)

/-- The message of an operation: the first message entity names it, and the blocks of all
of them describe it. -/
def message? (operation : Block) : Option Message :=
  (o.under operation).head?.map fun first =>
    message first.label.id ((o.under operation).flatMap fun f => o.content f.key)

def operation (f : Block) : Operation where
  summary := lastText? .summary (o.content f.key)
  description := lastText? .description (o.content f.key)
  operationId := f.label.id
  message := o.message? f

/-- The last operation of a category under a channel. -/
def lastOperation? (c : Category) (channel : Block) : Option Operation :=
  (((o.under channel).filter (·.label.category = some c)).getLast?).map o.operation

def channel (f : Block) : Channel where
  description := lastText? .description (o.content f.key)
  publish := o.lastOperation? .pubOperation f
  subscribe := o.lastOperation? .subOperation f

/-- The document of a service. Its URN and its tags are those of the founder. -/
def service (f : Block) : Document where
  asyncapi := "2.6.0"
  id := f.label.serviceUrn
  info :=
    { title := (lastText? .title (o.content f.key)).getD f.label.id
      version := "1.0.0"
      description := lastText? .description (o.content f.key) }
  defaultContentType := some "application/json"
  channels := .ofList ((o.under f).map fun c => (c.label.id, o.channel c))
  tags := [⟨"repoUrl", f.label.repoUrl⟩, ⟨"repoLang", f.label.repoLanguage⟩]

def documents : List ServiceDocument := o.services.map fun f => ⟨f.label.id, o.service f⟩

end Outline

namespace ContextTree

variable {t : ContextTree} {blocks placed : List Block} {o : Outline} {n : NodeId} {f : Block}

-- ============================================================ trees that depict an outline

structure Depicts (t : ContextTree) (o : Outline) : Prop where
  leaves : ∀ {n : NodeId} {f : Block}, t.census[n]? = some (.entity f.key f) →
    t.leafBlocks n = o.content f.key
  entities : ∀ {n : NodeId} {f : Block}, t.census[n]? = some (.entity f.key f) →
    (t.entities n).map t.blockOf? = (o.under f).map some
  services : (t.entities parented).map t.blockOf? = o.services.map some

/-- What is made of nodes is made of their blocks, one by one. -/
theorem map_eq_of_blocks {α : Type} {nodes : List NodeId} {founders : List Block}
    {ofNode : NodeId → α} {ofBlock : Block → α}
    (hblocks : nodes.map t.blockOf? = founders.map some)
    (hsame : ∀ n ∈ nodes, ∀ f, t.blockOf? n = some f → ofNode n = ofBlock f) :
    nodes.map ofNode = founders.map ofBlock := by
  induction nodes generalizing founders with
  | nil =>
      cases founders with
      | nil => rfl
      | cons f rest => cases hblocks
  | cons n nodes ih =>
      cases founders with
      | nil => cases hblocks
      | cons f rest =>
          rw [List.map_cons, List.map_cons] at hblocks ⊢
          obtain ⟨hf, hrest⟩ := List.cons.inj hblocks
          rw [hsame n List.mem_cons_self f hf,
            ih hrest fun m hm => hsame m (List.mem_cons_of_mem n hm)]

/-- Children that are entities, with what is known of their blocks. -/
theorem Inv.census_of_mem_entities (h : Inv blocks placed t) {c : NodeId}
    (hc : c ∈ t.entities n) (hf : t.blockOf? c = some f) :
    t.census[c]? = some (.entity f.key f) := by
  rw [entities_eq] at hc
  obtain ⟨node, hnode, hleaf⟩ := (Option.any_eq_true _ _).mp (List.mem_filter.mp hc).2
  rw [blockOf?_of_census hnode] at hf
  obtain ⟨-, -, rfl⟩ := h.listed.entity_of_block hnode (by simpa using hleaf) hf
  exact hnode

/-- What hangs under `parented` are entities: a leaf hangs under its own entity. -/
theorem Inv.entities_parented (h : Inv blocks placed t) :
    t.entities parented = t.children parented := by
  rw [entities_eq, List.filter_eq_self]
  intro c hc
  obtain ⟨node, hnode⟩ := exists_census (h.owned.bound hc).2
  rw [hnode]
  rcases h.listed.node_cases hnode with ⟨hlt, -⟩ | ⟨b, -, -, rfl⟩ | ⟨i, b, hb, rfl⟩
  · simpa using h.isLeaf_of_lt_three hlt hnode
  · rfl
  · have hs := (h.listed.source b (List.mem_of_getElem? hb)).2
    rcases (h.seated hc hnode rfl).leaf rfl with ⟨horphaned, -⟩ | howner
    · cases horphaned
    · exact absurd (h.three_le howner hs) (by decide)

/-- What hangs under `parented` are services. -/
theorem Inv.service_of_parented (h : Inv blocks placed t) (hn : n ∈ t.children parented)
    (hf : t.blockOf? n = some f) :
    t.census[n]? = some (.entity f.key f) ∧ f.precedence = .service := by
  have hcensus := h.census_of_mem_entities (h.entities_parented.symm ▸ hn) hf
  refine ⟨hcensus, ?_⟩
  by_contra hlevel
  obtain ⟨k, hk, hp⟩ := (h.seated hn hcensus rfl).child rfl hlevel
  exact absurd (h.three_le hp (Block.precedence_parentKey_ne hk hlevel)) (by decide)

/-- No two documents are about one service. -/
theorem Inv.nodup_assemble (h : Inv blocks placed t) :
    ((assemble t).map (·.serviceId)).Nodup := by
  have hids : (assemble t).map (·.serviceId)
      = (t.children parented).filterMap fun n => (t.blockOf? n).map (·.label.id) := by
    unfold assemble
    rw [List.map_filterMap]
    simp only [Option.map_map]
    rfl
  rw [hids, List.Nodup, List.pairwise_filterMap]
  refine (h.owned.nodup parented).imp_of_mem ?_
  intro m n hm hn hne i hi j hj heq
  obtain ⟨f, hf, rfl⟩ := Option.map_eq_some_iff.mp hi
  obtain ⟨g, hg, rfl⟩ := Option.map_eq_some_iff.mp hj
  obtain ⟨hmf, hfs⟩ := h.service_of_parented hm hf
  obtain ⟨hng, hgs⟩ := h.service_of_parented hn hg
  have hkey : f.key = g.key := by
    unfold Block.key
    rw [hfs, hgs, heq]
  exact hne (h.indexed.unique hmf hng rfl rfl hkey)

theorem idOf_entity (hn : t.census[n]? = some (.entity f.key f)) : t.idOf n = f.label.id := by
  rw [getElem?_census] at hn
  obtain ⟨node, hnode, hbare⟩ := Option.map_eq_some_iff.mp hn
  unfold idOf
  rw [hnode]
  exact congrArg (·.key.id) hbare

-- ============================================================ documents, level by level

section Levels

variable (h : Inv blocks placed t) (hd : t.Depicts o)
  (hn : t.census[n]? = some (.entity f.key f))

include h hd hn

theorem message?_eq : t.message? n = o.message? f := by
  have hids : (t.entities n).map t.idOf = (o.under f).map (·.label.id) :=
    map_eq_of_blocks (hd.entities hn) fun c hc g hg =>
      idOf_entity (h.census_of_mem_entities hc hg)
  have hleaves : (t.entities n).map t.leafBlocks = (o.under f).map (o.content ·.key) :=
    map_eq_of_blocks (hd.entities hn) fun c hc g hg =>
      hd.leaves (h.census_of_mem_entities hc hg)
  unfold message? Outline.message?
  rw [List.flatMap_def, ← hleaves]
  cases hkids : t.entities n with
  | nil =>
      rw [hkids] at hids
      rw [List.map_eq_nil_iff.mp hids.symm]
      rfl
  | cons first more =>
      rw [hkids] at hids
      obtain ⟨g, rest, hunder, hg, -⟩ := List.map_eq_cons_iff.mp hids.symm
      rw [hunder, List.head?_cons, Option.map_some, hg, ← List.flatMap_def,
        ← Message.foldl_addBlock, List.foldl_flatMap]

theorem operation_eq : t.operation n = o.operation f := by
  unfold operation Outline.operation
  rw [hd.leaves hn, idOf_entity hn, message?_eq h hd hn, Operation.foldl_addBlock]

/-- Operations of a category are chosen by their founders. -/
theorem lastOperation?_eq (c : Category) :
    (((t.entities n).filter fun m =>
        (t.blockOf? m).bind (·.label.category) = some c).getLast?).map t.operation
      = o.lastOperation? c f := by
  have hblocks : ((t.entities n).filter fun m =>
        (t.blockOf? m).bind (·.label.category) = some c).map t.blockOf?
      = ((o.under f).filter (·.label.category = some c)).map some := by
    have hfilter := congrArg
      (List.filter fun b : Option Block => b.bind (·.label.category) = some c)
      (hd.entities hn)
    rw [List.filter_map, List.filter_map] at hfilter
    exact hfilter
  unfold Outline.lastOperation?
  rw [← List.getLast?_map, ← List.getLast?_map]
  congr 1
  refine map_eq_of_blocks hblocks fun m hm g hg => ?_
  exact operation_eq h hd (h.census_of_mem_entities (List.mem_filter.mp hm).1 hg)

theorem channel_eq : t.channel n = o.channel f := by
  unfold channel Outline.channel
  rw [hd.leaves hn, Channel.foldl_addBlock, Channel.foldl_addOperation,
    lastOperation?_eq h hd hn, lastOperation?_eq h hd hn]

theorem service_eq : t.service n f = o.service f := by
  have hchannels : (t.entities n).map (fun c => (t.idOf c, t.channel c))
      = (o.under f).map fun g => (g.label.id, o.channel g) := by
    refine map_eq_of_blocks (hd.entities hn) fun c hc g hg => ?_
    have hcensus := h.census_of_mem_entities hc hg
    rw [idOf_entity hcensus, channel_eq h hd hcensus]
  unfold service Outline.service
  rw [hd.leaves hn, Info.foldl_addBlock, NameMap.foldl_insert_eq_ofList, hchannels]

end Levels

/-- A tree that depicts an outline gives its documents. -/
theorem Inv.assemble_eq (h : Inv blocks placed t) (hd : t.Depicts o) :
    assemble t = o.documents := by
  unfold assemble Outline.documents
  have hmap : (t.entities parented).map (fun n =>
        (t.blockOf? n).map fun b => (⟨b.label.id, t.service n b⟩ : ServiceDocument))
      = o.services.map fun f => some ⟨f.label.id, o.service f⟩ := by
    refine map_eq_of_blocks hd.services fun n hn f hf => ?_
    rw [hf, Option.map_some, service_eq h hd (h.census_of_mem_entities hn hf)]
  have hdocuments := congrArg (List.filterMap id) hmap
  rw [List.filterMap_map, List.filterMap_map, h.entities_parented] at hdocuments
  simpa using hdocuments

end ContextTree

end EventDocs
