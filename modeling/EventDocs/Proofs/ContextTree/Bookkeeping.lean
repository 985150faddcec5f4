import EventDocs.Proofs.ContextTree.Ledger

/-
A build on a tree is a build on a ledger, step after step: each placement, each phase of
a pass, each pass and the whole build keep tree and ledger in step. So whatever is to be
said about the entities of unmarked blocks, their places and their orders, can be said
about lists.

A phase asks the orphans one after another, by the list that it finds at its start. In
the tree those already refused stay where they are, in front of those still to be asked;
in the ledger they are written down again. What the induction carries is this cut of the
list of orphans.
-/

namespace EventDocs.ContextTree

variable {t : ContextTree} {blocks placed : List Block} {b f : Block} {n : NodeId} {k : Key}
  {l : Ledger}

-- ============================================================ a block gets its place

namespace Tracks

variable (h : Inv blocks placed t) (hblocks : Unmarked blocks) (htr : t.Tracks l)
include h hblocks htr

/-- A block whose entity is there is enrolled under it. -/
theorem enroll_owner {t' : ContextTree} {owner : NodeId} (hb : b ∈ blocks)
    (hs : b.precedence ≠ .structural) (hfind : t.find? b.key = some owner)
    (hg : Gains t t' b owner) : t'.Tracks (l.enroll b) := by
  have hknown : l.knows b.key = true := by
    rw [← Ledger.knowsEntity, ← htr.isSome_find?_key h hblocks hb hs, hfind]
    rfl
  obtain ⟨c, -, -, hck, hc⟩ := h.entity_of_key hblocks hb hs (h.indexed.sound hfind)
  unfold Ledger.enroll
  rw [if_pos hknown]
  exact htr.gains h hg hc hck

/-- A block whose entity is not there founds it first. -/
theorem enroll_founder {t' : ContextTree} {parent : NodeId} (hb : b ∈ blocks)
    (hs : b.precedence ≠ .structural) (hfind : t.find? b.key = none)
    (hseat : t.Seat parent false b)
    (hg : Gains (t.withEntity b parent) t' b t.nodes.size) : t'.Tracks (l.enroll b) := by
  have hunknown : l.knows b.key = false := by
    rw [← Ledger.knowsEntity, ← htr.isSome_find?_key h hblocks hb hs, hfind]
    rfl
  have ha := t.added_withEntity b (h.of_seat_entity hseat).1
  have hnew : (t.withEntity b parent).census[t.nodes.size]? = some (.entity b.key b) :=
    ha.census_iff.mpr (Or.inr ⟨rfl, rfl⟩)
  unfold Ledger.enroll
  rw [if_neg (by rw [hunknown]; decide)]
  exact (htr.withEntity h hblocks hb hs hfind hseat).gains
    (h.withEntity hb hs hfind hseat) hg hnew rfl

theorem settle (hb : b ∈ blocks) (hs : b.precedence ≠ .structural) {parent : NodeId}
    (hseat : t.Seat parent false b) :
    (t.settle b parent).Tracks (l.enroll b) := by
  unfold ContextTree.settle
  cases hfind : t.find? b.key with
  | some owner =>
      have hlt := lt_size_of_keyAt? (h.indexed.sound hfind)
      exact htr.enroll_owner h hblocks hb hs hfind (gains_withLeaf h.owned hlt)
  | none =>
      have ha := t.added_withEntity b (h.of_seat_entity hseat).1
      have hlt : t.nodes.size < (t.withEntity b parent).nodes.size := by
        rw [ha.size]
        exact Nat.lt_succ_self _
      exact htr.enroll_founder h hblocks hb hs hfind hseat
        (gains_withLeaf (h.withEntity hb hs hfind hseat).owned hlt)

/-- An orphan whose entity is there moves under it. -/
theorem adoptByOwner (hn : n ∈ t.children orphaned) (hb : t.blockOf? n = some b)
    (hable : (t.find? b.key).isSome = true) :
    (t.adoptByOwner n).Tracks (l.enroll b) := by
  obtain ⟨hmem, hs, -, i, hnode⟩ := h.orphan_of_blockOf? hn hb
  have horphan := h.orphan_of_leaf hn hnode
  obtain ⟨owner, hfind⟩ := Option.isSome_iff_exists.mp hable
  obtain ⟨hlt, -, hne⟩ := h.of_owner hs (h.indexed.sound hfind)
  rw [adoptByOwner_eq hnode, hfind]
  exact htr.enroll_owner h hblocks hmem hs hfind ((horphan.moved hlt hne).gains hnode)

/-- An orphan whose parent is there moves under its entity, old or new. -/
theorem adoptByParent (hn : n ∈ t.children orphaned) (hb : t.blockOf? n = some b)
    (hable : (t.declaredParent? b).isSome = true) :
    (t.adoptByParent n).Tracks (l.enroll b) := by
  obtain ⟨hmem, hs, hserv, i, hnode⟩ := h.orphan_of_blockOf? hn hb
  obtain ⟨parent, hp⟩ := Option.isSome_iff_exists.mp hable
  rw [adoptByParent_eq hnode, hp]
  simp only [resettle]
  cases hfind : t.find? b.key with
  | some owner =>
      obtain ⟨hlt, -, hne⟩ := h.of_owner hs (h.indexed.sound hfind)
      have hmoved := (h.orphan_of_leaf hn hnode).moved hlt hne
      exact htr.enroll_owner h hblocks hmem hs hfind (hmoved.gains hnode)
  | none =>
      have hseat := h.seat_of_declaredParent hserv hp
      have ha := t.added_withEntity b (h.of_seat_entity hseat).1
      have h' := h.withEntity hmem hs hfind hseat
      have hnode' := ha.census_iff.mpr (Or.inl hnode)
      -- the orphan is one in the tree with the new entity too
      rw [← h.children_orphaned_withEntity hseat] at hn
      obtain ⟨hlt, -, hne⟩ := h'.of_owner hs (h.keyAt?_withEntity hseat)
      have hmoved := (h'.orphan_of_leaf hn hnode').moved hlt hne
      exact htr.enroll_founder h hblocks hmem hs hfind hseat (hmoved.gains hnode')

end Tracks

-- ============================================================ placing

/-- Tree and ledger agree, their orphans included. -/
structure InStep (t : ContextTree) (l : Ledger) : Prop where
  tracks : t.Tracks l
  orphans : t.leafBlocks orphaned = l.orphans

theorem Inv.leafBlocks_orphaned_settle (h : Inv blocks placed t) (hb : b ∈ blocks)
    (hs : b.precedence ≠ .structural) {parent : NodeId} (hseat : t.Seat parent false b) :
    (t.settle b parent).leafBlocks orphaned = t.leafBlocks orphaned := by
  unfold ContextTree.settle
  cases hfind : t.find? b.key with
  | some owner =>
      obtain ⟨hlt, -, hne⟩ := h.of_owner hs (h.indexed.sound hfind)
      simp only
      rw [leafBlocks_eq_read, (t.added_withLeaf b hlt).read h.owned, if_neg (Ne.symm hne),
        List.append_nil, leafBlocks_eq_read]
  | none =>
      obtain ⟨hlt, -, hne⟩ := h.of_seat_entity hseat
      have h' := h.withEntity hb hs hfind hseat
      obtain ⟨hlt', -, hne'⟩ := h'.of_owner hs (h.keyAt?_withEntity hseat)
      simp only
      rw [leafBlocks_eq_read, ((t.withEntity b parent).added_withLeaf b hlt').read h'.owned,
        if_neg (Ne.symm hne'), List.append_nil, (t.added_withEntity b hlt).read h.owned,
        if_neg (Ne.symm hne), List.append_nil, leafBlocks_eq_read]

theorem inStep_empty : InStep empty Ledger.empty := by
  have hnode : ∀ {n : NodeId} {f : Block}, empty.census[n]? ≠ some (.entity f.key f) := by
    intro n f hn
    have hblock := (inv_empty []).listed.entity_of_block hn rfl rfl
    exact List.not_mem_nil hblock.1
  refine ⟨⟨rfl, fun b hb => absurd hb List.not_mem_nil, ?_, ?_, rfl⟩, rfl⟩
  · intro n f hn
    exact absurd hn hnode
  · intro n f hn
    exact absurd hn hnode

namespace InStep

variable (h : Inv blocks placed t) (hblocks : Unmarked blocks) (hstep : InStep t l)
include h hblocks hstep

theorem placeChild (hb : b ∈ blocks) (hs : b.precedence ≠ .structural)
    (hserv : b.precedence ≠ .service) :
    InStep (t.placeChild b) (l.consider Ledger.knowsParent b) := by
  have hparent := hstep.tracks.isSome_declaredParent? h hblocks hb hserv
  rw [placeChild_eq, Ledger.consider, ← hparent]
  cases hp : t.declaredParent? b with
  | some parent =>
      have hseat := h.seat_of_declaredParent hserv hp
      refine ⟨hstep.tracks.settle h hblocks hb hs hseat, ?_⟩
      exact (h.leafBlocks_orphaned_settle hb hs hseat).trans hstep.orphans
  | none =>
      have hlt : orphaned < t.nodes.size :=
        Nat.lt_of_lt_of_le (by decide) h.listed.three_le_size
      have htr := hstep.tracks.gains_orphan h (gains_withLeaf (b := b) h.owned hlt)
      refine ⟨⟨htr.founders, htr.known, htr.depicts⟩, ?_⟩
      show (t.withLeaf b orphaned).leafBlocks orphaned = l.orphans ++ [b]
      rw [leafBlocks_eq_read, (t.added_withLeaf b hlt).read h.owned, if_pos rfl,
        ← leafBlocks_eq_read, hstep.orphans]
      rfl

theorem place (hb : b ∈ blocks) : InStep (t.place b) (l.place b) := by
  unfold ContextTree.place Ledger.place
  cases hp : b.precedence with
  | structural => exact hstep
  | service =>
      have hs : b.precedence ≠ .structural := by rw [hp]; decide
      show InStep (t.placeService b) (l.enroll b)
      rw [placeService_eq]
      refine ⟨hstep.tracks.settle h hblocks hb hs (Inv.seat_parented hp), ?_⟩
      exact (h.leafBlocks_orphaned_settle hb hs (Inv.seat_parented hp)).trans hstep.orphans
  | channel | operation | message =>
      exact hstep.placeChild h hblocks hb (by rw [hp]; decide) (by rw [hp]; decide)

omit h in
theorem foldl_place {rest : List Block} (h : Inv blocks placed t)
    (hrest : ∀ b ∈ rest, b ∈ blocks) :
    InStep (rest.foldl ContextTree.place t) (rest.foldl Ledger.place l) := by
  induction rest generalizing t l placed with
  | nil => exact hstep
  | cons b rest ih =>
      have hb := hrest b List.mem_cons_self
      exact ih (hstep.place h hblocks hb) (h.place hb)
        fun c hc => hrest c (List.mem_cons_of_mem b hc)

end InStep

-- ============================================================ a phase of a pass

/-- An attempt to adopt that keeps tree and ledger in step: both ask the same question,
and an orphan that is taken is enrolled. -/
structure Enroller (blocks placed : List Block) (able : ContextTree → Block → Bool)
    (adopt : ContextTree → NodeId → ContextTree) (able' : Ledger → Block → Bool) : Prop
    extends Adopter blocks placed able adopt where
  agree : ∀ {t l n b}, Inv blocks placed t → t.Tracks l → n ∈ t.children orphaned →
    t.blockOf? n = some b → able t b = able' l b
  enroll : ∀ {t l n b}, Inv blocks placed t → t.Tracks l → n ∈ t.children orphaned →
    t.blockOf? n = some b → able t b = true → (adopt t n).Tracks (l.enroll b)

theorem enroller_adoptByOwner (hblocks : Unmarked blocks) (placed : List Block) :
    Enroller blocks placed (fun t b => (t.find? b.key).isSome) adoptByOwner
      Ledger.knowsEntity where
  toAdopter := adopter_adoptByOwner blocks placed
  agree := by
    intro t l n b h htr hn hb
    obtain ⟨hmem, hs, -⟩ := h.orphan_of_blockOf? hn hb
    exact htr.isSome_find?_key h hblocks hmem hs
  enroll := fun h htr hn hb hable => htr.adoptByOwner h hblocks hn hb hable

theorem enroller_adoptByParent (hblocks : Unmarked blocks) (placed : List Block) :
    Enroller blocks placed (fun t b => (t.declaredParent? b).isSome) adoptByParent
      Ledger.knowsParent where
  toAdopter := adopter_adoptByParent blocks placed
  agree := by
    intro t l n b h htr hn hb
    obtain ⟨hmem, -, hserv, -⟩ := h.orphan_of_blockOf? hn hb
    exact htr.isSome_declaredParent? h hblocks hmem hserv
  enroll := fun h htr hn hb hable => htr.adoptByParent h hblocks hn hb hable

/-- No node changes its block when the census grows. -/
theorem blockOf?_of_prefix {t' : ContextTree} (hgrows : t.census <+: t'.census)
    (hn : n < t.nodes.size) : t'.blockOf? n = t.blockOf? n := by
  obtain ⟨rest, hrest⟩ := hgrows
  rw [blockOf?_eq, blockOf?_eq, ← hrest,
    List.getElem?_append_left (by rw [length_census]; exact hn)]

namespace Enroller

variable {able : ContextTree → Block → Bool} {adopt : ContextTree → NodeId → ContextTree}
  {able' : Ledger → Block → Bool}

/-- The orphans in `kept` were refused, those in `asked` are still to be asked. -/
theorem foldl (he : Enroller blocks placed able adopt able') {kept asked : List NodeId}
    (h : Inv blocks placed t) (htr : t.Tracks l) (hcut : t.children orphaned = kept ++ asked)
    (hkept : kept.filterMap t.blockOf? = l.orphans) :
    InStep (asked.foldl adopt t)
      ((asked.filterMap t.blockOf?).foldl (Ledger.consider able') l) := by
  induction asked generalizing t l kept with
  | nil =>
      rw [List.append_nil] at hcut
      refine ⟨htr, ?_⟩
      rw [List.foldl_nil, h.leafBlocks_orphaned, hcut, hkept]
      rfl
  | cons n rest ih =>
      have hn : n ∈ t.children orphaned := by
        rw [hcut]
        exact List.mem_append_right _ List.mem_cons_self
      obtain ⟨i, b, -, -, -, hnode⟩ := h.orphan hn
      have hb : t.blockOf? n = some b := blockOf?_of_census hnode
      rw [List.filterMap_cons, hb, List.foldl_cons, List.foldl_cons, Ledger.consider,
        ← he.agree h htr hn hb]
      cases hable : able t b with
      | false =>
          rw [he.refuse h hn hb hable, if_neg (by decide)]
          have hcut' : t.children orphaned = (kept ++ [n]) ++ rest := by
            rw [hcut, List.append_assoc]
            rfl
          have hkept' : (kept ++ [n]).filterMap t.blockOf? = (l.setAside b).orphans := by
            rw [List.filterMap_append, hkept, List.filterMap_cons, hb]
            rfl
          exact ih h ⟨htr.founders, htr.known, htr.depicts⟩ hcut' hkept'
      | true =>
          obtain ⟨hinv, horphans, hgrows⟩ := he.take h hn hb hable
          have hnodup := h.owned.nodup orphaned
          rw [hcut, List.nodup_middle, List.nodup_cons, List.mem_append, not_or] at hnodup
          obtain ⟨⟨hnot, hnot'⟩, -⟩ := hnodup
          have hcut' : (adopt t n).children orphaned = kept ++ rest := by
            rw [horphans, hcut, List.filter_append, List.filter_cons,
              if_neg (by simp), List.filter_eq_self.mpr, List.filter_eq_self.mpr]
            · intro m hm
              exact decide_eq_true fun heq => hnot' (heq ▸ hm)
            · intro m hm
              exact decide_eq_true fun heq => hnot (heq ▸ hm)
          have hsame : ∀ m ∈ kept ++ rest, (adopt t n).blockOf? m = t.blockOf? m := by
            intro m hm
            refine blockOf?_of_prefix hgrows (h.owned.bound (p := orphaned) ?_).2
            rw [← hcut', horphans] at hm
            exact (List.mem_filter.mp hm).1
          have hrest : rest.filterMap (adopt t n).blockOf? = rest.filterMap t.blockOf? :=
            List.filterMap_congr fun m hm => hsame m (List.mem_append_right _ hm)
          have hkept' : kept.filterMap (adopt t n).blockOf? = kept.filterMap t.blockOf? :=
            List.filterMap_congr fun m hm => hsame m (List.mem_append_left _ hm)
          rw [if_pos rfl, ← hrest]
          exact ih hinv (he.enroll h htr hn hb hable) hcut' (hkept'.trans hkept)

/-- A phase is a review. -/
theorem review (he : Enroller blocks placed able adopt able') (h : Inv blocks placed t)
    (hstep : InStep t l) :
    InStep ((t.children orphaned).foldl adopt t) (l.review able') := by
  have hblocks : (t.children orphaned).filterMap t.blockOf? = l.orphans := by
    rw [← h.leafBlocks_orphaned, hstep.orphans]
  have htr := hstep.tracks
  rw [Ledger.review, ← hblocks]
  exact he.foldl h ⟨htr.founders, htr.known, htr.depicts⟩ (List.nil_append _).symm rfl

end Enroller

-- ============================================================ passes

theorem InStep.orphanCount (hstep : InStep t l) (h : Inv blocks placed t) :
    t.orphanCount = l.orphans.length := by
  unfold ContextTree.orphanCount
  rw [← hstep.orphans, h.leafBlocks_orphaned]
  refine (List.filterMap_length_eq_length.mpr ?_).symm
  intro n hn
  obtain ⟨i, b, -, -, -, hnode⟩ := h.orphan hn
  rw [blockOf?_of_census hnode]
  rfl

namespace InStep

variable (hblocks : Unmarked blocks)
include hblocks

theorem pass (h : Inv blocks placed t) (hstep : InStep t l) : InStep t.pass l.pass := by
  obtain ⟨h', -⟩ := (adopter_adoptByOwner blocks placed).foldl
    (h.owned.nodup orphaned) (fun _ hn => hn) h
  have howner := (enroller_adoptByOwner hblocks placed).review h hstep
  exact (enroller_adoptByParent hblocks placed).review h' howner

/-- By induction on the number of orphans, which both count. -/
theorem reconcile (h : Inv blocks placed t) (hstep : InStep t l) :
    InStep t.reconcile l.reconcile := by
  induction hcount : t.orphanCount using Nat.strong_induction_on generalizing t l with
  | _ count ih =>
      have hnext := hstep.pass hblocks h
      rw [ContextTree.reconcile, Ledger.reconcile, ← hstep.orphanCount h,
        ← hnext.orphanCount h.pass.1]
      by_cases hlt : t.pass.orphanCount < t.orphanCount
      · rw [if_pos hlt, if_pos hlt]
        exact ih _ (hcount ▸ hlt) h.pass.1 hnext rfl
      · rw [if_neg hlt, if_neg hlt]
        exact hnext

end InStep

/-- A build on a tree is a build on a ledger. -/
theorem inStep_build (hblocks : Unmarked blocks) :
    InStep (build blocks) (Ledger.ofBlocks blocks) := by
  have hplaced := inStep_empty.foldl_place hblocks (inv_empty blocks) fun _ hb => hb
  exact hplaced.reconcile hblocks (inv_placed blocks)

end EventDocs.ContextTree
