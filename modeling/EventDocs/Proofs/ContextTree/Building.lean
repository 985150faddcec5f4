import EventDocs.Document.Assemble
import EventDocs.Proofs.ContextTree.Invariant

/-
Building a tree, step after step: the invariant holds after every placement, every
adoption, every pass and at the end, and at the end nothing more can be placed.

A pass ends the passes when it leaves as many orphans as it found. Each adoption takes
exactly one orphan away, so such a pass adopted nobody, hence changed nothing, hence
asked every orphan its two questions in the very tree that is returned: is there a node
for its entity, is there one for its parent? All said no (`Closed`).
-/

namespace EventDocs.ContextTree

variable {t : ContextTree} {blocks placed : List Block} {b : Block} {n : NodeId}

theorem blockOf?_eq (t : ContextTree) (n : NodeId) :
    t.blockOf? n = (t.census[n]?).bind (·.block) := by
  rw [blockOf?, getElem?_census]
  cases t.nodes[n]? <;> rfl

theorem blockOf?_of_census {node : Node} (h : t.census[n]? = some node) :
    t.blockOf? n = node.block := by
  rw [blockOf?_eq, h]
  rfl

/-- A node with a block has a parent. -/
theorem Inv.exists_parent (h : Inv blocks placed t) {node : Node}
    (hnode : t.census[n]? = some node) (hblock : node.block = some b) :
    ∃ p, n ∈ t.children p := by
  refine h.owned.covered (Nat.pos_of_ne_zero ?_) (lt_size_of_census hnode)
  rintro rfl
  rw [h.listed.getElem?_of_lt_three (by decide)] at hnode
  obtain rfl := Option.some.inj hnode
  cases hblock

-- ============================================================ placing

namespace Inv

/-- A service hangs under `parented`. -/
theorem seat_parented (hb : b.precedence = .service) : t.Seat parented false b :=
  ⟨by rintro ⟨⟩, fun _ _ => rfl, fun _ hne => absurd hb hne⟩

/-- Any other entity hangs under the parent that its block declares. -/
theorem seat_of_declaredParent (h : Inv blocks placed t) (hb : b.precedence ≠ .service)
    {parent : NodeId} (hp : t.declaredParent? b = some parent) : t.Seat parent false b := by
  obtain ⟨k, hk, hfind⟩ := Option.bind_eq_some_iff.mp hp
  exact ⟨by rintro ⟨⟩, fun _ hs => absurd hs hb, fun _ _ => ⟨k, hk, h.indexed.sound hfind⟩⟩

/-- A new entity is found by its key. -/
theorem keyAt?_withEntity (h : Inv blocks placed t) {parent : NodeId}
    (hseat : t.Seat parent false b) :
    (t.withEntity b parent).keyAt? t.nodes.size = some b.key :=
  (t.added_withEntity b (h.of_seat_entity hseat).1).keyAt?_iff.mpr (Or.inr ⟨rfl, rfl⟩)

theorem settle (h : Inv blocks placed t) (hb : b ∈ blocks) (hs : b.precedence ≠ .structural)
    {parent : NodeId} (hseat : t.Seat parent false b) :
    Inv blocks (placed ++ [b]) (t.settle b parent) := by
  unfold ContextTree.settle
  cases hfind : t.find? b.key with
  | some owner => exact h.withLeaf hb hs (Or.inr (h.indexed.sound hfind))
  | none =>
      exact (h.withEntity hb hs hfind hseat).withLeaf hb hs
        (Or.inr (h.keyAt?_withEntity hseat))

theorem placeChild (h : Inv blocks placed t) (hb : b ∈ blocks)
    (hs : b.precedence ≠ .structural) (hserv : b.precedence ≠ .service) :
    Inv blocks (placed ++ [b]) (t.placeChild b) := by
  rw [placeChild_eq]
  cases hp : t.declaredParent? b with
  | some parent => exact h.settle hb hs (h.seat_of_declaredParent hserv hp)
  | none => exact h.withLeaf hb hs (Or.inl ⟨rfl, hserv⟩)

end Inv

/-- The blocks that get a leaf. -/
def substantial (blocks : List Block) : List Block :=
  blocks.filter (·.precedence ≠ .structural)

theorem substantial_cons (b : Block) (rest : List Block) :
    substantial (b :: rest) = substantial [b] ++ substantial rest := by
  rw [substantial, List.filter_cons]
  by_cases hb : b.precedence = .structural <;> simp [substantial, hb]

theorem mem_substantial : b ∈ substantial blocks ↔ b ∈ blocks ∧ b.precedence ≠ .structural := by
  simp [substantial]

theorem Inv.place (h : Inv blocks placed t) (hb : b ∈ blocks) :
    Inv blocks (placed ++ substantial [b]) (t.place b) := by
  unfold ContextTree.place
  cases hp : b.precedence with
  | structural =>
      rw [show substantial [b] = [] from by simp [substantial, hp], List.append_nil]
      exact h
  | service =>
      rw [show substantial [b] = [b] from by simp [substantial, hp]]
      show Inv blocks (placed ++ [b]) (t.placeService b)
      rw [placeService_eq]
      exact h.settle hb (by rw [hp]; decide) (seat_parented hp)
  | channel | operation | message =>
      rw [show substantial [b] = [b] from by simp [substantial, hp]]
      exact h.placeChild hb (by rw [hp]; decide) (by rw [hp]; decide)

/-- The invariant holds when all blocks are placed. -/
theorem Inv.foldl_place {rest : List Block} (h : Inv blocks placed t)
    (hrest : ∀ b ∈ rest, b ∈ blocks) :
    Inv blocks (placed ++ substantial rest) (rest.foldl ContextTree.place t) := by
  induction rest generalizing t placed with
  | nil => simpa [substantial] using h
  | cons b rest ih =>
      rw [substantial_cons, ← List.append_assoc]
      exact ih (h.place (hrest b List.mem_cons_self))
        fun c hc => hrest c (List.mem_cons_of_mem b hc)

-- ============================================================ one adoption

/-- What an attempt to adopt an orphan does: if `able` says no it does nothing, and
otherwise it takes this one orphan from under `orphaned`. No node changes. -/
structure Adopter (blocks placed : List Block) (able : ContextTree → Block → Bool)
    (adopt : ContextTree → NodeId → ContextTree) : Prop where
  refuse : ∀ {t n b}, Inv blocks placed t → n ∈ t.children orphaned →
    t.blockOf? n = some b → able t b = false → adopt t n = t
  take : ∀ {t n b}, Inv blocks placed t → n ∈ t.children orphaned →
    t.blockOf? n = some b → able t b = true →
    Inv blocks placed (adopt t n)
      ∧ (adopt t n).children orphaned = (t.children orphaned).filter (· ≠ n)
      ∧ t.census <+: (adopt t n).census

namespace Inv

/-- What is known of an orphan's block. -/
theorem orphan_of_blockOf? (h : Inv blocks placed t) (hn : n ∈ t.children orphaned)
    (hb : t.blockOf? n = some b) :
    b ∈ blocks ∧ b.precedence ≠ .structural ∧ b.precedence ≠ .service
      ∧ ∃ i, t.census[n]? = some (.leaf (b.key.leaf (i + 1)) b) := by
  obtain ⟨i, c, hmem, hs, hserv, hnode⟩ := h.orphan hn
  rw [blockOf?_of_census hnode] at hb
  obtain rfl : c = b := Option.some.inj hb
  exact ⟨hmem, hs, hserv, i, hnode⟩

/-- A new entity leaves the orphans alone. -/
theorem children_orphaned_withEntity (h : Inv blocks placed t) {parent : NodeId}
    (hseat : t.Seat parent false b) :
    (t.withEntity b parent).children orphaned = t.children orphaned := by
  obtain ⟨hlt, -, hne⟩ := h.of_seat_entity hseat
  rw [(t.added_withEntity b hlt).children, grow, if_neg (Ne.symm hne)]

/-- The move of an orphan to a node with the key of its entity. -/
theorem adopt_moveUnder (h : Inv blocks placed t) (hn : n ∈ t.children orphaned) {k : Key}
    (hnode : t.census[n]? = some (.leaf k b)) {owner : NodeId}
    (howner : t.keyAt? owner = some b.key) :
    Inv blocks placed (t.moveUnder k owner)
      ∧ (t.moveUnder k owner).children orphaned = (t.children orphaned).filter (· ≠ n)
      ∧ t.census <+: (t.moveUnder k owner).census := by
  obtain ⟨-, hs, -, -⟩ := h.orphan_of_blockOf? hn (blockOf?_of_census hnode)
  have horphan := h.orphan_of_leaf hn hnode
  obtain ⟨hlt, -, hne⟩ := h.of_owner hs howner
  refine ⟨h.moveUnder hs horphan hnode howner, ?_, ?_⟩
  · rw [(horphan.moved hlt hne).children, shift, if_pos rfl]
  · rw [(horphan.moved hlt hne).census]

end Inv

/-- An orphan is adopted by its owner if the index has a node for its entity. -/
theorem adopter_adoptByOwner (blocks placed : List Block) :
    Adopter blocks placed (fun t b => (t.find? b.key).isSome) adoptByOwner where
  refuse := by
    intro t n b h hn hb hable
    obtain ⟨-, -, -, i, hnode⟩ := h.orphan_of_blockOf? hn hb
    rw [adoptByOwner_eq hnode, Option.isSome_eq_false_iff.mp hable |> Option.isNone_iff_eq_none.mp]
  take := by
    intro t n b h hn hb hable
    obtain ⟨-, -, -, i, hnode⟩ := h.orphan_of_blockOf? hn hb
    obtain ⟨owner, howner⟩ := Option.isSome_iff_exists.mp hable
    rw [adoptByOwner_eq hnode, howner]
    exact h.adopt_moveUnder hn hnode (h.indexed.sound howner)

/-- An orphan is adopted through its parent if the index has a node for its parent. -/
theorem adopter_adoptByParent (blocks placed : List Block) :
    Adopter blocks placed (fun t b => (t.declaredParent? b).isSome) adoptByParent where
  refuse := by
    intro t n b h hn hb hable
    obtain ⟨-, -, -, i, hnode⟩ := h.orphan_of_blockOf? hn hb
    rw [adoptByParent_eq hnode,
      Option.isSome_eq_false_iff.mp hable |> Option.isNone_iff_eq_none.mp]
  take := by
    intro t n b h hn hb hable
    obtain ⟨hmem, hs, hserv, i, hnode⟩ := h.orphan_of_blockOf? hn hb
    obtain ⟨parent, hp⟩ := Option.isSome_iff_exists.mp hable
    rw [adoptByParent_eq hnode, hp]
    simp only [resettle]
    cases hfind : t.find? b.key with
    | some owner => exact h.adopt_moveUnder hn hnode (h.indexed.sound hfind)
    | none =>
        have hseat := h.seat_of_declaredParent hserv hp
        have ha := t.added_withEntity b (h.of_seat_entity hseat).1
        rw [← h.children_orphaned_withEntity hseat] at hn ⊢
        obtain ⟨hinv, hchildren, hcensus⟩ :=
          (h.withEntity hmem hs hfind hseat).adopt_moveUnder hn
            (ha.census_iff.mpr (Or.inl hnode)) (h.keyAt?_withEntity hseat)
        rw [ha.census] at hcensus
        exact ⟨hinv, hchildren, (List.prefix_append _ _).trans hcensus⟩

-- ============================================================ one phase of a pass

/-- A phase either adopts nobody, and then it changes nothing and nobody it asked was
able, or it leaves fewer orphans. -/
theorem Adopter.foldl {able : ContextTree → Block → Bool}
    {adopt : ContextTree → NodeId → ContextTree} (ha : Adopter blocks placed able adopt)
    {asked : List NodeId} (hnodup : asked.Nodup)
    (hasked : ∀ n ∈ asked, n ∈ t.children orphaned) (h : Inv blocks placed t) :
    Inv blocks placed (asked.foldl adopt t)
      ∧ ((asked.foldl adopt t = t
            ∧ ∀ n ∈ asked, ∀ b, t.blockOf? n = some b → able t b = false)
          ∨ (asked.foldl adopt t).orphanCount < t.orphanCount) := by
  induction asked generalizing t with
  | nil => exact ⟨h, Or.inl ⟨rfl, by simp⟩⟩
  | cons n rest ih =>
      obtain ⟨hnot, hnodup⟩ := List.nodup_cons.mp hnodup
      have hn := hasked n List.mem_cons_self
      obtain ⟨i, b, -, -, -, hnode⟩ := h.orphan hn
      have hb : t.blockOf? n = some b := blockOf?_of_census hnode
      rw [List.foldl_cons]
      cases hable : able t b with
      | false =>
          rw [ha.refuse h hn hb hable]
          obtain ⟨hinv, hcase⟩ :=
            ih hnodup (fun m hm => hasked m (List.mem_cons_of_mem n hm)) h
          refine ⟨hinv, hcase.imp_left fun ⟨hsame, hall⟩ => ⟨hsame, ?_⟩⟩
          intro m hm c hc
          rcases List.mem_cons.mp hm with rfl | hm
          · rw [hb] at hc
            obtain rfl := Option.some.inj hc
            exact hable
          · exact hall m hm c hc
      | true =>
          obtain ⟨hinv, horphans, -⟩ := ha.take h hn hb hable
          have hasked' : ∀ m ∈ rest, m ∈ (adopt t n).children orphaned := by
            intro m hm
            rw [horphans, List.mem_filter]
            refine ⟨hasked m (List.mem_cons_of_mem n hm), ?_⟩
            simp only [ne_eq, decide_not, Bool.not_eq_eq_eq_not, Bool.not_true,
              decide_eq_false_iff_not]
            rintro rfl
            exact hnot hm
          have hfewer : (adopt t n).orphanCount < t.orphanCount := by
            unfold orphanCount
            rw [horphans]
            exact List.length_filter_lt_length_iff_exists.mpr ⟨n, hn, by simp⟩
          obtain ⟨hinv', hcase⟩ := ih hnodup hasked' hinv
          refine ⟨hinv', Or.inr ?_⟩
          rcases hcase with ⟨hsame, -⟩ | hlt
          · rw [hsame]
            exact hfewer
          · exact Nat.lt_trans hlt hfewer

-- ============================================================ passes

/-- Nothing more can be placed: no orphan has a node for its entity or its parent. -/
def Closed (t : ContextTree) : Prop :=
  ∀ n ∈ t.children orphaned, ∀ b, t.blockOf? n = some b →
    t.find? b.key = none ∧ t.declaredParent? b = none

/-- A pass keeps the invariant; if it leaves as many orphans as it found, it changed
nothing and nothing more can be placed. -/
theorem Inv.pass (h : Inv blocks placed t) :
    Inv blocks placed t.pass
      ∧ ((t.pass = t ∧ t.Closed) ∨ t.pass.orphanCount < t.orphanCount) := by
  obtain ⟨hinv, howner⟩ := (adopter_adoptByOwner blocks placed).foldl
    (h.owned.nodup orphaned) (fun _ hn => hn) h
  obtain ⟨hinv', hparent⟩ := (adopter_adoptByParent blocks placed).foldl
    (hinv.owned.nodup orphaned) (fun _ hn => hn) hinv
  refine ⟨hinv', ?_⟩
  unfold ContextTree.pass
  rcases howner with ⟨hsame, howners⟩ | hlt
  · rw [hsame] at hparent ⊢
    rcases hparent with ⟨hsame', hparents⟩ | hlt
    · refine Or.inl ⟨hsame', fun n hn b hb => ⟨?_, ?_⟩⟩
      · exact Option.not_isSome_iff_eq_none.mp (by rw [howners n hn b hb]; decide)
      · exact Option.not_isSome_iff_eq_none.mp (by rw [hparents n hn b hb]; decide)
    · exact Or.inr hlt
  · refine Or.inr ?_
    rcases hparent with ⟨hsame, -⟩ | hlt'
    · rw [hsame]
      exact hlt
    · exact Nat.lt_trans hlt' hlt

/-- The passes keep the invariant and end in a closed tree. -/
theorem Inv.reconcile (h : Inv blocks placed t) :
    Inv blocks placed t.reconcile ∧ t.reconcile.Closed := by
  induction hcount : t.orphanCount using Nat.strong_induction_on generalizing t with
  | _ count ih =>
      obtain ⟨hinv, hcase⟩ := h.pass
      rw [ContextTree.reconcile]
      by_cases hlt : t.pass.orphanCount < t.orphanCount
      · rw [if_pos hlt]
        exact ih _ (hcount ▸ hlt) hinv rfl
      · rw [if_neg hlt]
        obtain ⟨hsame, hclosed⟩ := hcase.resolve_right hlt
        rw [hsame]
        exact ⟨h, hclosed⟩

-- ============================================================ the finished tree

theorem inv_placed (blocks : List Block) :
    Inv blocks (substantial blocks) (blocks.foldl ContextTree.place empty) :=
  (inv_empty blocks).foldl_place fun _ hb => hb

theorem inv_build (blocks : List Block) :
    Inv blocks (substantial blocks) (build blocks) :=
  (inv_placed blocks).reconcile.1

theorem closed_build (blocks : List Block) : (build blocks).Closed :=
  (inv_placed blocks).reconcile.2

end EventDocs.ContextTree
