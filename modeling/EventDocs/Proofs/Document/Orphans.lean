import EventDocs.Proofs.ContextTree.Bookkeeping

/-
Orphans leave no trace in the documents: a list of blocks without some of the blocks that end up
as orphans gives the same documents.

Two builds are compared, and almost nothing in them is the same: the leaves have other numbers,
the nodes have other numbers, there are other orphans to go through and perhaps fewer passes. But
the documents are those of the ledger (`assemble_build`), and a ledger gives no numbers. There the
two builds go in step: what one does with a block the other does too, or the block is one that is
never placed, and then it is set aside here and is not there at all (`Ledger.thin`). A block that
is never placed is one whose key is not resolvable, and such a block is asked in vain as long as
the ledger knows resolvable keys only (`Ledger.Sound`).

What is left to fear is the end of the passes, which is decided by a number of orphans. It counts
the idle ones too, but it counts them before the pass and after it, and they are the same ones
(`Ledger.idle`). So both builds make their last pass at the same time.
-/

namespace EventDocs

namespace Ledger

open ContextTree

variable {blocks : List Block} {b : Block} {l : Ledger} {able : Ledger → Block → Bool}
  {keep : Block → Bool}

-- ============================================================ what a ledger knows

/-- Only resolvable keys are known, and orphans are blocks of the list that could be asked for
their parents. -/
structure Sound (blocks : List Block) (l : Ledger) : Prop where
  known : ∀ {k}, l.knows k = true → Resolvable blocks k
  orphan : ∀ {b}, b ∈ l.orphans → b ∈ blocks ∧ b.precedence ≠ .service

/-- A question that looks at the founders only, and that no block answers with yes whose key is
not resolvable. -/
structure Careful (blocks : List Block) (able : Ledger → Block → Bool) : Prop where
  founders : ∀ {l l' : Ledger}, l.founders = l'.founders → able l = able l'
  sound : ∀ {l b}, l.Sound blocks → b ∈ blocks → b.precedence ≠ .service → able l b = true →
    Resolvable blocks b.key

theorem sound_empty (blocks : List Block) : empty.Sound blocks where
  known hk := by cases hk
  orphan hb := by cases hb

theorem knows_of_founders {l' : Ledger} (h : l.founders = l'.founders) : l.knows = l'.knows := by
  funext k
  unfold knows
  rw [h]

theorem careful_knowsEntity (blocks : List Block) : Careful blocks knowsEntity where
  founders h := by
    funext b
    unfold knowsEntity
    rw [knows_of_founders h]
  sound hl _ _ hable := hl.known hable

theorem careful_knowsParent (blocks : List Block) : Careful blocks knowsParent where
  founders h := by
    funext b
    unfold knowsParent
    rw [knows_of_founders h]
  sound hl hb hserv hable := by
    obtain ⟨k, hk, hknown⟩ := (Option.any_eq_true _ _).mp hable
    exact .child hb hserv hk (hl.known hknown)

namespace Sound

theorem enroll (h : l.Sound blocks) (hb : Resolvable blocks b.key) : (l.enroll b).Sound blocks where
  known := by
    intro k hk
    obtain ⟨f, hf, rfl⟩ := knows_iff.mp hk
    unfold Ledger.enroll at hf
    split at hf
    · exact h.known (knows_iff.mpr ⟨f, hf, rfl⟩)
    · rcases List.mem_append.mp hf with hf | hf
      · exact h.known (knows_iff.mpr ⟨f, hf, rfl⟩)
      · rw [List.mem_singleton.mp hf]
        exact hb
  orphan hc := h.orphan hc

theorem consider (h : l.Sound blocks) (ha : Careful blocks able) (hb : b ∈ blocks)
    (hserv : b.precedence ≠ .service) : (l.consider able b).Sound blocks := by
  unfold Ledger.consider
  split
  · next hable => exact h.enroll (ha.sound h hb hserv hable)
  · refine ⟨h.known, fun hc => ?_⟩
    rcases List.mem_append.mp hc with hc | hc
    · exact h.orphan hc
    · rw [List.mem_singleton.mp hc]
      exact ⟨hb, hserv⟩

theorem foldl_consider {asked : List Block} (h : l.Sound blocks) (ha : Careful blocks able)
    (hasked : ∀ b ∈ asked, b ∈ blocks ∧ b.precedence ≠ .service) :
    (asked.foldl (Ledger.consider able) l).Sound blocks := by
  induction asked generalizing l with
  | nil => exact h
  | cons b rest ih =>
      obtain ⟨hb, hserv⟩ := hasked b List.mem_cons_self
      exact ih (h.consider ha hb hserv) fun c hc => hasked c (List.mem_cons_of_mem b hc)

/-- Without its orphans a ledger knows what it knew. -/
theorem forget (h : l.Sound blocks) : ({ l with orphans := [] } : Ledger).Sound blocks :=
  ⟨h.known, fun hb => by cases hb⟩

theorem review (h : l.Sound blocks) (ha : Careful blocks able) : (l.review able).Sound blocks :=
  h.forget.foldl_consider ha fun _ hb => h.orphan hb

theorem pass (h : l.Sound blocks) : l.pass.Sound blocks :=
  (h.review (careful_knowsEntity blocks)).review (careful_knowsParent blocks)

theorem place (h : l.Sound blocks) (hb : b ∈ blocks) : (l.place b).Sound blocks := by
  unfold Ledger.place
  cases hp : b.precedence with
  | structural => exact h
  | service => exact h.enroll (.service hb hp)
  | channel | operation | message =>
      exact h.consider (careful_knowsParent blocks) hb (by rw [hp]; decide)

theorem foldl_place {rest : List Block} (h : l.Sound blocks) (hrest : ∀ b ∈ rest, b ∈ blocks) :
    (rest.foldl Ledger.place l).Sound blocks := by
  induction rest generalizing l with
  | nil => exact h
  | cons b rest ih =>
      exact ih (h.place (hrest b List.mem_cons_self)) fun c hc =>
        hrest c (List.mem_cons_of_mem b hc)

end Sound

-- ============================================================ thinned ledgers

/-- The ledger without the orphans that are not kept. -/
def thin (keep : Block → Bool) (l : Ledger) : Ledger :=
  { l with orphans := l.orphans.filter keep }

/-- The orphans that are not kept. -/
def idle (keep : Block → Bool) (l : Ledger) : List Block := l.orphans.filter (!keep ·)

theorem outline_thin (keep : Block → Bool) (l : Ledger) :
    (l.thin keep).outline = l.outline := rfl

theorem thin_enroll (keep : Block → Bool) (l : Ledger) (b : Block) :
    (l.enroll b).thin keep = (l.thin keep).enroll b := rfl

theorem thin_setAside (keep : Block → Bool) (l : Ledger) (b : Block) :
    (l.setAside b).thin keep
      = if keep b then (l.thin keep).setAside b else l.thin keep := by
  unfold thin setAside
  rw [filter_concat]
  split
  · rfl
  · rw [List.append_nil]

/-- Kept and idle orphans are all orphans. -/
theorem length_orphans (keep : Block → Bool) (l : Ledger) :
    l.orphans.length = (l.thin keep).orphans.length + (l.idle keep).length := by
  rw [List.length_eq_length_filter_add keep]
  rfl

section Steps

variable (hkeep : ∀ b, Resolvable blocks b.key → keep b = true)
include hkeep

-- ------------------------------------------------------------ one block

/-- A block that is kept is considered by both ledgers alike, and any other is set aside. -/
theorem thin_consider (h : l.Sound blocks) (ha : Careful blocks able) (hb : b ∈ blocks)
    (hserv : b.precedence ≠ .service) :
    (l.consider able b).thin keep
      = if keep b then (l.thin keep).consider able b else l.thin keep := by
  have hsame : able (l.thin keep) = able l := ha.founders rfl
  unfold consider
  rw [hsame]
  by_cases hable : able l b = true
  · rw [if_pos hable, if_pos hable, if_pos (hkeep b (ha.sound h hb hserv hable)), thin_enroll]
  · rw [if_neg hable, if_neg hable, thin_setAside]

theorem idle_consider (h : l.Sound blocks) (ha : Careful blocks able) (hb : b ∈ blocks)
    (hserv : b.precedence ≠ .service) :
    (l.consider able b).idle keep = l.idle keep ++ if keep b then [] else [b] := by
  unfold consider
  by_cases hable : able l b = true
  · rw [if_pos hable, if_pos (hkeep b (ha.sound h hb hserv hable)), List.append_nil]
    rfl
  · rw [if_neg hable]
    unfold idle setAside
    rw [filter_concat]
    cases keep b <;> rfl

theorem thin_place (h : l.Sound blocks) (hb : b ∈ blocks) :
    (l.place b).thin keep = if keep b then (l.thin keep).place b else l.thin keep := by
  unfold place
  cases hp : b.precedence with
  | structural =>
      dsimp only
      rw [ite_self]
  | service =>
      dsimp only
      rw [if_pos (hkeep b (.service hb hp)), thin_enroll]
  | channel | operation | message =>
      exact thin_consider hkeep h (careful_knowsParent blocks) hb (by rw [hp]; decide)

-- ------------------------------------------------------------ many blocks

theorem thin_foldl_consider {asked : List Block} (h : l.Sound blocks) (ha : Careful blocks able)
    (hasked : ∀ b ∈ asked, b ∈ blocks ∧ b.precedence ≠ .service) :
    (asked.foldl (consider able) l).thin keep
        = (asked.filter keep).foldl (consider able) (l.thin keep)
      ∧ (asked.foldl (consider able) l).idle keep
        = l.idle keep ++ asked.filter (!keep ·) := by
  induction asked generalizing l with
  | nil => exact ⟨rfl, (List.append_nil _).symm⟩
  | cons b rest ih =>
      obtain ⟨hb, hserv⟩ := hasked b List.mem_cons_self
      obtain ⟨hthin, hidle⟩ :=
        ih (h.consider ha hb hserv) fun c hc => hasked c (List.mem_cons_of_mem b hc)
      rw [List.foldl_cons, hthin, hidle, thin_consider hkeep h ha hb hserv,
        idle_consider hkeep h ha hb hserv]
      cases hkept : keep b <;> simp [hkept]

theorem thin_foldl_place {rest : List Block} (h : l.Sound blocks)
    (hrest : ∀ b ∈ rest, b ∈ blocks) :
    (rest.foldl place l).thin keep = (rest.filter keep).foldl place (l.thin keep) := by
  induction rest generalizing l with
  | nil => rfl
  | cons b rest ih =>
      have hb := hrest b List.mem_cons_self
      rw [List.foldl_cons, ih (h.place hb) fun c hc => hrest c (List.mem_cons_of_mem b hc),
        thin_place hkeep h hb]
      cases hkept : keep b <;> simp [hkept]

-- ------------------------------------------------------------ passes

/-- A review of the kept orphans is what is kept of a review, and the idle ones stay. -/
theorem thin_review (h : l.Sound blocks) (ha : Careful blocks able) :
    (l.review able).thin keep = (l.thin keep).review able
      ∧ (l.review able).idle keep = l.idle keep :=
  thin_foldl_consider hkeep h.forget ha fun _ hb => h.orphan hb

theorem thin_pass (h : l.Sound blocks) :
    l.pass.thin keep = (l.thin keep).pass ∧ l.pass.idle keep = l.idle keep := by
  obtain ⟨howner, howner'⟩ := thin_review hkeep h (careful_knowsEntity blocks)
  obtain ⟨hparent, hparent'⟩ := thin_review hkeep (h.review (careful_knowsEntity blocks))
    (careful_knowsParent blocks)
  exact ⟨by rw [pass, hparent, howner, pass], hparent'.trans howner'⟩

/-- Both ledgers make their last pass at the same time: what is idle is counted twice. -/
theorem thin_reconcile (h : l.Sound blocks) :
    l.reconcile.thin keep = (l.thin keep).reconcile := by
  induction hcount : l.orphans.length using Nat.strong_induction_on generalizing l with
  | _ count ih =>
      obtain ⟨hthin, hidle⟩ := thin_pass hkeep h
      have hbefore := length_orphans keep l
      have hafter := length_orphans keep l.pass
      rw [hidle] at hafter
      rw [reconcile.eq_1 l, reconcile.eq_1 (l.thin keep), ← hthin]
      by_cases hlt : l.pass.orphans.length < l.orphans.length
      · rw [if_pos hlt, if_pos (by omega)]
        exact ih _ (hcount ▸ hlt) h.pass rfl
      · rw [if_neg hlt, if_neg (by omega)]

/-- The ledger of the kept blocks is what is kept of the ledger. -/
theorem thin_ofBlocks : (ofBlocks blocks).thin keep = ofBlocks (blocks.filter keep) := by
  have hplaced := (sound_empty blocks).foldl_place fun _ hb => hb
  unfold ofBlocks
  rw [thin_reconcile hkeep hplaced, thin_foldl_place hkeep (sound_empty blocks) fun _ hb => hb]
  rfl

end Steps

end Ledger

-- ============================================================ documents

namespace ContextTree

variable {blocks kept : List Block} {b : Block}

/-- The documents of a tree are those of its ledger. -/
theorem assemble_build (hblocks : Unmarked blocks) :
    assemble (build blocks) = (Ledger.ofBlocks blocks).outline.documents :=
  (inv_build blocks).assemble_eq (inStep_build hblocks).tracks.depicts

theorem not_resolvable_of_orphan (hblocks : Unmarked blocks)
    (hb : b ∈ (build blocks).leafBlocks orphaned) : ¬ Resolvable blocks b.key := by
  classical
  have hmem := (leafBlocks_orphaned_perm hblocks).mem_iff.mp hb
  simpa using (List.mem_filter.mp hmem).2

/-- What is deleted from a list is all that makes a difference to it. -/
theorem filter_eq_of_diff {keep : Block → Bool} (hkept : kept.Sublist blocks)
    (hdeleted : ∀ b ∈ blocks.diff kept, keep b = false) :
    kept.filter keep = blocks.filter keep := by
  have hperm : (kept ++ blocks.diff kept).Perm blocks :=
    List.subperm_append_diff_self_of_count_le fun b _ => hkept.count_le b
  have hnone : (blocks.diff kept).filter keep = [] :=
    List.filter_eq_nil_iff.mpr fun b hb => by simp [hdeleted b hb]
  have hlength := (hperm.filter keep).length_eq
  rw [List.filter_append, hnone, List.append_nil] at hlength
  exact (hkept.filter keep).eq_of_length hlength

/-- A list of blocks without some that end up as orphans gives the same documents. -/
theorem assemble_build_without_orphans (hblocks : Unmarked blocks) (hkept : kept.Sublist blocks)
    (hdeleted : ∀ b ∈ blocks.diff kept, b ∈ (build blocks).leafBlocks orphaned) :
    assemble (build kept) = assemble (build blocks) := by
  classical
  have hkept' : Unmarked kept := fun b hb => hblocks b (hkept.subset hb)
  obtain ⟨keep, hkeep⟩ : ∃ keep : Block → Bool, ∀ b, keep b = true ↔ Resolvable blocks b.key :=
    ⟨fun b => decide (Resolvable blocks b.key), fun _ => decide_eq_true_iff⟩
  have hsame : kept.filter keep = blocks.filter keep := by
    refine filter_eq_of_diff hkept fun b hb => ?_
    rw [← Bool.not_eq_true, hkeep]
    exact not_resolvable_of_orphan hblocks (hdeleted b hb)
  have hall : (Ledger.ofBlocks blocks).thin keep = .ofBlocks (blocks.filter keep) :=
    Ledger.thin_ofBlocks fun b hb => (hkeep b).mpr hb
  have hfew : (Ledger.ofBlocks kept).thin keep = .ofBlocks (kept.filter keep) :=
    Ledger.thin_ofBlocks fun b hb => (hkeep b).mpr (hb.mono fun _ hc => hkept.subset hc)
  calc assemble (build kept)
      = ((Ledger.ofBlocks kept).thin keep).outline.documents := by
        rw [Ledger.outline_thin, assemble_build hkept']
    _ = ((Ledger.ofBlocks blocks).thin keep).outline.documents := by rw [hfew, hsame, hall]
    _ = assemble (build blocks) := by rw [Ledger.outline_thin, assemble_build hblocks]

/-- An operation and its channel come before their service. A channel of nobody is described
twice, and it has an operation; of these three blocks two are deleted. -/
theorem assemble_build_without_orphans_late_service :
    let a : Block := { (default : Block) with precedence := .service, label := { id := "a" } }
    let c : Block :=
      { (default : Block) with precedence := .channel, label := { id := "c", parent := "a" } }
    let o : Block :=
      { (default : Block) with precedence := .operation, label := { id := "o", parent := "c" } }
    let d : Block :=
      { (default : Block) with precedence := .channel, label := { id := "d", parent := "b" } }
    let again : Block := { d with value := "again" }
    let e : Block :=
      { (default : Block) with precedence := .operation, label := { id := "e", parent := "d" } }
    let blocks := [e, o, d, c, a, again]
    let kept := [o, d, c, a]
    Unmarked blocks ∧ kept.Sublist blocks
      ∧ (build blocks).leafBlocks orphaned = [e, d, again]
      ∧ (assemble (build blocks)).map (·.serviceId) = ["a"]
      ∧ assemble (build kept) = assemble (build blocks) := by
  intro a c o d again e blocks kept
  have hblocks : Unmarked blocks := by decide
  have hkept : kept.Sublist blocks := by decide
  have horphans : (build blocks).leafBlocks orphaned = [e, d, again] := by decide +kernel
  refine ⟨hblocks, hkept, horphans, by decide +kernel, ?_⟩
  apply assemble_build_without_orphans hblocks hkept
  rw [horphans]
  decide

end ContextTree

end EventDocs
