import EventDocs.Proofs.ContextTree.Bookkeeping

/-
The documents of sorted blocks, said on the list of blocks alone.

An entity stands if some block of its level and id settles: a service block does, and any
other block if the entity that it names as its parent stands. The first such block in the
list founds the entity and so decides under which parent it is. All blocks of the entity
describe it: first those that settle, then the others, both in the order of the list.

That is not the order of the list, and a text is taken from the last block that has one:
a block that names a parent which is not there outranks every block that names one which
is. Such a block has a place only because another block founded its entity.

Sorting is what makes the list enough. When a block is placed, all blocks of the level
above were placed, so its parent is there then or never. The first pass over the orphans
gives a place to those whose entity has another founder, and after it there is nothing
left to do (`Ledger.ofBlocks_eq`).
-/

namespace EventDocs

-- ============================================================ statement vocabulary

/-- The blocks come level by level, from the services down. -/
def SortedByLevel (blocks : List Block) : Prop :=
  blocks.Pairwise fun a b => a.precedence.number ≤ b.precedence.number

instance (blocks : List Block) : Decidable (SortedByLevel blocks) :=
  inferInstanceAs (Decidable (blocks.Pairwise _))

/-- An entity stands if some block of its level and id needs no parent or names one that
stands. Services are level one. -/
def stands (blocks : List Block) : Nat → String → Bool
  | 0, _ => false
  | level + 1, id => blocks.any fun b =>
      b.precedence.number = level + 1 ∧ b.label.id = id
        ∧ (level = 0 ∨ stands blocks level b.label.parent)

/-- A block of a service settles, and any other block whose parent stands. -/
def settles (blocks : List Block) (b : Block) : Bool :=
  b.precedence = .service ∨ stands blocks (b.precedence.number - 1) b.label.parent

/-- The first block of each key. -/
def firsts : List Block → List Block
  | [] => []
  | b :: rest => b :: (firsts rest).filter (·.key ≠ b.key)

/-- The entities of a list of blocks. -/
def Outline.ofBlocks (blocks : List Block) : Outline where
  founders := firsts (blocks.filter (settles blocks))
  content k :=
    (blocks.filter fun b => b.key = k ∧ settles blocks b)
      ++ blocks.filter fun b => b.key = k ∧ settles blocks b = false

variable {blocks : List Block} {b : Block} {k : Key}

-- ============================================================ levels

theorem Block.level_trans (a b c : Block)
    (hab : decide (a.precedence.number ≤ b.precedence.number) = true)
    (hbc : decide (b.precedence.number ≤ c.precedence.number) = true) :
    decide (a.precedence.number ≤ c.precedence.number) = true := by
  rw [decide_eq_true_eq] at hab hbc ⊢
  omega

theorem Block.level_total (a b : Block) : (decide (a.precedence.number ≤ b.precedence.number)
    || decide (b.precedence.number ≤ a.precedence.number)) = true := by
  rw [Bool.or_eq_true, decide_eq_true_eq, decide_eq_true_eq]
  omega

/-- Sorting, which is the last step of an analysis and of a merge, sorts by level. -/
theorem sortedByLevel_sorted (blocks : List Block) : SortedByLevel (Block.sorted blocks) := by
  have hpairs := List.pairwise_mergeSort Block.level_trans Block.level_total blocks
  exact hpairs.imp fun hab => of_decide_eq_true hab

theorem Precedence.number_inj {p q : Precedence} (h : p.number = q.number) : p = q := by
  cases p <;> cases q <;> first | rfl | cases h

theorem settles_iff :
    settles blocks b = true ↔ b.precedence = .service
      ∨ stands blocks (b.precedence.number - 1) b.label.parent = true := by
  rw [settles, decide_eq_true_eq]

theorem settles_structural (hb : b.precedence = .structural) : settles blocks b = false := by
  unfold settles
  rw [hb]
  rfl

theorem settles_service (hb : b.precedence = .service) : settles blocks b = true := by
  unfold settles
  rw [hb]
  rfl

/-- An entity stands exactly if a block of its key settles. -/
theorem stands_iff {p : Precedence} {id : String} :
    stands blocks p.number id = true
      ↔ ∃ b ∈ blocks, settles blocks b = true ∧ b.key = ⟨p, id⟩ := by
  cases hnum : p.number with
  | zero =>
      constructor
      · intro h
        cases h
      · intro ⟨b, _, hb, hkey⟩
        have hp : b.precedence = .structural := by
          apply Precedence.number_inj
          rw [show b.precedence = p from congrArg Key.precedence hkey, hnum]
          rfl
        rw [settles_structural hp] at hb
        cases hb
  | succ level =>
      unfold stands
      rw [List.any_eq_true]
      -- block by block the two conditions are the same
      refine exists_congr fun b => and_congr_right fun _ => ?_
      rw [decide_eq_true_eq]
      constructor
      · intro ⟨hlevel, hid, hparent⟩
        have hp : b.precedence = p := Precedence.number_inj (hlevel.trans hnum.symm)
        refine ⟨?_, by rw [Block.key, hp, hid]⟩
        rw [settles_iff, hlevel]
        refine hparent.imp_left fun hzero => ?_
        apply Precedence.number_inj
        rw [hlevel, hzero]
        rfl
      · intro ⟨hb, hkey⟩
        have hp : b.precedence = p := congrArg Key.precedence hkey
        have hlevel : b.precedence.number = level + 1 := by rw [hp, hnum]
        refine ⟨hlevel, congrArg Key.id hkey, ?_⟩
        rw [settles_iff, hlevel] at hb
        refine hb.imp_left fun hserv => ?_
        rw [hserv] at hlevel
        exact (Nat.succ.inj hlevel).symm

/-- A block that is no service settles exactly if a block of its parent's key does. -/
theorem settles_child (hserv : b.precedence ≠ .service) (hk : b.parentKey? = some k) :
    settles blocks b = true ↔ ∃ c ∈ blocks, settles blocks c = true ∧ c.key = k := by
  have hnum := b.number_parentKey hk
  obtain ⟨level, -, rfl⟩ := Option.map_eq_some_iff.mp hk
  rw [settles_iff, or_iff_right hserv, hnum, Nat.add_sub_cancel]
  exact stands_iff

-- ============================================================ founders

theorem mem_of_mem_firsts {l : List Block} (h : b ∈ firsts l) : b ∈ l := by
  induction l with
  | nil => cases h
  | cons c rest ih =>
      rcases List.mem_cons.mp h with rfl | h
      · exact List.mem_cons_self
      · exact List.mem_cons_of_mem c (ih (List.mem_filter.mp h).1)

/-- Every key has a first block. -/
theorem exists_first {l : List Block} :
    (∃ f ∈ firsts l, f.key = k) ↔ ∃ b ∈ l, b.key = k := by
  constructor
  · intro ⟨f, hf, hkey⟩
    exact ⟨f, mem_of_mem_firsts hf, hkey⟩
  · intro ⟨b, hb, hkey⟩
    induction l with
    | nil => cases hb
    | cons c rest ih =>
        by_cases hc : c.key = k
        · exact ⟨c, List.mem_cons_self, hc⟩
        · rcases List.mem_cons.mp hb with rfl | hb
          · exact absurd hkey hc
          · obtain ⟨f, hf, hfk⟩ := ih hb
            refine ⟨f, List.mem_cons_of_mem c (List.mem_filter.mpr ⟨hf, ?_⟩), hfk⟩
            exact decide_eq_true fun heq => hc (heq.symm.trans hfk)

/-- No two first blocks have one key. -/
theorem nodup_firsts (l : List Block) : ((firsts l).map Block.key).Nodup := by
  induction l with
  | nil => exact List.nodup_nil
  | cons c rest ih =>
      refine List.nodup_cons.mpr ⟨?_, ih.sublist (List.filter_sublist.map Block.key)⟩
      intro hmem
      obtain ⟨f, hf, hkey⟩ := List.mem_map.mp hmem
      exact of_decide_eq_true (List.mem_filter.mp hf).2 hkey

/-- The entities under one parent are of one level, so they have ids of their own. -/
theorem Outline.nodup_under (blocks : List Block) (parent : Block) :
    (((ofBlocks blocks).under parent).map (·.label.id)).Nodup := by
  have hkeys : (((ofBlocks blocks).under parent).map Block.key).Nodup :=
    (nodup_firsts _).sublist (List.filter_sublist.map Block.key)
  have hlevel : ∀ f ∈ (ofBlocks blocks).under parent,
      f.precedence.number = parent.precedence.number + 1 := by
    intro f hf
    exact f.number_parentKey (of_decide_eq_true (List.mem_filter.mp hf).2)
  refine List.Nodup.map_on ?_ hkeys.of_map
  intro f hf g hg hid
  refine List.inj_on_of_nodup_map hkeys hf hg ?_
  have hp := Precedence.number_inj ((hlevel f hf).trans (hlevel g hg).symm)
  unfold Block.key
  rw [hp, hid]

/-- One more block is a first one if no block before it has its key. -/
theorem firsts_concat (l : List Block) (b : Block) :
    firsts (l ++ [b]) = if (firsts l).any (·.key = b.key) then firsts l else firsts l ++ [b] := by
  induction l with
  | nil => rfl
  | cons c rest ih =>
      rw [List.cons_append, firsts, firsts, ih, List.any_cons]
      by_cases hc : c.key = b.key
      · -- the new block is taken out by the first one of the list
        rw [hc, decide_eq_true rfl, Bool.true_or, if_pos rfl]
        split
        · rfl
        · rw [List.filter_append]
          simp
      · rw [decide_eq_false hc, Bool.false_or]
        have hany : ((firsts rest).filter (·.key ≠ c.key)).any (·.key = b.key)
            = (firsts rest).any (·.key = b.key) := by
          rw [List.any_filter]
          congr 1
          funext d
          by_cases hd : d.key = b.key
          · simp [hd, Ne.symm hc]
          · simp [hd]
        rw [hany]
        split
        · rfl
        · rw [List.filter_append]
          simp [Ne.symm hc]

-- ============================================================ all blocks placed

namespace Ledger

/-- The ledger after some of the blocks: those that settle have a place, the others are
orphans. -/
def placed (blocks done : List Block) : Ledger where
  founders := firsts (done.filter (settles blocks))
  content := done.filter (settles blocks)
  orphans := done.filter fun b => b.precedence ≠ .structural ∧ settles blocks b = false

theorem knows_placed {done : List Block} :
    (placed blocks done).knows k = true ↔ ∃ b ∈ done, settles blocks b = true ∧ b.key = k := by
  rw [knows_iff]
  show (∃ f ∈ firsts (done.filter (settles blocks)), f.key = k) ↔ _
  rw [exists_first]
  simp only [List.mem_filter, and_assoc]

/-- In sorted blocks every block of the level above comes before, so a parent that stands
is there. -/
theorem knowsParent_placed {done rest : List Block}
    (hsorted : SortedByLevel (done ++ b :: rest)) (hserv : b.precedence ≠ .service)
    (hs : b.precedence ≠ .structural) :
    (placed (done ++ b :: rest) done).knowsParent b = settles (done ++ b :: rest) b := by
  obtain ⟨k, hk⟩ := Block.parentKey?_ne_none hs
  unfold knowsParent
  rw [hk, Option.any_some, Bool.eq_iff_iff, knows_placed, settles_child hserv hk]
  constructor
  · intro ⟨c, hc, hsettles, hkey⟩
    exact ⟨c, List.mem_append_left _ hc, hsettles, hkey⟩
  · intro ⟨c, hc, hsettles, hkey⟩
    refine ⟨c, ?_, hsettles, hkey⟩
    rcases List.mem_append.mp hc with hc | hc
    · exact hc
    · -- from the block on, no block is of a level above its own
      have hle : b.precedence.number ≤ c.precedence.number := by
        rcases List.mem_cons.mp hc with rfl | hc
        · exact Nat.le_refl _
        · obtain ⟨-, hrest, -⟩ := List.pairwise_append.mp hsorted
          exact (List.pairwise_cons.mp hrest).1 c hc
      have hnum := b.number_parentKey hk
      rw [← hkey, show c.key.precedence = c.precedence from rfl] at hnum
      omega

theorem placed_append (done : List Block) (b : Block) :
    placed blocks (done ++ [b])
      = if settles blocks b then (placed blocks done).enroll b
        else if b.precedence = .structural then placed blocks done
        else (placed blocks done).setAside b := by
  unfold placed
  rw [ContextTree.filter_concat, ContextTree.filter_concat]
  by_cases hsettles : settles blocks b = true
  · rw [if_pos hsettles, if_pos hsettles, if_neg (by simp [hsettles]), firsts_concat]
    simp [enroll, knows]
  · rw [Bool.not_eq_true] at hsettles
    by_cases hs : b.precedence = .structural
    · simp [hsettles, hs]
    · simp [hsettles, hs, setAside]

theorem place_placed {done rest : List Block}
    (hsorted : SortedByLevel (done ++ b :: rest)) :
    (placed (done ++ b :: rest) done).place b = placed (done ++ b :: rest) (done ++ [b]) := by
  rw [placed_append]
  unfold place
  cases hp : b.precedence with
  | structural =>
      rw [settles_structural hp, if_neg (by decide), if_pos rfl]
  | service =>
      rw [settles_service hp, if_pos rfl]
  | channel | operation | message =>
      show (placed (done ++ b :: rest) done).consider knowsParent b = _
      rw [consider, knowsParent_placed hsorted (by rw [hp]; decide) (by rw [hp]; decide)]
      by_cases hsettles : settles (done ++ b :: rest) b = true
      · rw [if_pos hsettles, if_pos hsettles]
      · rw [if_neg hsettles, if_neg hsettles, if_neg (by decide)]

theorem foldl_place {done rest : List Block} (hsorted : SortedByLevel (done ++ rest)) :
    rest.foldl place (placed (done ++ rest) done) = placed (done ++ rest) (done ++ rest) := by
  induction rest generalizing done with
  | nil => rw [List.append_nil, List.foldl_nil]
  | cons b rest ih =>
      have hassoc : done ++ b :: rest = (done ++ [b]) ++ rest := by simp
      rw [List.foldl_cons, place_placed hsorted, hassoc]
      exact ih (hassoc ▸ hsorted)

-- ============================================================ the passes

/-- Orphans of known entities get their places in order, and no entity is new. -/
theorem foldl_knowsEntity (asked : List Block) (l : Ledger) :
    asked.foldl (consider knowsEntity) l
      = { l with
          content := l.content ++ asked.filter l.knowsEntity
          orphans := l.orphans ++ asked.filter fun b => !l.knowsEntity b } := by
  induction asked generalizing l with
  | nil => simp
  | cons b rest ih =>
      rw [List.foldl_cons, ih, consider]
      cases hk : l.knowsEntity b with
      | true =>
          have henroll : l.enroll b = { l with content := l.content ++ [b] } := by
            rw [enroll, if_pos (show l.knows b.key = true from hk)]
          have hsame : (l.enroll b).knowsEntity = l.knowsEntity := by
            rw [henroll]
            rfl
          rw [if_pos rfl, hsame, henroll, List.filter_cons_of_pos hk,
            List.filter_cons_of_neg (by simp [hk]), List.append_assoc]
          rfl
      | false =>
          have hsame : (l.setAside b).knowsEntity = l.knowsEntity := rfl
          rw [if_neg (by decide), hsame, List.filter_cons_of_neg (by simp [hk]),
            List.filter_cons_of_pos (by simp [hk]), setAside, List.append_assoc]
          rfl

/-- Orphans without a parent stay as they are. -/
theorem foldl_knowsParent {asked : List Block} {l : Ledger}
    (h : ∀ b ∈ asked, l.knowsParent b = false) :
    asked.foldl (consider knowsParent) l = { l with orphans := l.orphans ++ asked } := by
  induction asked generalizing l with
  | nil => simp
  | cons b rest ih =>
      have hb := h b List.mem_cons_self
      have hrest : ∀ c ∈ rest, (l.setAside b).knowsParent c = false :=
        fun c hc => h c (List.mem_cons_of_mem b hc)
      rw [List.foldl_cons, consider, if_neg (by rw [hb]; decide), ih hrest, setAside,
        List.append_assoc]
      rfl

theorem review_knowsEntity (l : Ledger) :
    l.review knowsEntity
      = { l with
          content := l.content ++ l.orphans.filter l.knowsEntity
          orphans := l.orphans.filter fun b => !l.knowsEntity b } := by
  rw [review, foldl_knowsEntity]
  rfl

theorem review_knowsParent {l : Ledger} (h : ∀ b ∈ l.orphans, l.knowsParent b = false) :
    l.review knowsParent = l := by
  have hrefused : ∀ b ∈ l.orphans, ({ l with orphans := [] } : Ledger).knowsParent b = false := h
  rw [review, foldl_knowsParent hrefused]
  rfl

theorem pass_eq_self {l : Ledger} (howner : ∀ b ∈ l.orphans, l.knowsEntity b = false)
    (hparent : ∀ b ∈ l.orphans, l.knowsParent b = false) : l.pass = l := by
  have hnone : l.orphans.filter l.knowsEntity = [] :=
    List.filter_eq_nil_iff.mpr fun b hb => by rw [howner b hb]; decide
  have hall : (l.orphans.filter fun b => !l.knowsEntity b) = l.orphans :=
    List.filter_eq_self.mpr fun b hb => by rw [howner b hb]; decide
  have hreview : l.review knowsEntity = l := by
    rw [review_knowsEntity, hnone, hall, List.append_nil]
  rw [pass, hreview, review_knowsParent hparent]

/-- If a second pass would change nothing, one pass is all there is. -/
theorem reconcile_eq_pass {l : Ledger} (h : l.pass.pass = l.pass) : l.reconcile = l.pass := by
  rw [reconcile]
  split
  · rw [reconcile, h, if_neg (Nat.lt_irrefl _)]
  · rfl

-- ============================================================ the ledger of sorted blocks

/-- The blocks that settle have a place, and so do the others of their entities. -/
def finished (blocks : List Block) : Ledger := (placed blocks blocks).review knowsEntity

theorem finished_eq (blocks : List Block) :
    finished blocks
      = { placed blocks blocks with
          content := (placed blocks blocks).content
            ++ (placed blocks blocks).orphans.filter (placed blocks blocks).knowsEntity
          orphans := (placed blocks blocks).orphans.filter
            fun b => !(placed blocks blocks).knowsEntity b } :=
  review_knowsEntity _

/-- The parent of a block that does not settle is not there. -/
theorem not_knowsParent (hb : b ∈ (placed blocks blocks).orphans) :
    (placed blocks blocks).knowsParent b = false := by
  obtain ⟨-, htest⟩ := List.mem_filter.mp hb
  obtain ⟨hs, hsettles⟩ := of_decide_eq_true htest
  have hserv : b.precedence ≠ .service := by
    intro hserv
    rw [settles_service hserv] at hsettles
    cases hsettles
  obtain ⟨k, hk⟩ := Block.parentKey?_ne_none hs
  unfold knowsParent
  rw [hk, Option.any_some, ← Bool.not_eq_true, knows_placed, ← settles_child hserv hk,
    hsettles]
  decide

theorem not_knows_finished (hb : b ∈ (finished blocks).orphans) :
    (finished blocks).knowsEntity b = false ∧ (finished blocks).knowsParent b = false := by
  rw [finished_eq] at hb ⊢
  obtain ⟨hmem, htest⟩ := List.mem_filter.mp hb
  have hunknown : (placed blocks blocks).knowsEntity b = false := by simpa using htest
  exact ⟨hunknown, not_knowsParent hmem⟩

theorem ofBlocks_eq (hsorted : SortedByLevel blocks) : ofBlocks blocks = finished blocks := by
  have hplaced : blocks.foldl place empty = placed blocks blocks :=
    @foldl_place [] blocks hsorted
  have hstable : (finished blocks).pass = finished blocks :=
    pass_eq_self (fun b hb => (not_knows_finished hb).1) fun b hb => (not_knows_finished hb).2
  have hpass : (placed blocks blocks).pass = finished blocks :=
    review_knowsParent fun b hb => (not_knows_finished hb).2
  rw [ofBlocks, hplaced, reconcile_eq_pass (by rw [hpass, hstable]), hpass]

-- ============================================================ its outline

theorem founders_finished (blocks : List Block) :
    (finished blocks).founders = (Outline.ofBlocks blocks).founders := by
  rw [finished_eq]
  rfl

/-- Under the key of an entity the ledger has what the list has. -/
theorem content_finished {f : Block} (hf : f ∈ (finished blocks).founders) :
    (finished blocks).outline.content f.key = (Outline.ofBlocks blocks).content f.key := by
  have hknown : ∀ b : Block, b.key = f.key → (placed blocks blocks).knowsEntity b = true := by
    intro b hkey
    rw [finished_eq] at hf
    exact knows_iff.mpr ⟨f, hf, hkey.symm⟩
  have hs : ∀ b : Block, b.key = f.key → b.precedence ≠ .structural := by
    intro b hkey hb
    rw [founders_finished] at hf
    have hsettles := (List.mem_filter.mp (mem_of_mem_firsts hf)).2
    rw [settles_structural ((congrArg Key.precedence hkey).symm.trans hb)] at hsettles
    cases hsettles
  rw [finished_eq]
  show List.filter _ (_ ++ _) = _
  rw [List.filter_append]
  generalize (placed blocks blocks).knowsEntity = known at hknown ⊢
  unfold placed Outline.ofBlocks
  simp only [List.filter_filter]
  congr 1
  · refine List.filter_congr fun b _ => ?_
    simp
  · refine List.filter_congr fun b _ => ?_
    by_cases hkey : b.key = f.key
    · simp [hkey, hknown b hkey, hs b hkey]
    · simp [hkey]

end Ledger

-- ============================================================ documents

namespace ContextTree

theorem depicts_ofBlocks (hsorted : SortedByLevel blocks) (hblocks : Unmarked blocks) :
    (build blocks).Depicts (Outline.ofBlocks blocks) := by
  have h := inv_build blocks
  have htr := (inStep_build hblocks).tracks
  rw [Ledger.ofBlocks_eq hsorted] at htr
  refine ⟨?_, ?_, ?_⟩
  · intro n f hn
    rw [htr.depicts.leaves hn]
    exact Ledger.content_finished ((htr.mem_founders h).mpr ⟨n, hn⟩)
  · intro n f hn
    rw [htr.depicts.entities hn, Outline.under, Outline.under, Ledger.outline,
      Ledger.founders_finished]
  · rw [htr.depicts.services, Outline.services, Outline.services, Ledger.outline,
      Ledger.founders_finished]

/-- For sorted blocks, the documents of the tree are those of the list. Each has the channels of
its service, by name, and each of these once. -/
theorem assemble_build_eq_documents (hsorted : SortedByLevel blocks)
    (hblocks : Unmarked blocks) :
    assemble (build blocks) = (Outline.ofBlocks blocks).documents
      ∧ ∀ f : Block, ((Outline.ofBlocks blocks).service f).channels.bindings.Perm
          (((Outline.ofBlocks blocks).under f).map fun c =>
            (c.label.id, (Outline.ofBlocks blocks).channel c)) := by
  refine ⟨(inv_build blocks).assemble_eq (depicts_ofBlocks hsorted hblocks), ?_⟩
  intro f
  apply NameMap.perm_ofList
  rw [List.map_map]
  exact Outline.nodup_under blocks f

/-- A channel is described twice, first under a service that is not there, and that block comes
last nevertheless. The service has no title. Its operation has two summaries, its message a schema
and an example. -/
theorem assemble_build_eq_documents_late_block :
    let a : Block := { (default : Block) with precedence := .service, label := { id := "a" } }
    let lost : Block := { (default : Block) with
      precedence := .channel
      label := { id := "c", parent := "b", contentType := some .description }
      value := "lost" }
    let found : Block := { lost with
      label := { lost.label with parent := "a" }
      value := "found" }
    let first : Block := { (default : Block) with
      precedence := .operation
      label :=
        { id := "o", parent := "c", category := some .pubOperation, contentType := some .summary }
      value := "first" }
    let second : Block := { first with value := "second" }
    let schema : Block := { (default : Block) with
      precedence := .message
      label := { id := "m", parent := "o", contentType := some .jsonSchema }
      value := "[1]" }
    let sample : Block := { schema with
      label := { schema.label with contentType := some .example }
      value := "1" }
    let blocks := [a, lost, found, first, second, schema, sample]
    let documents := (Outline.ofBlocks blocks).documents
    (Outline.ofBlocks blocks).founders = [a, found, first, schema]
      ∧ (Outline.ofBlocks blocks).content ⟨.channel, "c"⟩ = [found, lost]
      ∧ assemble (build blocks) = documents
      ∧ documents.map (·.document.info) = [⟨"a", "1.0.0", none⟩]
      ∧ documents.flatMap (fun d => d.document.channels.bindings.map fun c =>
          (c.1, c.2.description, c.2.publish.bind (·.summary)))
        = [("c", some "lost", some "second")]
      ∧ documents.flatMap (fun d => d.document.channels.bindings.map fun c =>
          (c.2.publish.bind (·.message)).map fun m =>
            (m.payload.map (·.toCompact), m.examples.map (·.summary)))
        = [some (some "[1]", ["\x7b\"file\":\"[0-0]\",\"path\":\"\"\x7d"])] := by
  intro a lost found first second schema sample blocks documents
  refine ⟨by decide, by decide, (assemble_build_eq_documents (by decide) (by decide)).1, ?_, ?_, ?_⟩
  · decide +kernel
  · decide +kernel
  · decide +kernel

end ContextTree

end EventDocs
