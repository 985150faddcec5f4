import EventDocs.Proofs.Document.FromBlocks

/-
Under which parent a block is documented. A block names its parent, but its leaf goes to the
entity of its own key, and an entity is found by that key wherever it hangs. So the parent
that counts is the one that the founder of the entity names: of all blocks of the key, the
first in the list whose parent stands. A later block that names another parent is documented
under the founder's parent, even if its own parent is there as well.

So a block is documented under the parent that it names exactly if the founder names the
same one (`documentedUnder_iff_founder`). Two services that describe a channel of one id are
enough to see a block in the document of the wrong service
(`not_documentedUnder_second_service`).
-/

namespace EventDocs

variable {blocks : List Block} {b f : Block}

/-- Blocks of one key name the same entity as their parent if they give the same name. -/
theorem Block.parentKey?_eq_iff (hkey : f.key = b.key) (hs : b.precedence ≠ .structural) :
    f.parentKey? = b.parentKey? ↔ f.label.parent = b.label.parent := by
  have hlevel : f.precedence = b.precedence := congrArg Key.precedence hkey
  obtain ⟨k, hk⟩ := Block.parentKey?_ne_none hs
  obtain ⟨level, hup, -⟩ := Option.map_eq_some_iff.mp hk
  unfold Block.parentKey? Key.ofParent?
  rw [hlevel, hup]
  simp

/-- The first block of a key is the one that a search finds. -/
theorem find?_of_mem_firsts {l : List Block} (hf : f ∈ firsts l) :
    l.find? (·.key = f.key) = some f := by
  induction l with
  | nil => cases hf
  | cons c rest ih =>
      rcases List.mem_cons.mp hf with rfl | hf
      · exact List.find?_cons_of_pos (decide_eq_true rfl)
      · obtain ⟨hf, hne⟩ := List.mem_filter.mp hf
        have hne : f.key ≠ c.key := of_decide_eq_true hne
        rw [List.find?_cons_of_neg (by simpa using Ne.symm hne)]
        exact ih hf

namespace ContextTree

variable {t : ContextTree} {placed : List Block} {n q : NodeId} {s : Block}

-- ============================================================ statement vocabulary

/-- Leaf `n` hangs under an entity that hangs under node `q`. -/
def DocumentedUnder (t : ContextTree) (n q : NodeId) : Prop :=
  ∃ e, n ∈ t.children e ∧ e ∈ t.entities q

-- ============================================================ where a leaf goes

theorem madeFor_of_census (hn : t.census[n]? = some (.entity f.key f)) : t.MadeFor n f := by
  rw [getElem?_census] at hn
  obtain ⟨node, hnode, hbare⟩ := Option.map_eq_some_iff.mp hn
  exact ⟨node, hnode, congrArg Node.isLeaf hbare, congrArg Node.block hbare⟩

/-- A leaf whose block names a parent that is there has a place. -/
theorem keyAt?_of_parent_there (hn : n ∈ (build blocks).leafNodes)
    (hb : (build blocks).blockOf? n = some b) (hq : (build blocks).MadeFor q s)
    (hparent : b.parentKey? = some s.key) :
    ∃ e, n ∈ (build blocks).children e ∧ (build blocks).keyAt? e = some b.key := by
  have h := inv_build blocks
  obtain ⟨-, -, i, hnode⟩ := h.leaf_of_mem_leafNodes hn hb
  obtain ⟨e, he⟩ := h.exists_parent hnode rfl
  rcases (h.seated he hnode rfl).leaf rfl with ⟨rfl, -⟩ | hkey
  · -- an orphan of a closed tree has no parent in it
    obtain ⟨-, -, hcensus⟩ := h.census_of_madeFor hq
    obtain ⟨m, hm⟩ := h.indexed.complete (keyAt?_of_census hcensus)
    have hfound : (build blocks).declaredParent? b = some m := by
      unfold declaredParent?
      rw [hparent]
      exact hm
    rw [(closed_build blocks n he b hb).2] at hfound
    cases hfound
  · exact ⟨e, he, hkey⟩

/-- Leaf `n` hangs under the entity that `f` founded, and this one under the entity that `f`
names as its parent. -/
structure Line (t : ContextTree) (n e p : NodeId) (f g : Block) : Prop where
  leaf : n ∈ t.children e
  entity : e ∈ t.children p
  founder : t.census[e]? = some (.entity f.key f)
  parent : t.census[p]? = some (.entity g.key g)
  named : f.parentKey? = some g.key

theorem exists_line (hblocks : Unmarked blocks) (hn : n ∈ (build blocks).leafNodes)
    (hb : (build blocks).blockOf? n = some b) (hq : (build blocks).MadeFor q s)
    (hparent : b.parentKey? = some s.key) :
    ∃ e p f g, (build blocks).Line n e p f g ∧ f.key = b.key := by
  have h := inv_build blocks
  obtain ⟨hmem, hs, -⟩ := h.leaf_of_mem_leafNodes hn hb
  obtain ⟨e, he, hkey⟩ := keyAt?_of_parent_there hn hb hq hparent
  obtain ⟨f, hf, -, hfk, hcensus⟩ := h.entity_of_key hblocks hmem hs hkey
  have hserv : f.precedence ≠ .service := by
    rw [show f.precedence = b.precedence from congrArg Key.precedence hfk]
    exact b.ne_service_of_parentKey hparent (h.census_of_madeFor hq).2.1
  obtain ⟨p, hp⟩ := h.exists_parent hcensus rfl
  obtain ⟨k, hk, hpk⟩ := (h.seated hp hcensus rfl).child rfl hserv
  obtain ⟨g, -, -, hgk, hg⟩ := h.entity_of_parentKey hblocks hf hserv hk hpk
  exact ⟨e, p, f, g, ⟨he, hp, hcensus, hg, hgk ▸ hk⟩, hfk⟩

namespace Line

variable {e p : NodeId} {g : Block}

theorem documentedUnder (hl : t.Line n e p f g) : t.DocumentedUnder n p := by
  refine ⟨e, hl.leaf, ?_⟩
  rw [entities_eq]
  exact List.mem_filter.mpr ⟨hl.entity, by rw [hl.founder]; rfl⟩

/-- A node has one parent, so there is no other line. -/
theorem documentedUnder_iff (hl : t.Line n e p f g) (h : Inv blocks placed t)
    (hq : t.census[q]? = some (.entity s.key s)) :
    t.DocumentedUnder n q ↔ f.parentKey? = some s.key := by
  rw [hl.named, Option.some.injEq]
  constructor
  · intro ⟨e', he', hunder⟩
    rw [h.owned.sole he' hl.leaf] at hunder
    have hqp : q = p := h.owned.sole (List.mem_filter.mp hunder).1 hl.entity
    rw [hqp, hl.parent] at hq
    exact congrArg Node.key (Option.some.inj hq)
  · intro hkey
    rw [h.entity_unique hq hl.parent hkey.symm]
    exact hl.documentedUnder

end Line

/-- For sorted blocks the founder of an entity is the first block of its key that settles. -/
theorem find?_of_founder (hsorted : SortedByLevel blocks) (hblocks : Unmarked blocks)
    (hn : (build blocks).census[n]? = some (.entity f.key f)) :
    blocks.find? (fun c => settles blocks c ∧ c.key = f.key) = some f := by
  have htr := (inStep_build hblocks).tracks
  rw [Ledger.ofBlocks_eq hsorted] at htr
  have hfirst := (htr.mem_founders (inv_build blocks)).mpr ⟨n, hn⟩
  rw [Ledger.founders_finished] at hfirst
  have hfind := find?_of_mem_firsts hfirst
  rw [List.find?_filter] at hfind
  simpa using hfind

/-- Every block has a leaf. -/
theorem exists_leafNode (hb : b ∈ blocks) (hs : b.precedence ≠ .structural) :
    ∃ n ∈ (build blocks).leafNodes, (build blocks).blockOf? n = some b := by
  have hmem := mem_substantial.mpr ⟨hb, hs⟩
  rw [← (inv_build blocks).filterMap_blockOf?_leafNodes] at hmem
  exact List.mem_filterMap.mp hmem

/-- Every resolvable key has an entity. -/
theorem exists_madeFor {k : Key} (hblocks : Unmarked blocks) (hk : Resolvable blocks k) :
    ∃ q s, (build blocks).MadeFor q s ∧ s.key = k := by
  obtain ⟨q, s, -, -, hkey, hq⟩ :=
    (inv_build blocks).mem_entityKeys.mp (mem_entityKeys_of_resolvable hblocks hk)
  exact ⟨q, s, madeFor_of_census hq, hkey⟩

-- ============================================================ the declared parent

/-- A block whose declared parent is there is documented under the parent that the first
block of its key with a parent names, so under its own exactly if both name the same. -/
theorem documentedUnder_iff_founder (hsorted : SortedByLevel blocks) (hblocks : Unmarked blocks)
    (hn : n ∈ (build blocks).leafNodes) (hb : (build blocks).blockOf? n = some b)
    (hq : (build blocks).MadeFor q s) (hparent : b.parentKey? = some s.key) :
    ∃ f p g, blocks.find? (fun c => settles blocks c ∧ c.key = b.key) = some f
      ∧ (build blocks).MadeFor p g ∧ f.parentKey? = some g.key
      ∧ (build blocks).DocumentedUnder n p
      ∧ ((build blocks).DocumentedUnder n q ↔ f.label.parent = b.label.parent) := by
  have h := inv_build blocks
  obtain ⟨-, hs, -⟩ := h.leaf_of_mem_leafNodes hn hb
  obtain ⟨-, -, hcensus⟩ := h.census_of_madeFor hq
  obtain ⟨e, p, f, g, hline, hfk⟩ := exists_line hblocks hn hb hq hparent
  refine ⟨f, p, g, hfk ▸ find?_of_founder hsorted hblocks hline.founder,
    madeFor_of_census hline.parent, hline.named, hline.documentedUnder, ?_⟩
  rw [hline.documentedUnder_iff h hcensus, ← hparent]
  exact Block.parentKey?_eq_iff hfk hs

/-- Two services both describe a channel `c`: both descriptions are documented under the
first service. -/
theorem documentedUnder_iff_founder_shared_channel :
    let a : Block := { (default : Block) with precedence := .service, label := { id := "a" } }
    let b : Block := { (default : Block) with precedence := .service, label := { id := "b" } }
    let first : Block :=
      { (default : Block) with precedence := .channel, label := { id := "c", parent := "a" } }
    let second : Block :=
      { (default : Block) with precedence := .channel, label := { id := "c", parent := "b" } }
    let t := build [a, b, first, second]
    ∃ n q s, n ∈ t.leafNodes ∧ t.blockOf? n = some second ∧ t.MadeFor q s
      ∧ second.parentKey? = some s.key
      ∧ ∃ f p g, f = first ∧ t.MadeFor p g ∧ f.parentKey? = some g.key
          ∧ t.DocumentedUnder n p
          ∧ (t.DocumentedUnder n q ↔ f.label.parent = second.label.parent) := by
  intro a b first second t
  have hblocks : Unmarked [a, b, first, second] := by decide
  have hmem : second ∈ [a, b, first, second] := by simp
  obtain ⟨n, hn, hnb⟩ := exists_leafNode hmem (by decide)
  obtain ⟨q, s, hq, hkey⟩ := exists_madeFor hblocks (.service (b := b) (by simp) rfl)
  have hparent : second.parentKey? = some s.key := by rw [hkey]; rfl
  obtain ⟨f, p, g, hfind, hresult⟩ :=
    documentedUnder_iff_founder (by decide) hblocks hn hnb hq hparent
  rw [show [a, b, first, second].find? _ = some first by decide] at hfind
  exact ⟨n, q, s, hn, hnb, hq, hparent, f, p, g, (Option.some.inj hfind).symm, hresult⟩

/-- The second description is not documented under the second service, although it names
it. -/
theorem not_documentedUnder_second_service :
    let a : Block := { (default : Block) with precedence := .service, label := { id := "a" } }
    let b : Block := { (default : Block) with precedence := .service, label := { id := "b" } }
    let first : Block :=
      { (default : Block) with precedence := .channel, label := { id := "c", parent := "a" } }
    let second : Block :=
      { (default : Block) with precedence := .channel, label := { id := "c", parent := "b" } }
    let t := build [a, b, first, second]
    SortedByLevel [a, b, first, second]
      ∧ ∃ n q s, n ∈ t.leafNodes ∧ t.blockOf? n = some second ∧ t.MadeFor q s
          ∧ second.parentKey? = some s.key ∧ ¬ t.DocumentedUnder n q := by
  intro a b first second t
  have hsorted : SortedByLevel [a, b, first, second] := by decide
  have hblocks : Unmarked [a, b, first, second] := by decide
  have hmem : second ∈ [a, b, first, second] := by simp
  obtain ⟨n, hn, hnb⟩ := exists_leafNode hmem (by decide)
  obtain ⟨q, s, hq, hkey⟩ := exists_madeFor hblocks (.service (b := b) (by simp) rfl)
  have hparent : second.parentKey? = some s.key := by rw [hkey]; rfl
  refine ⟨hsorted, n, q, s, hn, hnb, hq, hparent, ?_⟩
  obtain ⟨e, p, f, g, hline, hfk⟩ := exists_line hblocks hn hnb hq hparent
  have hfind := find?_of_founder hsorted hblocks hline.founder
  rw [hfk, show [a, b, first, second].find? _ = some first by decide] at hfind
  obtain rfl := Option.some.inj hfind
  rw [hline.documentedUnder_iff (inv_build _) ((inv_build _).census_of_madeFor hq).2.2, hkey]
  decide

end ContextTree

end EventDocs
