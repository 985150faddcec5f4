import EventDocs.Interim
import EventDocs.Proofs.Document.FromBlocks
import EventDocs.Proofs.Json.RoundTrip

/-
An interim state gives back the blocks that it was written from.

Each record of the format has a writer and a reader, and for each pair one lemma says that
the reader gets back what was written. Names of fields, names of kinds, categories and
content types, null for what is absent and a number for the precedence are matched there
and nowhere else; texts are matched once for all by the round trip of JSON. The only
condition is on places: the reader wants lines and columns that fit in 64 bits.

A merge sorts what it has read. Sorting is stable, so the blocks of one level stay in their
order, and an analysis, which sorts too, is given back as it was.
-/

namespace EventDocs

open Json

-- ============================================================ statement vocabulary

/-- Line and column fit in 64 bits. -/
def Token.Fits (t : Token) : Prop := t.line < UInt64.size ∧ t.column < UInt64.size

/-- Both markers of the block have places that fit in 64 bits. -/
def Block.Fits (b : Block) : Prop := b.beginToken.Fits ∧ b.endToken.Fits

instance (t : Token) : Decidable t.Fits := inferInstanceAs (Decidable (_ ∧ _))

instance (b : Block) : Decidable b.Fits := inferInstanceAs (Decidable (_ ∧ _))

/-- The same blocks level by level, and within each level in the order that they had. -/
structure StableSort (blocks result : List Block) : Prop where
  perm : result.Perm blocks
  sorted : SortedByLevel result
  stable : ∀ p, result.filter (·.precedence = p) = blocks.filter (·.precedence = p)

-- ============================================================ records

namespace Interim

open Tree Value

theorem readsAs_source (s : Source) : (ofSource s).ReadsAs source? s := by
  have hfields := MembersWrittenAs.cons "file" (.string s.file) (.cons "path" (.string s.path) .nil)
  refine ReadsAs.record hfields (by simp) fun t hread => ?_
  simp only [List.map_cons, List.map_nil] at hread
  simp [source?, hread, required, text?]

theorem readsAs_token {t : Token} (h : t.Fits) : (ofToken t).ReadsAs token? t := by
  obtain ⟨kind, hkind, rkind⟩ := ReadsAs.choice (Kind.ofName?_name t.kind)
  obtain ⟨line, hline, rline⟩ := ReadsAs.natural (Nat.le_of_lt_succ h.1)
  obtain ⟨column, hcolumn, rcolumn⟩ := ReadsAs.natural (Nat.le_of_lt_succ h.2)
  obtain ⟨source, hsource, rsource⟩ := readsAs_source t.source
  have hfields := MembersWrittenAs.cons "type" hkind (.cons "literal" (.string t.literal)
    (.cons "annotationLiteral" (.string t.metadata) (.cons "line" hline
      (.cons "column" hcolumn (.cons "source" hsource .nil)))))
  refine ReadsAs.record hfields (by simp) fun t hread => ?_
  simp only [List.map_cons, List.map_nil] at hread
  simp [token?, hread, required, Tree.optional, text?, rkind, rline, rcolumn, rsource]

/-- Null stands for what is absent, and no name is null. -/
theorem readsAs_ofName? {α : Type} {name : α → String} {read? : String → Option α}
    (h : ∀ a, read? (name a) = some a) (o : Option α) :
    (ofName? (o.map name)).ReadsAs (nullable? (choice? read?)) o := by
  cases o with
  | none => exact ⟨.null, .null, rfl⟩
  | some a =>
    refine ⟨.string (some (name a)), .string (name a), ?_⟩
    simp [nullable?, choice?, h]

theorem readsAs_label (a : Label) : (ofLabel a).ReadsAs label? a := by
  obtain ⟨category, hcategory, rcategory⟩ := readsAs_ofName? Category.ofName?_name a.category
  obtain ⟨content, hcontent, rcontent⟩ := readsAs_ofName? ContentType.ofName?_name a.contentType
  have hfields := MembersWrittenAs.cons "category" hcategory (.cons "type" hcontent
    (.cons "name" (.string a.name) (.cons "id" (.string a.id)
    (.cons "serviceId" (.string a.serviceId) (.cons "channelId" (.string a.channelId)
    (.cons "parent" (.string a.parent) (.cons "serviceURN" (.string a.serviceUrn)
    (.cons "serviceRepoUrl" (.string a.repoUrl)
    (.cons "serviceRepoLang" (.string a.repoLanguage) .nil)))))))))
  refine ReadsAs.record hfields (by simp) fun t hread => ?_
  simp only [List.map_cons, List.map_nil] at hread
  simp [label?, hread, Tree.optional, text?, rcategory, rcontent]

theorem readsAs_precedence (p : Precedence) :
    (Value.number (.integer p.number)).ReadsAs precedence? p := by
  have hsmall : p.number ≤ maxUnsigned := by
    cases p <;> decide
  obtain ⟨t, ht, hread⟩ := ReadsAs.natural hsmall
  refine ⟨t, ht, ?_⟩
  rw [precedence?, hread, Option.bind_some, Precedence.ofNumber?_number]

theorem readsAs_block {b : Block} (h : b.Fits) : (ofBlock b).ReadsAs block? b := by
  obtain ⟨start, hstart, rstart⟩ := readsAs_token h.1
  obtain ⟨label, hlabel, rlabel⟩ := readsAs_label b.label
  obtain ⟨level, hlevel, rlevel⟩ := readsAs_precedence b.precedence
  obtain ⟨stop, hstop, rstop⟩ := readsAs_token h.2
  have hfields := MembersWrittenAs.cons "beginToken" hstart (.cons "annotation" hlabel
    (.cons "docCategory" hlevel (.cons "value" (.string b.value) (.cons "endToken" hstop .nil))))
  refine ReadsAs.record hfields (by simp) fun t hread => ?_
  simp only [List.map_cons, List.map_nil] at hread
  simp [block?, hread, required, text?, rstart, rlabel, rlevel, rstop]

-- ============================================================ states

variable {blocks : List Block}

theorem read?_write (h : ∀ b ∈ blocks, b.Fits) : read? (write blocks) = some blocks := by
  obtain ⟨t, ht, hread⟩ := ReadsAs.list fun b hb => readsAs_block (h b hb)
  rw [read?, write, Tree.read?_toPretty ht]
  exact hread

theorem merge_write_eq (h : ∀ b ∈ blocks, b.Fits) (file path : String) :
    merge [⟨file, path, write blocks⟩] = .ok (Block.sorted blocks) := by
  simp [merge, ofInput, read?_write h]

end Interim

-- ============================================================ sorting

theorem sorted_perm (blocks : List Block) : (Block.sorted blocks).Perm blocks :=
  List.mergeSort_perm blocks _

theorem sorted_of_sortedByLevel {blocks : List Block} (h : SortedByLevel blocks) :
    Block.sorted blocks = blocks :=
  List.mergeSort_of_pairwise (h.imp fun hab => decide_eq_true hab)

/-- The blocks of one level are in order already, and a stable sort keeps them so. -/
theorem filter_sorted (blocks : List Block) (p : Precedence) :
    (Block.sorted blocks).filter (·.precedence = p) = blocks.filter (·.precedence = p) := by
  have hlevel : (blocks.filter (·.precedence = p)).Pairwise fun a b =>
      decide (a.precedence.number ≤ b.precedence.number) = true := by
    apply List.pairwise_of_forall_mem_list
    intro a ha b hb
    have hap : a.precedence = p := of_decide_eq_true (List.mem_filter.mp ha).2
    have hbp : b.precedence = p := of_decide_eq_true (List.mem_filter.mp hb).2
    simp [hap, hbp]
  have hkept : (blocks.filter (·.precedence = p)).Sublist (Block.sorted blocks) :=
    List.sublist_mergeSort Block.level_trans Block.level_total hlevel List.filter_sublist
  have hsub := hkept.filter (·.precedence = p)
  simp only [List.filter_filter, Bool.and_self] at hsub
  have hlength := ((sorted_perm blocks).filter (·.precedence = p)).length_eq
  exact (hsub.eq_of_length hlength.symm).symm

theorem stableSort_sorted (blocks : List Block) : StableSort blocks (Block.sorted blocks) where
  perm := sorted_perm blocks
  sorted := sortedByLevel_sorted blocks
  stable := filter_sorted blocks

theorem sortedByLevel_of_analyzeConcurrently {concurrency : Nat} {r : Repository}
    {env : Environment} {inputs : List Input} {blocks : List Block}
    (h : analyzeConcurrently concurrency r env inputs = .ok blocks) : SortedByLevel blocks := by
  unfold analyzeConcurrently analyze at h
  split at h
  · cases h
  · simp only at h
    split at h
    · obtain rfl := Except.ok.inj h
      exact sortedByLevel_sorted _
    · cases h

-- ============================================================ the round trip

/-- What a repository wrote is what a merge reads from it: the same blocks, stably sorted,
and exactly as they were if they were sorted, as an analysis leaves them. -/
theorem merge_write {blocks : List Block} (h : ∀ b ∈ blocks, b.Fits) (file path : String) :
    Interim.merge [⟨file, path, Interim.write blocks⟩] = .ok (Block.sorted blocks)
      ∧ StableSort blocks (Block.sorted blocks)
      ∧ (SortedByLevel blocks →
          Interim.merge [⟨file, path, Interim.write blocks⟩] = .ok blocks)
      ∧ ∀ concurrency r env inputs, analyzeConcurrently concurrency r env inputs = .ok blocks →
          Interim.merge [⟨file, path, Interim.write blocks⟩] = .ok blocks := by
  have hmerge := Interim.merge_write_eq h file path
  have hsame (hsorted : SortedByLevel blocks) :
      Interim.merge [⟨file, path, Interim.write blocks⟩] = .ok blocks := by
    rw [hmerge, sorted_of_sortedByLevel hsorted]
  refine ⟨hmerge, stableSort_sorted blocks, hsame, ?_⟩
  intro concurrency r env inputs hrun
  exact hsame (sortedByLevel_of_analyzeConcurrently hrun)

/-- A message block before the service that it belongs to, with quotes, a backslash, control
characters and a character outside the basic plane in its texts, and with the greatest
line there is. -/
theorem merge_write_message_before_service :
    let source : Source := ⟨"A.cs", "src/A.cs"⟩
    let message : Block :=
      { beginToken := ⟨.beginMarker, "//+gendoc\t", "id=\"m\\\"", UInt64.size - 1, 1, source⟩
        label := { category := some .message, contentType := some .example, id := "m\x01" }
        precedence := .message
        value := "\x7b \"text\": \"\\u0000 😀\x08\x1f\" \x7d\n"
        endToken := ⟨.endMarker, "//-gendoc", "", 0, UInt64.size - 1, source⟩ }
    let service : Block :=
      { (default : Block) with precedence := .service, label := { category := some .info } }
    (∀ b ∈ [message, service], b.Fits)
      ∧ Interim.merge [⟨"a.json", "out/a.json", Interim.write [message, service]⟩]
          = .ok [service, message] := by
  intro source message service
  have hfits : ∀ b ∈ [message, service], b.Fits := by decide
  have hsorted : Block.sorted [message, service] = [service, message] := by
    simp [Block.sorted, List.mergeSort, message, service, Precedence.number]
  refine ⟨hfits, ?_⟩
  rw [(merge_write hfits "a.json" "out/a.json").1, hsorted]

end EventDocs
