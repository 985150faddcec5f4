import EventDocs.Proofs.CommandLine.Rerun
import EventDocs.Proofs.Document.Outline

/-
What a run over all repositories leaves behind.

Everything that a run makes lies on the way of a document's path, and every document is at the
end of its own (`new_of_run`, `files_of_run`). The ids of the services are part of these paths
as they are, slashes and dots included, so it is for the ids to keep the documents apart and
below their directory. `Apart` says what this takes in terms of ways alone, and it is
exactly what makes a run write one file for each service, and nothing elsewhere
(`runGlobal_oneFileEach_iff`). Ids that are plain names have it, because no two documents are
about one service.
-/

namespace EventDocs

-- ============================================================ paths below a directory

namespace Path

theorem isAbsolute_append {p : String} (hp : p ≠ "") (q : String) :
    isAbsolute (p ++ q) = isAbsolute p := by
  unfold isAbsolute
  cases hchars : p.toList with
  | nil => exact absurd (String.toList_eq_nil_iff.mp hchars) hp
  | cons c cs => simp [hchars]

theorem join_ne_empty {p q : String} (hq : q ≠ "") : join p q ≠ "" := by
  unfold join
  split
  · exact hq
  · split
    · simp [hq]
    · simp [hq]

theorem join_slash {p q : String} (hq : q ≠ "") (r : String) :
    join p (q ++ "/" ++ r) = join p q ++ "/" ++ r := by
  unfold join
  have habsolute : isAbsolute (q ++ "/" ++ r) = isAbsolute q := by
    rw [String.append_assoc, isAbsolute_append hq]
  rw [habsolute]
  split
  · rfl
  · split
    · simp [String.append_assoc]
    · simp [String.append_assoc]

end Path

namespace FileSystem

open EventDocs.Path

/-- The way of a path below a directory leads to the directory first. -/
theorem way_slash {fs : FileSystem} {root name rest : String} {q : Place} (hname : name ≠ "") :
    Way (fs.origin (join root (name ++ "/" ++ rest))) (segments (join root (name ++ "/" ++ rest))) q
      ↔ Way (fs.origin (join root name)) (segments (join root name)) q
        ∨ Way (fs.target (join root name)) (segments rest) q := by
  have habsolute : isAbsolute (join root name ++ "/" ++ rest) = isAbsolute (join root name) := by
    rw [String.append_assoc, isAbsolute_append (join_ne_empty hname)]
  rw [join_slash hname, segments_slash, origin_eq fs habsolute]
  exact Way.append_iff

theorem target_slash (fs : FileSystem) {root name : String} (hname : name ≠ "") (rest : String) :
    fs.target (join root (name ++ "/" ++ rest))
      = arrive (fs.target (join root name)) (segments rest) := by
  have habsolute : isAbsolute (join root name ++ "/" ++ rest) = isAbsolute (join root name) := by
    rw [String.append_assoc, isAbsolute_append (join_ne_empty hname)]
  unfold target
  rw [join_slash hname, segments_slash, origin_eq fs habsolute, arrive_append]

end FileSystem

namespace CommandLine

open EventDocs.Path FileSystem Listing Storage EventDocs.Action

variable {fs fs₁ fs₂ fs₃ fs' : FileSystem} {root into input output : String} {p q : Place}
  {blocks : List Block} {format : Format} {documents : List (String × String)}
  {located : List (Place × Bytes)}

-- ============================================================ what is new

/-- What storing documents makes lies on the way of one of them. -/
theorem storeAll_way {location : Location}
    (h : storeAll location ⟨root⟩ documents fs = (.ok (), fs')) (hnew : New fs fs' q) :
    ∃ d ∈ documents, Way (fs.origin (join root d.1)) (segments (join root d.1)) q := by
  induction documents generalizing fs with
  | nil =>
      cases h
      exact absurd hnew.1 hnew.2
  | cons d documents ih =>
      obtain ⟨fs₁, hfirst, hrest⟩ := forM_cons_ok.mp h
      rcases hnew.between fs₁ with hq | hq
      · exact ⟨d, List.mem_cons_self, upload_way (during_ok.mp hfirst) hq⟩
      · obtain ⟨x, hx, hway⟩ := ih hrest hq
        obtain ⟨fs₂, p, n, hgrows, -, -, rfl⟩ := store_ok hfirst
        have hhere : (fs₂.put (p ++ [n]) (.file (Utf8.encode d.2))).here = fs.here := hgrows.here
        rw [origin_of_here hhere] at hway
        exact ⟨x, List.mem_cons_of_mem d hx, hway⟩

/-- What is new after a run lies on the way of a document. -/
theorem new_of_run (hfs : fs.WellFormed) (hinput : StaysBelow (inner input))
    (hmade : fs.makeDirectory into = .ok fs₁)
    (hdownload : downloadAndMerge (.directory input) into fs₁ = (.ok blocks, fs₂))
    (hstore : storeAll (.directory output) ⟨output⟩ documents fs₂ = (.ok (), fs₃))
    (hnew : New fs (removeDirectory into fs₃) q) :
    ∃ d ∈ documents, Way (fs.origin (join output d.1)) (segments (join output d.1)) q := by
  obtain ⟨d, n, hfresh⟩ := exists_fresh hmade
  have hsheltered := downloadAndMerge_sheltered (hfresh.grows.wellFormed hfs) hfresh.there hinput
    hdownload
  obtain ⟨located, -, hkeeps, -, -⟩ := storeAll_ok hstore
  have hkeeps₃ := hsheltered.keeps.trans hkeeps
  have hremoved := removed_of_stat (hkeeps₃.stat hfresh.there) hfresh.ne_nil
  obtain ⟨hbefore, hafter⟩ := hnew
  rw [hremoved.view] at hafter
  have hq : ¬ d <+: q := by
    intro hbelow
    rw [if_pos hbelow] at hafter
    exact hafter rfl
  rw [if_neg hq] at hafter
  have hne : q ≠ d := fun heq => hq (heq ▸ List.prefix_refl d)
  have hmissing : fs₂.get? q = none := by
    rw [hsheltered.outside hq, hfresh.same hne, hbefore]
  obtain ⟨x, hx, hway⟩ := storeAll_way hstore ⟨hmissing, hafter⟩
  rw [origin_of_here (hsheltered.keeps.here.trans hfresh.grows.here)] at hway
  exact ⟨x, hx, hway⟩

-- ============================================================ one file for each document

/-- The place of a document. -/
def documentPlace (fs : FileSystem) (output : String) (d : String × String) : Place :=
  fs.target (join output d.1)

/-- The directory that documents go to. -/
def documentRoot (fs : FileSystem) (output : String) : Place := fs.target (join output "asyncapi")

/-- A place on the way to this directory. -/
def Leading (fs : FileSystem) (output : String) (q : Place) : Prop :=
  Way (fs.origin (join output "asyncapi")) (segments (join output "asyncapi")) q

/-- Every document has a file of its own that holds it, and nothing else has changed but below the
directory of the documents and by making the directories that lead there. -/
structure OneFileEach (fs fs' : FileSystem) (output : String)
    (documents : List (String × String)) : Prop where
  distinct : (documents.map fun d => fs'.locate (join output d.1)).Nodup
  holds : ∀ d ∈ documents, fs'.read (join output d.1) = .ok (Utf8.encode d.2)
  confined : ∀ {q : Place}, fs'.get? q ≠ fs.get? q → documentRoot fs output <+: q
    ∨ (Leading fs output q ∧ fs.get? q = none ∧ fs'.get? q = some .directory)

/-- The paths of the documents lead to places of their own, and do not come through a place
elsewhere that is not a directory yet. A file elsewhere may only be what it was anyway. -/
structure Apart (fs : FileSystem) (output : String) (documents : List (String × String)) :
    Prop where
  distinct : (documents.map (documentPlace fs output)).Nodup
  inside : ∀ d ∈ documents, documentRoot fs output <+: documentPlace fs output d
    ∨ fs.get? (documentPlace fs output d) = some (.file (Utf8.encode d.2))
  through : ∀ d ∈ documents, ∀ {q : Place},
    Way (fs.origin (join output d.1)) (segments (join output d.1)).dropLast q →
    documentRoot fs output <+: q ∨ Leading fs output q ∨ fs.get? q = some .directory

theorem written_of_nodup {c : Bytes} (hnodup : (located.map Prod.fst).Nodup)
    (hmem : (p, c) ∈ located) : written located p = some c := by
  obtain ⟨c', hc'⟩ := exists_written hmem
  have hsame : (p, c') = (p, c) :=
    List.inj_on_of_nodup_map hnodup (mem_of_written hc') hmem rfl
  rw [hc', (Prod.mk.inj hsame).2]

section Run

variable (hpublished : Published fs fs' output documents located)

include hpublished

theorem located_eq : located = documents.map fun d => (documentPlace fs output d, Utf8.encode d.2) := by
  have hhere := hpublished.keeps.here
  have hsites := hpublished.sites
  clear hpublished
  induction hsites with
  | nil => rfl
  | cons hd hrest ih =>
      obtain ⟨p, n, hsite, rfl⟩ := hd
      rw [List.map_cons, ← ih]
      rw [hsite.eq_target, target_of_here hhere]
      rfl

theorem site_of_document {d : String × String} (hd : d ∈ documents) :
    ∃ p n, fs'.Site (join output d.1) p n ∧ p ++ [n] = documentPlace fs output d := by
  obtain ⟨p, n, hsite, -⟩ := hpublished.sites.exists_place hd
  exact ⟨p, n, hsite, hsite.eq_target.trans (target_of_here hpublished.keeps.here _)⟩

theorem locate_document {d : String × String} (hd : d ∈ documents) :
    fs'.locate (join output d.1) = .ok (documentPlace fs output d) := by
  obtain ⟨p, n, hsite, hplace⟩ := site_of_document hpublished hd
  rw [← hplace]
  exact hsite.locate

/-- At the place of a document is a document that goes there. -/
theorem exists_content {d : String × String} (hd : d ∈ documents) :
    ∃ c, written located (documentPlace fs output d) = some c
      ∧ fs'.get? (documentPlace fs output d) = some (.file c) := by
  have hmem : (documentPlace fs output d, Utf8.encode d.2) ∈ located := by
    rw [located_eq hpublished]
    exact List.mem_map_of_mem hd
  obtain ⟨c, hc⟩ := exists_written hmem
  exact ⟨c, hc, contentAt?_eq_some.mp (hpublished.content_of_written hc)⟩

theorem distinct_iff : (documents.map fun d => fs'.locate (join output d.1)).Nodup
    ↔ (documents.map (documentPlace fs output)).Nodup := by
  have hsame : documents.map (fun d => fs'.locate (join output d.1))
      = (documents.map (documentPlace fs output)).map Except.ok := by
    rw [List.map_map]
    exact List.map_congr_left fun d hd => locate_document hpublished hd
  rw [hsame]
  exact List.nodup_map_iff fun _ _ h => Except.ok.inj h

theorem apart_of_oneFileEach (h : OneFileEach fs fs' output documents) :
    Apart fs output documents := by
  refine ⟨(distinct_iff hpublished).mp h.distinct, ?_, ?_⟩
  · intro d hd
    obtain ⟨c, -, hget⟩ := exists_content hpublished hd
    have hread := h.holds d hd
    rw [read_ok (locate_document hpublished hd) hget] at hread
    rw [← Except.ok.inj hread]
    by_cases hsame : fs'.get? (documentPlace fs output d) = fs.get? (documentPlace fs output d)
    · exact Or.inr (hsame ▸ hget)
    · rcases h.confined hsame with hbelow | ⟨-, -, hdirectory⟩
      · exact Or.inl hbelow
      · rw [hget] at hdirectory
        cases hdirectory
  · intro d hd q hway
    obtain ⟨p, n, hsite, -⟩ := site_of_document hpublished hd
    rw [← origin_of_here hpublished.keeps.here] at hway
    have hdirectory := hsite.directory_of_way hway
    by_cases hsame : fs'.get? q = fs.get? q
    · exact Or.inr (Or.inr (hsame ▸ hdirectory))
    · rcases h.confined hsame with hbelow | ⟨hleading, -⟩
      · exact Or.inl hbelow
      · exact Or.inr (Or.inl hleading)

/-- A place that has changed was nothing before, or it is that of a document. -/
theorem changed_cases (hchanged : fs'.get? q ≠ fs.get? q) :
    New fs fs' q ∨ ∃ d ∈ documents, q = documentPlace fs output d
      ∧ fs.get? q ≠ some (.file (Utf8.encode d.2)) := by
  cases hbefore : fs.get? q with
  | none =>
      rw [hbefore] at hchanged
      exact Or.inl ⟨hbefore, hchanged⟩
  | some e =>
      cases e with
      | directory => exact absurd ((hpublished.keeps.keeps q hbefore).trans hbefore.symm) hchanged
      | file c =>
          have hcontent := hpublished.content q
          rw [contentAt?_eq_some.mpr hbefore] at hcontent
          cases hwritten : written located q with
          | none =>
              rw [hwritten, Option.none_or] at hcontent
              exact absurd ((contentAt?_eq_some.mp hcontent).trans hbefore.symm) hchanged
          | some c' =>
              have hmem := mem_of_written hwritten
              rw [located_eq hpublished] at hmem
              obtain ⟨d, hd, heq⟩ := List.mem_map.mp hmem
              obtain ⟨rfl, rfl⟩ := Prod.mk.inj heq
              rw [hwritten, Option.some_or] at hcontent
              rw [contentAt?_eq_some.mp hcontent, hbefore] at hchanged
              exact Or.inr ⟨d, hd, rfl, hchanged.symm⟩

theorem oneFileEach_of_apart
    (hnew : ∀ q, New fs fs' q →
      ∃ d ∈ documents, Way (fs.origin (join output d.1)) (segments (join output d.1)) q)
    (h : Apart fs output documents) : OneFileEach fs fs' output documents := by
  refine ⟨(distinct_iff hpublished).mpr h.distinct, ?_, ?_⟩
  · intro d hd
    have hmem : (documentPlace fs output d, Utf8.encode d.2) ∈ located := by
      rw [located_eq hpublished]
      exact List.mem_map_of_mem hd
    have hnodup : (located.map Prod.fst).Nodup := by
      rw [located_eq hpublished, List.map_map]
      exact h.distinct
    exact read_ok (locate_document hpublished hd)
      (contentAt?_eq_some.mp (hpublished.content_of_written (written_of_nodup hnodup hmem)))
  · intro q hchanged
    rcases changed_cases hpublished hchanged with hq | ⟨d, hd, rfl, hother⟩
    · obtain ⟨d, hd, hway⟩ := hnew q hq
      rcases hway.end_or_before with rfl | hbefore
      · -- a file elsewhere would have been there before
        refine Or.inl ((h.inside d hd).resolve_right fun hfile => ?_)
        have hnone : fs.get? (documentPlace fs output d) = none := hq.1
        rw [hfile] at hnone
        cases hnone
      · obtain ⟨p, n, hsite, -⟩ := site_of_document hpublished hd
        have hdirectory := hsite.directory_of_way (q := q)
          (by rw [origin_of_here hpublished.keeps.here]; exact hbefore)
        rcases h.through d hd hbefore with hbelow | hleading | hthere
        · exact Or.inl hbelow
        · exact Or.inr ⟨hleading, hq.1, hdirectory⟩
        · rw [hq.1] at hthere
          cases hthere
    · exact Or.inl ((h.inside d hd).resolve_right hother)

end Run

-- ============================================================ plain ids

/-- An id leads nowhere else: in front of its last slash there are names only. -/
def IsPlain (id : String) : Prop := ∀ s ∈ (segments id).dropLast, isName s = true

/-- The name of a document's file, below the directory of the documents. -/
def fileOf (format : Format) (d : ServiceDocument) : String :=
  d.serviceId ++ "." ++ format.extension

theorem documentsOf_eq : documentsOf format blocks
    = (assemble (ContextTree.build blocks)).map fun d =>
      ("asyncapi" ++ "/" ++ fileOf format d, format.render d.document) := by
  unfold documentsOf
  apply List.map_congr_left
  intro d hd
  have hkey : "asyncapi/" ++ d.serviceId ++ "." ++ format.extension
      = "asyncapi" ++ "/" ++ fileOf format d := by
    unfold fileOf
    rw [← String.append_assoc, ← String.append_assoc]
    rfl
  rw [hkey]

theorem fileOf_injective {d e : ServiceDocument} (h : fileOf format d = fileOf format e) :
    d.serviceId = e.serviceId := by
  unfold fileOf at h
  rw [String.append_left_inj, String.append_left_inj] at h
  exact h

theorem isName_of_fileOf {d : ServiceDocument} (h : IsPlain d.serviceId) :
    ∀ s ∈ segments (fileOf format d), isName s = true := by
  have hend : fileOf format d = d.serviceId ++ .ofList ('.' :: format.extension.toList) := by
    unfold fileOf
    rw [String.append_assoc, String.ofList_cons, String.ofList_toList]
    rfl
  have hslash : '/' ∉ '.' :: format.extension.toList := by
    cases format with
    | yaml => decide
    | json => decide
  have hlong : 3 ≤ format.extension.toList.length := by
    cases format with
    | yaml => decide
    | json => decide
  obtain ⟨S, t, hid, hfile⟩ := segments_append hslash d.serviceId
  unfold IsPlain at h
  rw [hid, List.dropLast_concat] at h
  intro s hs
  rw [hend, hfile] at hs
  rcases List.mem_append.mp hs with hs | hs
  · exact h s hs
  · rw [List.mem_singleton.mp hs]
    apply isName_of_length
    rw [List.length_append, List.length_cons]
    omega

/-- Ids that are plain names keep the documents apart, below their directory. -/
theorem apart_of_plain (h : ∀ d ∈ assemble (ContextTree.build blocks), IsPlain d.serviceId)
    (fs : FileSystem) (output : String) : Apart fs output (documentsOf format blocks) := by
  have hname : "asyncapi" ≠ "" := by decide
  have hbelow : ∀ d ∈ assemble (ContextTree.build blocks), ∀ q,
      Way (documentRoot fs output) (segments (fileOf format d)) q → documentRoot fs output <+: q := by
    intro d hd q hway
    exact staysBelow_of_no_up (fun s hs => (isName_iff.mp (isName_of_fileOf (h d hd) s hs)).2) _ q hway
  have hplace : ∀ d ∈ assemble (ContextTree.build blocks),
      documentPlace fs output ("asyncapi" ++ "/" ++ fileOf format d, format.render d.document)
        = documentRoot fs output ++ (segments (fileOf format d)).map String.ofList := by
    intro d hd
    rw [documentPlace, target_slash fs hname, arrive_isName (isName_of_fileOf (h d hd))]
    rfl
  rw [documentsOf_eq]
  refine ⟨?_, ?_, ?_⟩
  · have hids := (ContextTree.inv_build blocks).nodup_assemble
    rw [List.map_map]
    refine List.Nodup.map_on ?_ hids.of_map
    intro d hd e he heq
    rw [Function.comp_apply, Function.comp_apply, hplace d hd, hplace e he] at heq
    have hsegments := List.map_injective_iff.mpr (fun _ _ h => String.ofList_injective h)
      (List.append_cancel_left heq)
    exact List.inj_on_of_nodup_map hids hd he (fileOf_injective (eq_of_segments hsegments))
  · intro x hx
    obtain ⟨d, hd, rfl⟩ := List.mem_map.mp hx
    rw [hplace d hd]
    exact Or.inl (List.prefix_append _ _)
  · intro x hx q hway
    obtain ⟨d, hd, rfl⟩ := List.mem_map.mp hx
    rcases (way_slash hname).mp (hway.mono (List.dropLast_prefix _)) with hleading | hinside
    · exact Or.inr (Or.inl hleading)
    · exact Or.inl (hbelow d hd q hinside)

-- ============================================================ a whole run

/-- What a run that succeeded has merged. -/
theorem merged_of_run {name : String} {dryRun : Bool} {s : Place} (hfs : fs.WellFormed)
    (hstat : fs.stat input = .ok (s, .directory)) (hwithin : ∀ t ∈ inner input, t ≠ ['.', '.'])
    (habsolute : isAbsolute into = true)
    (hrun : runGlobal name dryRun into (.directory input) (.directory output) fs = (.ok (), fs')) :
    ∃ fs₁ blocks fs₂, fs.makeDirectory into = .ok fs₁
      ∧ downloadAndMerge (.directory input) into fs₁ = (.ok blocks, fs₂)
      ∧ merged? fs input s = some blocks := by
  obtain ⟨-, fs₁, blocks, fs₂, -, -, hmade, hmerged, -⟩ := runGlobal_ok_iff.mp hrun
  obtain ⟨d, n, hfresh⟩ := exists_fresh hmade
  have hready := hfresh.ready hfs (hfresh.stat hstat) hwithin
  obtain ⟨hblocks, -⟩ := downloadAndMerge_ok hready habsolute hmerged
  rw [merged?_of_grows hfresh.grows] at hblocks
  exact ⟨fs₁, blocks, fs₂, hmade, hmerged, hblocks⟩

/-- A run that succeeded writes one file for each service, and nothing but these and the
directories on the way to them, if and only if the ids of the services keep their documents apart.
Ids that are plain names do.

The input's path must not lead out of where it starts behind a leading dot, because the copies
follow it there; and no document's path says the name of the private directory. -/
theorem runGlobal_oneFileEach_iff {fs fs₁ fs₂ fs' : FileSystem} {name into input output : String}
    {format : Format} {blocks : List Block} (hfs : fs.WellFormed)
    (hinput : StaysBelow (inner input)) (hname : Format.ofName name = .ok format)
    (hmade : fs.makeDirectory into = .ok fs₁)
    (hmerged : downloadAndMerge (.directory input) into fs₁ = (.ok blocks, fs₂))
    (hrun : runGlobal name false into (.directory input) (.directory output) fs = (.ok (), fs'))
    (hprivate : ∀ n, fileName? into = some n →
      ∀ d ∈ documentsOf format blocks, n.toList ∉ segments (join output d.1)) :
    (∀ d ∈ documentsOf format blocks,
        fs'.locate (join output d.1) = .ok (documentPlace fs output d))
    ∧ (OneFileEach fs fs' output (documentsOf format blocks)
        ↔ Apart fs output (documentsOf format blocks))
    ∧ ((∀ d ∈ assemble (ContextTree.build blocks), IsPlain d.serviceId) →
        OneFileEach fs fs' output (documentsOf format blocks)) := by
  rw [runGlobal_of_ok hname hmade hmerged] at hrun
  obtain ⟨hstored, rfl⟩ := Prod.mk.inj hrun
  have hstore : storeAll (.directory output) ⟨output⟩ (documentsOf format blocks) fs₂ = (.ok (), _) :=
    Prod.ext hstored rfl
  obtain ⟨located, hpublished⟩ := files_of_run hfs hinput hmade hmerged hstore hprivate
  have happart := oneFileEach_of_apart hpublished fun q =>
    new_of_run hfs hinput hmade hmerged hstore
  refine ⟨fun d hd => locate_document hpublished hd, ⟨apart_of_oneFileEach hpublished, happart⟩, ?_⟩
  intro hplain
  exact happart (apart_of_plain hplain fs output)

/-- A service with a plain id gets its one file. -/
theorem runGlobal_oneFileEach_plain : ∃ fs',
    runGlobal "yaml" false "/tmp/one" (.directory "/store") (.directory "/store") oneService
      = (.ok (), fs')
    ∧ OneFileEach oneService fs' "/store" (documentsOf .yaml [titleBlock]) := by
  obtain ⟨text, fs', hpublished, hrun, -⟩ := runGlobal_oneService .yaml "yaml" rfl
  obtain ⟨fs₁, blocks, fs₂, hmade, hmerged, hblocks⟩ := merged_of_run wellFormed_oneService
    stat_oneService (by decide +kernel) (by decide) hrun
  rw [merged?_oneService] at hblocks
  obtain rfl := Option.some.inj hblocks
  have hkeys : (documentsOf .yaml [titleBlock]).map Prod.fst = ["asyncapi/a.yml"] :=
    published_oneService .yaml
  have hprivate : ∀ n, fileName? "/tmp/one" = some n →
      ∀ d ∈ documentsOf .yaml [titleBlock], n.toList ∉ segments (join "/store" d.1) := by
    intro n hn d hd
    have hone : fileName? "/tmp/one" = some "one" := by decide +kernel
    rw [hone] at hn
    obtain rfl := Option.some.inj hn
    have hkey := List.mem_map_of_mem (f := Prod.fst) hd
    rw [hkeys] at hkey
    rw [List.mem_singleton.mp hkey]
    decide +kernel
  have hplain : ∀ d ∈ assemble (ContextTree.build [titleBlock]), IsPlain d.serviceId := by
    have hids : (assemble (ContextTree.build [titleBlock])).map (·.serviceId) = ["a"] := by
      decide +kernel
    intro d hd
    have hid := List.mem_map_of_mem (f := ServiceDocument.serviceId) hd
    rw [hids] at hid
    rw [List.mem_singleton.mp hid]
    show ∀ s ∈ (segments "a").dropLast, isName s = true
    decide +kernel
  exact ⟨fs', hrun, (runGlobal_oneFileEach_iff wellFormed_oneService
    (staysBelow_of_no_up (by decide +kernel)) rfl hmade hmerged hrun hprivate).2.2 hplain⟩

-- ============================================================ ids that lead elsewhere

/-- A block that makes a service known under an id. -/
def titleOf (id value : String) : Block :=
  { titleBlock with label := { titleBlock.label with id := id }, value := value }

/-- Two services whose ids lead out of the directory of the documents, to one place. -/
def strayBlocks : List Block := [titleOf "../b" "First", titleOf ".././b" "Second"]

/-- Their interim state in a storage that has been published before. -/
def strayServices : FileSystem :=
  oneService.put ["store", "current", "a.json"] (.file (Utf8.encode (Interim.write strayBlocks)))

theorem stat_strayServices : strayServices.stat "/store" = .ok (["store"], .directory) := rfl

theorem merged?_strayServices : merged? strayServices "/store" ["store"] = some strayBlocks := by
  have hinterims : interims strayServices "/store" ["store"] = [["current", "a.json"]] := by
    decide +kernel
  have htext : textAt strayServices ["store", "current", "a.json"] = Interim.write strayBlocks := by
    exact (textAt_of_file rfl).trans (Utf8.decode_encode _)
  have hread : Interim.read? (Interim.write strayBlocks) = some strayBlocks := by
    apply Interim.read?_write
    decide
  have hsorted : Block.sorted strayBlocks = strayBlocks := by
    apply sorted_of_sortedByLevel
    decide
  unfold merged? blocksOf?
  rw [hinterims]
  simp [htext, hread, hsorted]

/-- A run over this storage writes one document over the other, and next to the directory of the
documents. -/
theorem not_oneFileEach_stray : ∃ fs',
    runGlobal "yaml" false "/tmp/one" (.directory "/store") (.directory "/store") strayServices
      = (.ok (), fs')
    ∧ fs'.locate "/store/asyncapi/../b.yml" = fs'.locate "/store/asyncapi/.././b.yml"
    ∧ fs'.get? ["store", "b.yml"] ≠ strayServices.get? ["store", "b.yml"]
    ∧ ¬ OneFileEach strayServices fs' "/store" (documentsOf .yaml strayBlocks) := by
  obtain ⟨⟨k₁, t₁⟩, ⟨k₂, t₂⟩, hrendered⟩ : ∃ x y, documentsOf .yaml strayBlocks = [x, y] := by
    apply List.length_eq_two.mp
    rw [← List.length_map (f := Prod.fst)]
    decide +kernel
  have hkeys : (documentsOf .yaml strayBlocks).map Prod.fst
      = ["asyncapi/../b.yml", "asyncapi/.././b.yml"] := by
    decide +kernel
  rw [hrendered] at hkeys
  obtain ⟨rfl, hrest⟩ := List.cons.inj hkeys
  obtain rfl := (List.cons.inj hrest).1
  have hfirst : strayServices.Site (join "/store" "asyncapi/../b.yml") ["store"] "b.yml" := by
    decide +kernel
  have hsecond : strayServices.Site (join "/store" "asyncapi/.././b.yml") ["store"] "b.yml" := by
    decide +kernel
  have hlocated : Located strayServices "/store" (published .yaml false strayBlocks)
      [(["store", "b.yml"], Utf8.encode t₁), (["store", "b.yml"], Utf8.encode t₂)] := by
    show Located strayServices "/store" (documentsOf .yaml strayBlocks) _
    rw [hrendered]
    exact .cons ⟨_, _, hfirst, rfl⟩ (.cons ⟨_, _, hsecond, rfl⟩ .nil)
  have hprivate : strayServices.Site "/tmp/one" ["tmp"] "one" := by decide +kernel
  have hyaml : Format.ofName "yaml" = .ok .yaml := rfl
  obtain ⟨fs', hrun, hhere, hview⟩ := runGlobal_succeeds hyaml
    (by decide +kernel : strayServices.WellFormed) stat_strayServices (by decide +kernel)
    (by decide) (hprivate.makeDirectory_eq (by decide)) (by decide +kernel) merged?_strayServices
    hlocated (by
      intro l hl
      have hplace : l.1 = ["store", "b.yml"] := by
        simp only [List.mem_cons, List.not_mem_nil, or_false] at hl
        rcases hl with rfl | rfl
        · rfl
        · rfl
      rw [hplace]
      decide +kernel)
  have hstray : fs'.get? ["store", "b.yml"] = some (.file (Utf8.encode t₂)) := by
    rw [hview]
    rfl
  have hmissing : strayServices.get? ["store", "b.yml"] = none := by decide +kernel
  have hkeeps : KeepsDirectories strayServices fs' := by
    refine ⟨hhere, ?_⟩
    intro p hp
    have hne : p ≠ ["store", "b.yml"] := by
      rintro rfl
      rw [hmissing] at hp
      cases hp
    rw [hview]
    simp [written, hne, hp]
  refine ⟨fs', hrun, ?_, ?_, ?_⟩
  · exact (hfirst.mono hkeeps).locate.trans (hsecond.mono hkeeps).locate.symm
  · rw [hstray, hmissing]
    simp
  · intro h
    rcases h.confined (q := ["store", "b.yml"]) (by rw [hstray, hmissing]; simp) with
      hbelow | ⟨-, -, hdirectory⟩
    · exact absurd hbelow (by decide +kernel)
    · rw [hstray] at hdirectory
      cases hdirectory

end CommandLine

end EventDocs
