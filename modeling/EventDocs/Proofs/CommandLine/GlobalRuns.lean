import EventDocs.Proofs.CommandLine.Publishing
import EventDocs.Proofs.Storage.Shelter

/-
A whole run over all repositories.

A run makes its private directory, copies and merges, renders, stores, and takes the private
directory away again (`runGlobal_ok_iff`). The private directory is new and has a name of its own, so a
path that does not say this name leads to the same place before, during and after the run. What
a run does to files comes to this (`files_of_run`): the documents are written, and all other
files are what they were.
-/

namespace EventDocs.CommandLine

open EventDocs.Path FileSystem Listing Storage EventDocs.Action

variable {fs fs₁ fs₂ fs₃ fs' : FileSystem} {root into input output path n : String}
  {s d p : Place} {blocks : List Block} {format : Format} {dryRun : Bool}

-- ============================================================ statement vocabulary

/-- The documents of some blocks, one for each service: the key of each and its text. -/
def documentsOf (format : Format) (blocks : List Block) : List (String × String) :=
  (assemble (ContextTree.build blocks)).map fun d =>
    ("asyncapi/" ++ d.serviceId ++ "." ++ format.extension, format.render d.document)

/-- The documents that a run stores: none if it was asked to store nothing, or else all. -/
def published (format : Format) (dryRun : Bool) (blocks : List Block) : List (String × String) :=
  if dryRun then [] else documentsOf format blocks

-- ============================================================ the stages of a run

/-- Every document can be rendered. -/
theorem renderAll_eq (format : Format) (blocks : List Block) :
    renderAll format blocks = .ok (documentsOf format blocks) := by
  unfold renderAll documentsOf
  rw [mapM_ok_iff, List.forall₂_map_right_iff, List.forall₂_same]
  intro d _
  rfl

theorem mergeAndStore_of_ok (h : downloadAndMerge (.directory input) into fs = (.ok blocks, fs₁)) :
    mergeAndStore format dryRun into (.directory input) (.directory output) fs
      = storeAll (.directory output) ⟨output⟩ (published format dryRun blocks) fs₁ := by
  have hrender : (Action.ask fun _ => renderAll format blocks) fs₁
      = (.ok (documentsOf format blocks), fs₁) := by
    rw [ask_eq, renderAll_eq]
  refine (bind_ok h).trans ((bind_ok hrender).trans ?_)
  cases dryRun with
  | true => rfl
  | false => exact bind_ok (ask_storage output fs₁)

theorem mergeAndStore_ok_iff :
    mergeAndStore format dryRun into (.directory input) (.directory output) fs = (.ok (), fs') ↔
      ∃ blocks fs₁, downloadAndMerge (.directory input) into fs = (.ok blocks, fs₁)
        ∧ storeAll (.directory output) ⟨output⟩ (published format dryRun blocks) fs₁
          = (.ok (), fs') := by
  constructor
  · intro h
    obtain ⟨blocks, fs₁, hdownload, -⟩ := of_bind_ok h
    exact ⟨blocks, fs₁, hdownload, (mergeAndStore_of_ok hdownload).symm.trans h⟩
  · intro hsome
    obtain ⟨blocks, fs₁, hdownload, hrest⟩ := hsome
    exact (mergeAndStore_of_ok hdownload).trans hrest

theorem withDirectory_ok_iff {a : Action Failure Unit} : withDirectory path a fs = (.ok (), fs') ↔
    ∃ fs₁ fs₂, fs.makeDirectory path = .ok fs₁ ∧ a fs₁ = (.ok (), fs₂)
      ∧ fs' = removeDirectory path fs₂ := by
  unfold withDirectory
  cases hmake : fs.makeDirectory path with
  | error e =>
      constructor
      · intro h
        simp only at h
        cases h
      · intro hsome
        obtain ⟨fs₁, fs₂, hmade, -⟩ := hsome
        cases hmade
  | ok fs₁ =>
      simp only
      cases hwork : a fs₁ with
      | mk result fs₂ =>
          constructor
          · intro h
            cases h
            exact ⟨fs₁, fs₂, rfl, hwork, rfl⟩
          · intro hsome
            obtain ⟨fs₁', fs₂', hmade, hwork', rfl⟩ := hsome
            cases hmade
            rw [hwork] at hwork'
            cases hwork'
            rfl

theorem runGlobal_ok_iff {name : String} : runGlobal name dryRun into (.directory input)
    (.directory output) fs = (.ok (), fs') ↔
      ∃ format fs₁ blocks fs₂ fs₃, Format.ofName name = .ok format
        ∧ fs.makeDirectory into = .ok fs₁
        ∧ downloadAndMerge (.directory input) into fs₁ = (.ok blocks, fs₂)
        ∧ storeAll (.directory output) ⟨output⟩ (published format dryRun blocks) fs₂
          = (.ok (), fs₃)
        ∧ fs' = removeDirectory into fs₃ := by
  unfold runGlobal
  cases hformat : Format.ofName name with
  | error e =>
      constructor
      · intro h
        cases h
      · intro hsome
        obtain ⟨format, fs₁, blocks, fs₂, fs₃, hname, -⟩ := hsome
        cases hname
  | ok format =>
      constructor
      · intro h
        obtain ⟨fs₁, fs₃, hmade, hwork, hremove⟩ := withDirectory_ok_iff.mp h
        obtain ⟨blocks, fs₂, hdownload, hstore⟩ := mergeAndStore_ok_iff.mp hwork
        exact ⟨format, fs₁, blocks, fs₂, fs₃, rfl, hmade, hdownload, hstore, hremove⟩
      · intro hsome
        obtain ⟨format', fs₁, blocks, fs₂, fs₃, hname, hmade, hdownload, hstore, hremove⟩ := hsome
        cases hname
        exact withDirectory_ok_iff.mpr ⟨fs₁, fs₃, hmade,
          mergeAndStore_ok_iff.mpr ⟨blocks, fs₂, hdownload, hstore⟩, hremove⟩

/-- A run that has merged goes on to store, and takes its directory away however that ends. -/
theorem runGlobal_of_ok {name : String} (hname : Format.ofName name = .ok format)
    (hmade : fs.makeDirectory into = .ok fs₁)
    (h : downloadAndMerge (.directory input) into fs₁ = (.ok blocks, fs₂)) :
    runGlobal name dryRun into (.directory input) (.directory output) fs
      = let stored := storeAll (.directory output) ⟨output⟩ (published format dryRun blocks) fs₂
        (stored.1, removeDirectory into stored.2) := by
  unfold runGlobal
  rw [hname]
  show withDirectory into (mergeAndStore format dryRun into (.directory input) (.directory output)) fs
    = _
  unfold withDirectory
  rw [hmade]
  simp only [mergeAndStore_of_ok h]
  rfl

-- ============================================================ the private directory

/-- A directory was made where there was nothing. -/
structure Fresh (fs fs' : FileSystem) (path : String) (d : Place) (n : String) : Prop where
  ends : ∃ p, d = p ++ [n]
  name : fileName? path = some n
  missing : fs.get? d = none
  there : fs'.stat path = .ok (d, .directory)
  grows : fs.Grows fs'
  same : ∀ {q : Place}, q ≠ d → fs'.get? q = fs.get? q

theorem exists_fresh (h : fs.makeDirectory path = .ok fs') : ∃ d n, Fresh fs fs' path d n := by
  obtain ⟨p, n, -, -, hfree, hput, hstat, hname⟩ := makeDirectory_ok h
  refine ⟨p ++ [n], n, ⟨p, rfl⟩, hname, hfree, hstat, grows_of_makeDirectory h, ?_⟩
  intro q hq
  rw [hput, get?_put fs (by simp), if_neg hq]

namespace Fresh

theorem ne_nil (h : Fresh fs fs' path d n) : d ≠ [] := by
  obtain ⟨p, rfl⟩ := h.ends
  simp

/-- What was there is not below the new directory. -/
theorem not_below (h : Fresh fs fs' path d n) (hfs : fs.WellFormed) {e : Entry}
    (hget : fs.get? p = some e) : ¬ d <+: p := by
  intro hsome
  obtain ⟨q, rfl⟩ := hsome
  by_cases hq : q = []
  · rw [hq, List.append_nil, h.missing] at hget
    cases hget
  · have hmissing := h.missing
    rw [hfs.directory_above hget hq] at hmissing
    cases hmissing

theorem empty (h : Fresh fs fs' path d n) (hfs : fs.WellFormed) {q : Place} (hq : q ≠ []) :
    fs'.get? (d ++ q) = none := by
  rw [h.same (by simpa using hq)]
  exact hfs.get?_below (by rw [h.missing]; simp) hq

theorem stat (h : Fresh fs fs' path d n) (hstat : fs.stat root = .ok (s, .directory)) :
    fs'.stat root = .ok (s, .directory) :=
  h.grows.keepsDirectories.stat hstat

/-- A storage can be copied into the new directory. -/
theorem ready (h : Fresh fs fs' into d n) (hfs : fs.WellFormed)
    (hsource : fs'.stat root = .ok (s, .directory)) (hwithin : ∀ t ∈ inner root, t ≠ ['.', '.']) :
    Ready fs' root into s d :=
  ⟨h.grows.wellFormed hfs, hsource, hwithin, h.there, fun _ hq => h.empty hfs hq⟩

end Fresh

/-- A directory was taken away with all that was in it. -/
structure Removed (fs fs' : FileSystem) (d : Place) : Prop where
  here : fs'.here = fs.here
  view : ∀ p, fs'.get? p = if d <+: p then none else fs.get? p

theorem removed_of_stat {e : Entry} (hstat : fs.stat path = .ok (d, e)) (hd : d ≠ []) :
    Removed fs (removeDirectory path fs) d := by
  have hroot : d.isPrefixOf [] = false := by
    cases d with
    | nil => exact absurd rfl hd
    | cons n d => rfl
  unfold removeDirectory
  simp only [hstat]
  refine ⟨rfl, ?_⟩
  intro p
  rw [get?_removeWhere fs (d.isPrefixOf ·) hroot]
  simp only [List.isPrefixOf_iff_prefix]

/-- Taking a new directory away gives back what was there. -/
theorem Fresh.removed (h : Fresh fs fs' path d n) (hfs : fs.WellFormed) : Removed fs' fs d := by
  refine ⟨h.grows.here.symm, ?_⟩
  intro p
  by_cases hp : d <+: p
  · rw [if_pos hp]
    cases hget : fs.get? p with
    | none => rfl
    | some e => exact absurd hp (h.not_below hfs hget)
  · rw [if_neg hp, h.same]
    intro heq
    subst heq
    exact hp (List.prefix_refl _)

namespace Removed

theorem keep (h : Removed fs fs' d) {e : Entry} (hp : ¬ d <+: p) (hget : fs.get? p = some e) :
    fs'.get? p = some e := by
  rw [h.view, if_neg hp, hget]

theorem wellFormed (h : Removed fs fs' d) (hfs : fs.WellFormed) (hhere : ¬ d <+: fs.here) :
    fs'.WellFormed := by
  refine ⟨?_, ?_, ?_⟩
  · intro p e hp
    rw [h.view] at hp
    by_cases hd : d <+: p
    · rw [if_pos hd] at hp
      cases hp
    · rw [if_neg hd] at hp
      exact hfs.proper hp
  · intro p n e hp
    rw [h.view] at hp
    by_cases hd : d <+: p ++ [n]
    · rw [if_pos hd] at hp
      cases hp
    · rw [if_neg hd] at hp
      exact h.keep (fun hdp => hd (hdp.trans (List.prefix_append p [n]))) (hfs.closed hp)
  · rw [h.here]
    exact h.keep hhere hfs.here

theorem walk {S : List (List Char)} (h : Removed fs fs' (d ++ [n])) (hhere : ¬ d ++ [n] <+: fs.here)
    (hn : n.toList ∉ S) (hfollow : fs.follow (fs.origin path) S = .ok p) :
    fs'.follow (fs'.origin path) S = .ok p ∧ ¬ d ++ [n] <+: p := by
  have horigin : fs'.origin path = fs.origin path := by
    unfold origin
    rw [h.here]
  have hstart : ¬ d ++ [n] <+: fs.origin path := by
    unfold origin
    split
    · intro hd
      have hlength := hd.length_le
      simp at hlength
    · exact hhere
  rw [horigin]
  exact follow_avoiding (fun q hq hget => h.keep hq hget) hn hstart hfollow

/-- A path that does not say the name of what was taken away still leads where it did. -/
theorem locate (h : Removed fs fs' (d ++ [n])) (hhere : ¬ d ++ [n] <+: fs.here)
    (hn : n.toList ∉ segments path) (hlocate : fs.locate path = .ok p) :
    fs'.locate path = .ok p ∧ ¬ d ++ [n] <+: p := by
  obtain ⟨hcheck, hfollow⟩ := locate_ok_iff.mp hlocate
  obtain ⟨hwalk, hp⟩ := h.walk hhere hn hfollow
  exact ⟨locate_ok_iff.mpr ⟨hcheck, hwalk⟩, hp⟩

theorem site {m : String} (h : Removed fs fs' (d ++ [n])) (hhere : ¬ d ++ [n] <+: fs.here)
    (hn : n.toList ∉ segments path) (hsite : fs.Site path p m) :
    fs'.Site path p m ∧ ¬ d ++ [n] <+: p ++ [m] := by
  obtain ⟨S, hsegments, hfollow⟩ := hsite.walk
  obtain ⟨hwalk, hp⟩ := h.walk hhere (fun hS => hn (hsegments ▸ List.mem_append_left _ hS)) hfollow
  refine ⟨⟨hsite.check, hsite.name, ⟨S, hsegments, hwalk⟩, h.keep hp hsite.directory⟩, ?_⟩
  intro hd
  rcases List.prefix_concat_iff.mp hd with heq | hbelow
  · obtain ⟨-, hlast⟩ := List.append_inj' heq rfl
    rw [(List.cons.inj hlast).1] at hn
    exact hn (hsegments ▸ List.mem_append_right S List.mem_cons_self)
  · exact hp hbelow

end Removed

-- ============================================================ what a run does to files

theorem stat_of_downloadAndMerge
    (h : downloadAndMerge (.directory root) into fs = (.ok blocks, fs')) :
    ∃ s, fs.stat root = .ok (s, .directory) := by
  rw [downloadAndMerge_eq] at h
  obtain ⟨u, fs₁, hfetch, -⟩ := of_bind_ok h
  obtain ⟨files, fs₂, hask, -⟩ := of_bind_ok (during_ok.mp hfetch)
  have hlist := congrArg Prod.fst (during_ok.mp hask)
  rw [ask_eq] at hlist
  unfold FileSystem.list at hlist
  cases hsome : fs.list? root with
  | none =>
      rw [hsome] at hlist
      cases hlist
  | some files => exact stat_of_list? hsome

/-- A path that does not say the name of the new directory led to the same before. -/
theorem Fresh.stat_before (h : Fresh fs fs' into d n) (hfs : fs.WellFormed)
    (hname : n.toList ∉ segments root) (hstat : fs'.stat root = .ok (s, .directory)) :
    fs.stat root = .ok (s, .directory) := by
  obtain ⟨hlocate, hs⟩ := stat_ok_iff.mp hstat
  have hremoved := h.removed hfs
  have hhere : ¬ d <+: fs'.here := by
    rw [h.grows.here]
    exact h.not_below hfs hfs.here
  obtain ⟨p, rfl⟩ := h.ends
  obtain ⟨hlocate', hbelow⟩ := hremoved.locate hhere hname hlocate
  exact stat_ok_iff.mpr ⟨hlocate', hremoved.keep hbelow hs⟩

/-- Copying and merging, however they end, touch nothing outside of the private directory. -/
theorem downloadAndMerge_sheltered {result : Except Failure (List Block)} (hfs : fs.WellFormed)
    (hinto : fs.stat into = .ok (d, .directory)) (hroot : StaysBelow (inner root))
    (h : downloadAndMerge (.directory root) into fs = (result, fs')) : Sheltered fs fs' d := by
  rw [downloadAndMerge_eq] at h
  cases hfetch : ((Storage.mk root).fetch into).during (.fetching (Location.directory root).text) fs
    with
  | mk fetched fs₁ =>
      obtain ⟨made, hmade⟩ := of_mapError hfetch
      have hsheltered := fetch_sheltered hfs hinto hroot hmade
      cases fetched with
      | error e =>
          rw [bind_error hfetch] at h
          cases h
          exact hsheltered
      | ok u =>
          rw [bind_ok hfetch, ask_eq] at h
          cases h
          exact hsheltered

/-- The documents are written, and all other files are what they were. -/
theorem files_of_run {documents : List (String × String)} (hfs : fs.WellFormed)
    (hinput : StaysBelow (inner input)) (hmade : fs.makeDirectory into = .ok fs₁)
    (hdownload : downloadAndMerge (.directory input) into fs₁ = (.ok blocks, fs₂))
    (hstore : storeAll (.directory output) ⟨output⟩ documents fs₂ = (.ok (), fs₃))
    (hname : ∀ n, fileName? into = some n → ∀ d ∈ documents, n.toList ∉ segments (join output d.1)) :
    ∃ located, Published fs (removeDirectory into fs₃) output documents located := by
  obtain ⟨d, n, hfresh⟩ := exists_fresh hmade
  have hfs₁ := hfresh.grows.wellFormed hfs
  have hsheltered := downloadAndMerge_sheltered hfs₁ hfresh.there hinput hdownload
  obtain ⟨located, hsites, hkeeps, hwf, hcontent⟩ := storeAll_ok hstore
  have hkeeps₃ := hsheltered.keeps.trans hkeeps
  have hremoved := removed_of_stat (hkeeps₃.stat hfresh.there) hfresh.ne_nil
  have hhere : ¬ d <+: fs₃.here := by
    rw [hkeeps₃.here, hfresh.grows.here]
    exact hfresh.not_below hfs hfs.here
  have hsite : ∀ x ∈ documents, ∀ {p m}, fs₃.Site (join output x.1) p m →
      (removeDirectory into fs₃).Site (join output x.1) p m ∧ ¬ d <+: p ++ [m] := by
    obtain ⟨q, rfl⟩ := hfresh.ends
    intro x hx p m hsite
    exact hremoved.site hhere (hname n hfresh.name x hx) hsite
  refine ⟨located, hsites.imp fun x hx _ _ h => (hsite x hx h).1, ?_, ?_, ?_⟩
  · refine ⟨?_, ?_⟩
    · rw [hremoved.here, hkeeps₃.here, hfresh.grows.here]
    · intro p hp
      exact hremoved.keep (hfresh.not_below hfs hp) (hkeeps₃.keeps p (hfresh.grows.keeps hp))
  · intro _
    exact hremoved.wellFormed (hwf (hsheltered.wellFormed hfs₁)) hhere
  · intro p
    by_cases hp : d <+: p
    · -- nothing was, and nothing was written, where the private directory has been
      have hwritten : written located p = none := by
        cases hw : written located p with
        | none => rfl
        | some c =>
            obtain ⟨x, hx, q, m, hq, hl⟩ := hsites.exists_document (mem_of_written hw)
            obtain ⟨rfl, -⟩ := Prod.mk.inj hl
            exact absurd hp (hsite x hx hq).2
      have hbefore : contentAt? fs p = none := by
        cases hc : contentAt? fs p with
        | none => rfl
        | some c => exact absurd hp (hfresh.not_below hfs (contentAt?_eq_some.mp hc))
      rw [hwritten, hbefore, contentAt?, hremoved.view, if_pos hp]
      rfl
    · have hbefore : contentAt? fs₂ p = contentAt? fs p := by
        apply contentAt?_of_files
        intro c
        rw [hsheltered.outside hp, hfresh.grows.file_iff]
      rw [← hbefore, ← hcontent, contentAt?, contentAt?, hremoved.view, if_neg hp]

end EventDocs.CommandLine
