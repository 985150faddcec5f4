import EventDocs.Proofs.CommandLine.Merging

/-
Storing documents in turn.

Each document goes to where its path leads, and the last one that goes somewhere stays
(`written`). All other files are what they were (`storeAll_ok`). A second time, with everything
that the documents need in place, nothing but their files is touched (`storeAll_again`).
-/

namespace EventDocs.CommandLine

open EventDocs.Path FileSystem Storage EventDocs.Action

variable {fs fs' : FileSystem} {root : String} {output : Location} {p : Place}
  {documents : List (String × String)} {located : List (Place × Bytes)}

-- ============================================================ what is written

/-- What is at a place when some contents have been written in turn: the last that was written
there. -/
def written : List (Place × Bytes) → Place → Option Bytes
  | [], _ => none
  | l :: rest, p => (written rest p).or (if p = l.1 then some l.2 else none)

theorem mem_of_written {c : Bytes} (h : written located p = some c) : (p, c) ∈ located := by
  induction located with
  | nil => cases h
  | cons l rest ih =>
      rw [written, Option.or_eq_some_iff] at h
      rcases h with h | ⟨-, h⟩
      · exact List.mem_cons_of_mem l (ih h)
      · by_cases hp : p = l.1
        · rw [if_pos hp] at h
          rw [hp, ← Option.some.inj h]
          exact List.mem_cons_self
        · rw [if_neg hp] at h
          cases h

theorem exists_written {l : Place × Bytes} (h : l ∈ located) :
    ∃ c, written located l.1 = some c := by
  induction located with
  | nil => cases h
  | cons l' rest ih =>
      rw [written]
      rcases List.mem_cons.mp h with rfl | h
      · cases written rest l.1 with
        | none => exact ⟨l.2, by simp⟩
        | some c => exact ⟨c, rfl⟩
      · obtain ⟨c, hc⟩ := ih h
        exact ⟨c, by rw [hc]; rfl⟩

/-- Where documents go: the path of each leads to a name in a directory. -/
def Located (fs : FileSystem) (root : String) (documents : List (String × String))
    (located : List (Place × Bytes)) : Prop :=
  List.Forall₂ (fun d l => ∃ p n, fs.Site (join root d.1) p n
    ∧ l = (p ++ [n], Utf8.encode d.2)) documents located

theorem Located.imp (h : Located fs root documents located)
    (hsites : ∀ d ∈ documents, ∀ {p n}, fs.Site (join root d.1) p n → fs'.Site (join root d.1) p n) :
    Located fs' root documents located := by
  induction h with
  | nil => exact .nil
  | cons hd hrest ih =>
      obtain ⟨p, n, hsite, hl⟩ := hd
      refine .cons ⟨p, n, hsites _ List.mem_cons_self hsite, hl⟩ ?_
      exact ih fun d hd => hsites d (List.mem_cons_of_mem _ hd)

theorem Located.mono (h : Located fs root documents located) (hkeeps : KeepsDirectories fs fs') :
    Located fs' root documents located :=
  h.imp fun _ _ _ _ hsite => hsite.mono hkeeps

/-- Every place is that of a document. -/
theorem Located.exists_document (h : Located fs root documents located) {l : Place × Bytes}
    (hl : l ∈ located) : ∃ d ∈ documents, ∃ p n, fs.Site (join root d.1) p n
      ∧ l = (p ++ [n], Utf8.encode d.2) := by
  induction h with
  | nil => cases hl
  | cons hd hrest ih =>
      rcases List.mem_cons.mp hl with rfl | hl
      · exact ⟨_, List.mem_cons_self, hd⟩
      · obtain ⟨d, hmem, hsite⟩ := ih hl
        exact ⟨d, List.mem_cons_of_mem _ hmem, hsite⟩

theorem Located.exists_place (h : Located fs root documents located) {d : String × String}
    (hd : d ∈ documents) : ∃ p n, fs.Site (join root d.1) p n
      ∧ (p ++ [n], Utf8.encode d.2) ∈ located := by
  induction h with
  | nil => cases hd
  | cons hfirst hrest ih =>
      rcases List.mem_cons.mp hd with rfl | hd
      · obtain ⟨p, n, hsite, rfl⟩ := hfirst
        exact ⟨p, n, hsite, List.mem_cons_self⟩
      · obtain ⟨p, n, hsite, hmem⟩ := ih hd
        exact ⟨p, n, hsite, List.mem_cons_of_mem _ hmem⟩

-- ============================================================ storing

theorem store_ok {key body : String} (h : store output ⟨root⟩ key body fs = (.ok (), fs')) :
    ∃ fs₁ p n, fs.Grows fs₁ ∧ fs₁.Site (join root key) p n
      ∧ fs₁.get? (p ++ [n]) ≠ some .directory
      ∧ fs' = fs₁.put (p ++ [n]) (.file (Utf8.encode body)) :=
  upload_ok (during_ok.mp h)

/-- What storing documents does to the files. -/
structure Published (fs fs' : FileSystem) (root : String) (documents : List (String × String))
    (located : List (Place × Bytes)) : Prop where
  sites : Located fs' root documents located
  keeps : KeepsDirectories fs fs'
  wellFormed : fs.WellFormed → fs'.WellFormed
  content : ∀ p, contentAt? fs' p = (written located p).or (contentAt? fs p)

theorem Published.content_of_written (h : Published fs fs' root documents located) {c : Bytes}
    (hwritten : written located p = some c) : contentAt? fs' p = some c := by
  rw [h.content, hwritten, Option.some_or]

theorem storeAll_ok (h : storeAll output ⟨root⟩ documents fs = (.ok (), fs')) :
    ∃ located, Published fs fs' root documents located := by
  induction documents generalizing fs with
  | nil =>
      cases h
      exact ⟨[], .nil, KeepsDirectories.refl _, id, fun p => rfl⟩
  | cons d documents ih =>
      obtain ⟨fs₂, hfirst, hrest⟩ := forM_cons_ok.mp h
      obtain ⟨fs₁, p, n, hgrows, hsite, hfree, hput⟩ := store_ok hfirst
      obtain ⟨located, hlocated, hkeeps, hwf, hcontent⟩ := ih hrest
      have hkeeps₂ : KeepsDirectories fs₁ fs₂ := hput ▸ keepsDirectories_put hfree _
      have hview := get?_put fs₁ (p := p ++ [n]) (by simp) (.file (Utf8.encode d.2))
      rw [← hput] at hview
      refine ⟨(p ++ [n], Utf8.encode d.2) :: located, .cons ?_ hlocated, ?_, ?_, ?_⟩
      · exact ⟨p, n, (hsite.mono hkeeps₂).mono hkeeps, rfl⟩
      · exact (hgrows.keepsDirectories.trans hkeeps₂).trans hkeeps
      · intro hfs
        apply hwf
        rw [hput]
        exact (hgrows.wellFormed hfs).put hsite.directory hsite.name fun hd => absurd hd hfree
      · intro q
        rw [hcontent q, written, Option.or_assoc]
        congr 1
        by_cases hq : q = p ++ [n]
        · rw [if_pos hq, contentAt?, hview, if_pos hq]
          rfl
        · rw [if_neg hq, Option.none_or]
          apply contentAt?_of_files
          intro c
          rw [hview, if_neg hq, hgrows.file_iff]

/-- A second time only the files are touched. -/
theorem storeAll_again (output : Location) (h : Located fs root documents located)
    (hfree : ∀ l ∈ located, fs.get? l.1 ≠ some .directory) :
    ∃ fs', storeAll output ⟨root⟩ documents fs = (.ok (), fs')
      ∧ KeepsDirectories fs fs'
      ∧ ∀ p, fs'.get? p = ((written located p).map .file).or (fs.get? p) := by
  induction documents generalizing fs located with
  | nil =>
      cases h
      exact ⟨fs, rfl, KeepsDirectories.refl fs, fun p => rfl⟩
  | cons d documents ih =>
      cases h with
      | @cons _ l _ located hd hrest =>
          obtain ⟨p, n, hsite, rfl⟩ := hd
          have hfirst := hfree _ List.mem_cons_self
          have hupload := upload_of_site (Utf8.encode d.2) hsite hfirst
          have hkeeps := keepsDirectories_put hfirst (.file (Utf8.encode d.2))
          have hview := get?_put fs (p := p ++ [n]) (by simp) (.file (Utf8.encode d.2))
          obtain ⟨fs', hrun, hkeeps', hview'⟩ := ih (Located.mono hrest hkeeps) (by
            intro l hl
            rw [hview]
            by_cases heq : l.1 = p ++ [n]
            · rw [if_pos heq]
              simp
            · rw [if_neg heq]
              exact hfree l (List.mem_cons_of_mem _ hl))
          refine ⟨fs', forM_cons_ok.mpr ⟨_, during_ok.mpr hupload, hrun⟩, hkeeps.trans hkeeps', ?_⟩
          intro q
          rw [hview', hview, written]
          by_cases hq : q = p ++ [n]
          · cases written located q with
            | none => simp [hq]
            | some c => simp
          · cases written located q with
            | none => simp [hq]
            | some c => simp

end EventDocs.CommandLine
