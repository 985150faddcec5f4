import EventDocs.Proofs.Analysis.Parts
import EventDocs.Proofs.CommandLine.Publishing
import EventDocs.Proofs.Text.Utf8

/-
A run over one repository.

A repository is known by its place: whatever path leads there, it is searched under the path of
the place, and its analysis depends on nothing but the files below (`Analyzed.mono`). So it does
not matter what else was made or written in the meantime.
-/

namespace EventDocs.CommandLine

open EventDocs.Path FileSystem Listing Storage EventDocs.Action

variable {fs fs' : FileSystem} {s : SingleSettings} {env : Environment} {p : Place}
  {name input output : String} {blocks : List Block}

-- ============================================================ places and their paths

theorem isAbsolute_pathOf (p : Place) : isAbsolute (pathOf p) = true := by
  simp [pathOf, isAbsolute]

theorem segments_pathOf (hne : p ≠ []) (hnames : ∀ n ∈ p, IsName n) :
    segments (pathOf p) = [] :: p.map String.toList := by
  have hslash := segments_slash "" ("/".intercalate p)
  rw [String.empty_append, segments_intercalate (fun n hn => (hnames n hn).2) hne] at hslash
  exact hslash

theorem namesOf_pathOf (hnames : ∀ n ∈ p, IsName n) : namesOf (segments (pathOf p)) = p := by
  by_cases hne : p = []
  · subst hne
    rfl
  · rw [segments_pathOf hne hnames]
    exact namesOf_names hnames

/-- The path of a place leads nowhere else. -/
theorem eq_of_follow_pathOf (hnames : ∀ n ∈ p, IsName n) {q : Place}
    (h : fs.follow (fs.origin (pathOf p)) (segments (pathOf p)) = .ok q) : q = p := by
  have hup : ∀ t ∈ segments (pathOf p), t ≠ ['.', '.'] := by
    intro t ht
    by_cases hne : p = []
    · subst hne
      revert t
      decide
    · rw [segments_pathOf hne hnames] at ht
      rcases List.mem_cons.mp ht with rfl | ht
      · simp
      · obtain ⟨n, hn, rfl⟩ := List.mem_map.mp ht
        exact (isName_iff.mp (hnames n hn).1).2
  have horigin : fs.origin (pathOf p) = [] := if_pos (isAbsolute_pathOf p)
  rw [horigin] at h
  rw [eq_of_follow hup h, namesOf_pathOf hnames, List.nil_append]

/-- The path of a place leads to the place. -/
theorem follow_pathOf (hfs : fs.WellFormed) {e : Entry} (hget : fs.get? p = some e) :
    fs.follow (fs.origin (pathOf p)) (segments (pathOf p)) = .ok p := by
  have horigin : fs.origin (pathOf p) = [] := if_pos (isAbsolute_pathOf p)
  rw [horigin]
  by_cases hne : p = []
  · subst hne
    rfl
  · rw [segments_pathOf hne fun n hn => (hfs.proper hget n hn).isName]
    exact follow_cons_ok.mpr ⟨[], enter_idle (get?_nil fs) rfl, follow_names hfs hget⟩

-- ============================================================ the analysis of a repository

/-- The files that are analysed. -/
def inputsAt (fs : FileSystem) (path : String) (p : Place) : List Input :=
  (shown fs path p).map fun names =>
    ⟨(listed (found path names)).name, found path names, textAt fs (p ++ names)⟩

/-- The analysis of the repository at a place gives some blocks, under a name. -/
structure Analyzed (s : SingleSettings) (env : Environment) (fs : FileSystem) (p : Place)
    (name : String) (blocks : List Block) : Prop where
  stat : fs.stat (pathOf p) = .ok (p, .directory)
  named : fileName? (pathOf p) = some name
  analysis : analyzeConcurrently s.concurrency (s.repository name) env.named
    (inputsAt fs (pathOf p) p) = .ok blocks

/-- The analysis of a repository is that of the place which its path leads to. -/
theorem analyzeRepository_ok (hfs : fs.WellFormed)
    (h : analyzeRepository s env (.directory input) fs = .ok (name, blocks)) :
    ∃ p, fs.resolve input = .ok p ∧ Analyzed s env fs p name blocks := by
  unfold analyzeRepository searchDirectory Location.localPath at h
  cases hresolve : fs.resolve input with
  | error e => simp [hresolve, bind, Except.bind] at h
  | ok p =>
      obtain ⟨-, e, hget⟩ := resolve_ok hresolve
      simp only [hresolve, bind, Except.bind, pure, Except.pure] at h
      cases hname : fileName? (pathOf p) with
      | none => simp [directoryName, hname] at h
      | some n =>
          simp only [directoryName, hname] at h
          cases hlist : fs.list? (pathOf p) with
          | none => simp [FileSystem.list, hlist] at h
          | some files =>
              obtain ⟨q, hstat⟩ := stat_of_list? hlist
              obtain ⟨-, hfollow⟩ := locate_ok_iff.mp (stat_ok_iff.mp hstat).1
              rw [follow_pathOf hfs hget] at hfollow
              obtain rfl := Except.ok.inj hfollow
              rw [list?_eq hfs hstat] at hlist
              obtain rfl := Option.some.inj hlist
              have hinputs := readInputs_shown hfs hstat (shown fs (pathOf p) p) fun _ => id
              simp only [FileSystem.list, list?_eq hfs hstat, hinputs] at h
              cases hrun : analyzeConcurrently s.concurrency (s.repository n) env.named
                  (inputsAt fs (pathOf p) p) with
              | error e =>
                  rw [inputsAt] at hrun
                  rw [hrun] at h
                  cases h
              | ok found =>
                  rw [inputsAt] at hrun
                  rw [hrun] at h
                  obtain ⟨rfl, rfl⟩ := Prod.mk.inj (Except.ok.inj h)
                  exact ⟨p, rfl, hstat, hname, hrun⟩

theorem inputsAt_congr {path : String}
    (hfiles : ∀ q c, fs'.get? (p ++ q) = some (.file c) ↔ fs.get? (p ++ q) = some (.file c)) :
    inputsAt fs' path p = inputsAt fs path p := by
  have hbelow : filesBelow fs' p = filesBelow fs p := by
    apply filesBelow_eq (pairwise_filesBelow fs p) (nodup_filesBelow fs p)
    intro names
    simp only [mem_filesBelow, hfiles]
  unfold inputsAt shown
  rw [hbelow]
  apply List.map_congr_left
  intro names hmem
  have htext : textAt fs' (p ++ names) = textAt fs (p ++ names) := by
    unfold textAt
    rw [contentAt?_of_files (hfiles names)]
  rw [htext]

/-- The analysis of a repository depends on nothing but the files below its place. -/
theorem Analyzed.mono (h : Analyzed s env fs p name blocks) (hfs' : fs'.WellFormed)
    (hp : fs'.get? p = some .directory)
    (hfiles : ∀ q c, fs'.get? (p ++ q) = some (.file c) ↔ fs.get? (p ++ q) = some (.file c)) :
    Analyzed s env fs' p name blocks := by
  obtain ⟨hlocate, -⟩ := stat_ok_iff.mp h.stat
  obtain ⟨hcheck, -⟩ := locate_ok_iff.mp hlocate
  refine ⟨stat_ok_iff.mpr ⟨locate_ok_iff.mpr ⟨hcheck, follow_pathOf hfs' hp⟩, hp⟩, h.named, ?_⟩
  rw [inputsAt_congr hfiles]
  exact h.analysis

theorem Analyzed.unique {name' : String} {blocks' : List Block}
    (h : Analyzed s env fs p name blocks) (h' : Analyzed s env fs p name' blocks') :
    name' = name ∧ blocks' = blocks := by
  have hname := h'.named
  rw [h.named] at hname
  obtain rfl := Option.some.inj hname
  have hblocks := h'.analysis
  rw [h.analysis] at hblocks
  exact ⟨rfl, (Except.ok.inj hblocks).symm⟩

/-- The places of blocks fit in 64 bits if the sizes of the files do. -/
theorem Analyzed.fits (h : Analyzed s env fs p name blocks)
    (hsizes : ∀ q c, fs.get? q = some (.file c) → c.length < UInt64.size) :
    ∀ b ∈ blocks, b.Fits := by
  intro b hb
  refine fits_of_analyzeConcurrently ?_ h.analysis hb
  intro i hi
  obtain ⟨names, hmem, rfl⟩ := List.mem_map.mp hi
  obtain ⟨⟨-, c, hget⟩, -⟩ := mem_shown.mp hmem
  show (textAt fs (p ++ names)).length < UInt64.size
  rw [textAt_of_file hget]
  exact Nat.lt_of_le_of_lt (Utf8.length_decode_le c) (hsizes _ c hget)

/-- A repository has the name of its directory. -/
theorem Analyzed.getLast? (h : Analyzed s env fs p name blocks) (hnames : ∀ n ∈ p, IsName n) :
    p.getLast? = some name := by
  have hname := h.named
  cases p using List.reverseRecOn with
  | nil =>
      have hroot : fileName? (pathOf []) = none := by decide
      rw [hroot] at hname
      cases hname
  | append_singleton q n =>
      have hlast : fileName? (pathOf (q ++ [n])) = some n := by
        refine fileName?_of_segments (S := [] :: q.map String.toList) (T := []) ?_
          (hnames n (by simp)) (by simp)
        rw [segments_pathOf (by simp) hnames]
        simp
      rw [hlast] at hname
      rw [List.getLast?_concat, hname]

theorem Analyzed.mem (h : Analyzed s env fs p name blocks) (hnames : ∀ n ∈ p, IsName n) :
    name ∈ p :=
  List.mem_of_getLast? (h.getLast? hnames)

-- ============================================================ where an interim state goes

/-- The names that lead from a storage to the interim state of a repository. -/
def interimPlace (name : String) : Place := ["current", name ++ ".json"]

theorem interimPlace_injective : Function.Injective interimPlace := by
  intro m n h
  exact (String.append_left_inj ".json").mp (List.cons.inj (List.cons.inj h).2).1

theorem isName_json (h : IsName name) : IsName (name ++ ".json") := by
  have htext : (name ++ ".json").toList = name.toList ++ ['.', 'j', 's', 'o', 'n'] := by
    rw [String.toList_append]
    rfl
  refine ⟨isName_of_length ?_, ?_⟩
  · rw [htext, List.length_append]
    show 3 ≤ name.toList.length + 5
    omega
  · rw [htext]
    intro hslash
    rcases List.mem_append.mp hslash with hslash | hslash
    · exact h.2 hslash
    · exact absurd hslash (by decide)

theorem isName_interimPlace (h : IsName name) : ∀ n ∈ interimPlace name, IsName n := by
  intro n hn
  rcases List.mem_cons.mp hn with rfl | hn
  · exact ⟨by decide, by decide⟩
  · obtain rfl := List.mem_singleton.mp hn
    exact isName_json h

theorem segments_interimPlace (h : IsName name) :
    segments ("current/" ++ name ++ ".json") = (interimPlace name).map String.toList := by
  have hsplit : "current/" ++ name ++ ".json" = "current" ++ "/" ++ (name ++ ".json") := by
    rw [← String.append_assoc]
    rfl
  have hlast := segments_of_not_mem (isName_json h).2
  rw [String.ofList_toList] at hlast
  rw [hsplit, segments_slash, hlast]
  rfl

/-- The interim state of a repository goes where its name says, below the storage. -/
theorem place_of_interim {n : String} {d : Place} (hname : IsName name)
    (hsite : fs.Site (join output ("current/" ++ name ++ ".json")) p n)
    (hstat : fs.stat output = .ok (d, .directory)) : p ++ [n] = d ++ interimPlace name := by
  obtain ⟨hlocate, hd⟩ := stat_ok_iff.mp hstat
  obtain ⟨-, houtput⟩ := text_of_stat hstat
  have hsegments := segments_interimPlace hname
  have hrelative : isAbsolute ("current/" ++ name ++ ".json") = false := by
    apply isAbsolute_of_head
    rw [hsegments]
    intro t ht
    obtain rfl := Option.some.inj ht
    decide
  obtain ⟨-, hfollow⟩ := locate_ok_iff.mp hsite.locate
  rw [segments_join houtput hrelative, hsegments,
    origin_eq fs (isAbsolute_join houtput hrelative)] at hfollow
  obtain ⟨q, hq, hrest⟩ := follow_append_ok.mp hfollow
  rw [follow_stem hlocate hd] at hq
  obtain rfl := Except.ok.inj hq
  have hup : ∀ t ∈ (interimPlace name).map String.toList, t ≠ ['.', '.'] := by
    intro t ht
    obtain ⟨m, hm, rfl⟩ := List.mem_map.mp ht
    exact (isName_iff.mp (isName_interimPlace hname m hm).1).2
  rw [eq_of_follow hup hrest, namesOf_names (isName_interimPlace hname)]

-- ============================================================ a run

theorem runSingle_ok (h : runSingle s false env (.directory input) (.directory output) fs
      = (.ok (), fs')) :
    ∃ name blocks, analyzeRepository s env (.directory input) fs = .ok (name, blocks)
      ∧ store (.directory output) ⟨output⟩ ("current/" ++ name ++ ".json") (Interim.write blocks) fs
        = (.ok (), fs') := by
  obtain ⟨⟨name, blocks⟩, fs₁, hask, hrest⟩ := of_bind_ok h
  rw [ask_eq] at hask
  obtain ⟨hanalysis, rfl⟩ := Prod.mk.inj hask
  refine ⟨name, blocks, hanalysis, ?_⟩
  exact (bind_ok (ask_storage output fs)).symm.trans hrest

end EventDocs.CommandLine
