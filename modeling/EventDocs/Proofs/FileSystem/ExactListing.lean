import EventDocs.Proofs.FileSystem.Listings
import EventDocs.Proofs.Text.Utf8

/-
A listing is exact and in order, unless the directory is hidden.

What a listing is to show is said without paths: by the names between the directory and the file
(`Due`). All that it shows stands under paths with the same steps in front (`components_found`),
so the order of the paths is the order of these names, which is that of their bytes.

Paths with dots in front are the exception. The dots are forgotten, the path of the directory is
taken for a part of what lies below it, and its own names are held against every file.
-/

namespace EventDocs.Listing

open EventDocs.Path FileSystem

variable {fs : FileSystem} {base : String} {place names : Place}

-- ============================================================ what is due

/-- A listing is to show the file that some names lead to: its name is not one to pass over, nor
is that of a directory on the way, and its path can be handed over in one piece. -/
structure Due (fs : FileSystem) (base : String) (place names : Place) : Prop where
  below : names ≠ []
  isFile : ∃ c, fs.get? (place ++ names) = some (.file c)
  own : ∀ n ∈ names.getLast?, n ∉ skippedFiles
  between : ∀ n ∈ names.dropLast, n ∉ skippedDirectories
  short : fits (found base names) = true

/-- The steps of a path, each as its bytes: so paths are compared. -/
def stepBytes (path : String) : List Bytes :=
  (components path).map fun step => Utf8.encode step.text

/-- A listing that shows what is due, each file once and in the order of their paths. -/
structure Exact (fs : FileSystem) (base : String) (place : Place) (files : List ListedFile) :
    Prop where
  /-- Whatever is shown is due, and has the name of the file and its extension. -/
  sound : ∀ f ∈ files, ∃ names, Due fs base place names ∧ fs.locate f.path = .ok (place ++ names)
    ∧ names.getLast? = some f.name ∧ f.extension = extension f.name
  /-- Whatever is due is shown once. -/
  once : ∀ names, Due fs base place names →
    files.countP (fun f => decide (fs.locate f.path = .ok (place ++ names))) = 1
  /-- The first step that differs decides, and it is less. -/
  ordered : files.Pairwise fun f g => stepBytes f.path < stepBytes g.path

-- ============================================================ what is shown is due

theorem isSkipped_names (hne : names ≠ []) : isSkipped (names.map .name) = false ↔
    (∀ n ∈ names.getLast?, n ∉ skippedFiles) ∧ ∀ n ∈ names.dropLast, n ∉ skippedDirectories := by
  unfold isSkipped
  rw [List.getLast?_map, List.getLast?_eq_some_getLast hne, ← List.map_dropLast]
  simp only [Option.map_some, Component.text, List.any_map, Function.comp_def, Bool.or_eq_false_iff,
    List.any_eq_false, List.contains_eq_mem, decide_eq_false_iff_not, decide_eq_true_eq,
    Option.mem_some, forall_eq']

theorem shows_iff (hbase : base ≠ "") (h : ¬ Hidden base) (hne : names ≠ []) :
    shows base names = true ↔
      fits (found base names) = true ∧ isSkipped (names.map .name) = false := by
  constructor
  · intro hshows
    refine ⟨fits_of_shows hshows, ?_⟩
    unfold shows at hshows
    rw [isSkipped_append hne] at hshows
    simp only [Bool.and_eq_true, Bool.not_eq_true', Bool.or_eq_false_iff] at hshows
    exact hshows.2.2
  · rintro ⟨hfits, hskipped⟩
    exact shows_of_not_hidden hbase h hne hfits hskipped

theorem mem_shown_iff_due (hbase : base ≠ "") (h : ¬ Hidden base) :
    names ∈ shown fs base place ↔ Due fs base place names := by
  rw [mem_shown]
  constructor
  · rintro ⟨⟨hne, hfile⟩, hshows⟩
    obtain ⟨hfits, hskipped⟩ := (shows_iff hbase h hne).mp hshows
    obtain ⟨hown, hbetween⟩ := (isSkipped_names hne).mp hskipped
    exact ⟨hne, hfile, hown, hbetween, hfits⟩
  · intro hdue
    refine ⟨⟨hdue.below, hdue.isFile⟩, (shows_iff hbase h hdue.below).mpr ⟨hdue.short, ?_⟩⟩
    exact (isSkipped_names hdue.below).mpr ⟨hdue.own, hdue.between⟩

theorem Due.isName (hfs : fs.WellFormed) (h : Due fs base place names) : ∀ n ∈ names, IsName n :=
  isName_of_filesBelow hfs (mem_filesBelow.mpr ⟨h.below, h.isFile⟩)

-- ============================================================ the order of the paths

/-- The paths of what is found have the same steps in front of the names. -/
theorem components_found (h : (searchPath? base).isSome = true) :
    ∃ steps, ∀ names, names ≠ [] → (∀ n ∈ names, IsName n) →
      components (found base names) = steps ++ names.map .name := by
  obtain ⟨search, hsome⟩ := Option.isSome_iff_exists.mp h
  cases hsegments : segments base with
  | nil => exact absurd hsegments (segments_ne_nil base)
  | cons first rest =>
      by_cases hfirst : first = ['.']
      · subst hfirst
        refine ⟨(front base).filterMap Component.ofSegment?, ?_⟩
        intro names hne hnames
        exact components_names hnames (fun s hs => slash_not_mem_front hs)
          (head_front_of_dot hsome hsegments) hne
      · refine ⟨components base, ?_⟩
        intro names hne hnames
        rw [← foundPath_eq hsome hnames hne]
        exact components_of_ne hsome hnames hne hsegments hfirst

theorem encode_lt_of_inOrder {p q : Place} (h : inOrder p q = true) (hne : p ≠ q) :
    p.map Utf8.encode < q.map Utf8.encode := by
  induction p generalizing q with
  | nil =>
      cases q with
      | nil => exact absurd rfl hne
      | cons b q => exact List.nil_lt_cons _ _
  | cons a p ih =>
      cases q with
      | nil => cases h
      | cons b q =>
          simp only [inOrder, Bool.or_eq_true, Bool.and_eq_true, decide_eq_true_eq] at h
          rw [List.map_cons, List.map_cons, List.cons_lt_cons_iff]
          rcases h with hab | ⟨rfl, hrest⟩
          · exact Or.inl (Utf8.encode_lt hab)
          · exact Or.inr ⟨rfl, ih hrest fun heq => hne (heq ▸ rfl)⟩

theorem pairwise_stepBytes (hfs : fs.WellFormed) (h : (searchPath? base).isSome = true) :
    (shown fs base place).Pairwise fun p q =>
      stepBytes (found base p) < stepBytes (found base q) := by
  obtain ⟨steps, hsteps⟩ := components_found h
  have hbytes : ∀ p ∈ shown fs base place, stepBytes (found base p)
      = steps.map (fun step => Utf8.encode step.text) ++ p.map Utf8.encode := by
    intro p hp
    have hbelow := (List.mem_filter.mp hp).1
    unfold stepBytes
    rw [hsteps p (mem_filesBelow.mp hbelow).1 (isName_of_filesBelow hfs hbelow), List.map_append,
      List.map_map]
    rfl
  have hboth := (pairwise_shown fs base place).and (nodup_shown fs base place)
  refine List.Pairwise.imp_of_mem ?_ hboth
  intro p q hp hq hpq
  rw [hbytes p hp, hbytes q hq]
  exact Utf8.append_lt_append _ (encode_lt_of_inOrder hpq.1 hpq.2)

-- ============================================================ the listing

theorem exact_shown (hfs : fs.WellFormed) (hstat : fs.stat base = .ok (place, .directory))
    (h : ¬ Hidden base) :
    Exact fs base place ((shown fs base place).map fun names => listed (found base names)) := by
  obtain ⟨-, hbase⟩ := text_of_stat hstat
  have hsearch := searchPath?_of_not_hidden hbase h
  have hdue : ∀ names, names ∈ shown fs base place ↔ Due fs base place names :=
    fun names => mem_shown_iff_due hbase h
  have hlocate : ∀ names, Due fs base place names →
      fs.locate (found base names) = .ok (place ++ names) := by
    intro names hnames
    obtain ⟨c, hget⟩ := hnames.isFile
    exact locate_found hfs (stat_ok_iff.mp hstat).1 hsearch hget hnames.below hnames.short
  refine ⟨?_, ?_, ?_⟩
  · intro f hf
    obtain ⟨names, hmem, rfl⟩ := List.mem_map.mp hf
    have hnames := (hdue names).mp hmem
    have hlast := List.getLast?_eq_some_getLast hnames.below
    refine ⟨names, hnames, hlocate names hnames, ?_⟩
    rw [listed_found (hnames.isName hfs) hlast]
    exact ⟨hlast, rfl⟩
  · intro names hnames
    rw [List.countP_map]
    -- two files that are shown are at different places
    have hsame : ∀ other ∈ shown fs base place,
        ((fun f => decide (fs.locate f.path = .ok (place ++ names)))
          ∘ fun names => listed (found base names)) other = true ↔ (other == names) = true := by
      intro other hother
      simp [listed_path, hlocate other ((hdue other).mp hother)]
    rw [List.countP_congr hsame]
    exact List.count_eq_one_of_mem (nodup_shown fs base place) ((hdue names).mpr hnames)
  · exact List.pairwise_map.mpr (pairwise_stepBytes hfs hsearch)

/-- A listing of a directory that is not hidden is exact; one of a hidden directory is empty. -/
theorem list?_exact (hfs : fs.WellFormed) (hstat : fs.stat base = .ok (place, .directory)) :
    ∃ files, fs.list? base = some files ∧ (¬ Hidden base → Exact fs base place files)
      ∧ (Hidden base → files = []) := by
  refine ⟨_, list?_eq hfs hstat, exact_shown hfs hstat, ?_⟩
  intro h
  rw [shown_of_hidden h]
  rfl

/-- A directory with a name that is passed over further down, and some files below it. -/
def workshop : FileSystem where
  entries := [(["bin"], .directory), (["bin", "a-b"], .directory),
    (["bin", "a-b", "x.cs"], .file []), (["bin", "a"], .directory),
    (["bin", "a", "x.cs"], .file []), (["bin", "obj"], .directory),
    (["bin", "obj", "y.cs"], .file []), (["bin", ".gitignore"], .file []),
    (["bin", ".env.sample"], .file [])]
  here := []
  distinct := by decide

/-- The directory's own name does not matter, and `a` comes before `a-b`. -/
theorem list?_exact_workshop : ∃ files, workshop.list? "bin" = some files
    ∧ Exact workshop "bin" ["bin"] files
    ∧ files = [⟨".env.sample", "bin/.env.sample", "sample"⟩, ⟨"x.cs", "bin/a/x.cs", "cs"⟩,
      ⟨"x.cs", "bin/a-b/x.cs", "cs"⟩] := by
  have hfs : workshop.WellFormed := by decide
  have hstat : workshop.stat "bin" = .ok (["bin"], .directory) := rfl
  have hbelow : filesBelow workshop ["bin"] = [[".env.sample"], [".gitignore"], ["a", "x.cs"],
      ["a-b", "x.cs"], ["obj", "y.cs"]] :=
    List.Perm.eq_of_pairwise (fun p q _ _ => inOrder_antisymm p q) (pairwise_filesBelow _ _)
      (by decide) ((List.mergeSort_perm _ _).trans (by decide))
  obtain ⟨files, hlist, hexact, -⟩ := list?_exact hfs hstat
  refine ⟨files, hlist, hexact (by decide), ?_⟩
  rw [list?_eq hfs hstat, shown, hbelow] at hlist
  rw [← Option.some.inj hlist]
  decide

/-- Behind a dot, the name hides all that the directory holds. -/
theorem not_exact_workshop : workshop.list? "./bin" = some []
    ∧ Due workshop "./bin" ["bin"] ["a", "x.cs"] ∧ ¬ Exact workshop "./bin" ["bin"] [] := by
  have hstat : workshop.stat "./bin" = .ok (["bin"], .directory) := rfl
  have hlist : workshop.list? "./bin" = some [] := by
    rw [list?_eq (by decide) hstat, shown_of_hidden (by decide)]
    rfl
  have hdue : Due workshop "./bin" ["bin"] ["a", "x.cs"] :=
    ⟨by decide, ⟨[], by decide⟩, by decide, by decide, by decide⟩
  refine ⟨hlist, hdue, ?_⟩
  intro hexact
  cases hexact.once _ hdue

end EventDocs.Listing
