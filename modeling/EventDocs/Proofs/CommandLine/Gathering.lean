import EventDocs.Proofs.CommandLine.GlobalRuns
import EventDocs.Proofs.CommandLine.SingleRuns
import Mathlib.Data.List.Nodup

/-
From many repositories to one list of blocks.

Each run over a repository puts its interim state into the storage, under the name of the
repository, and leaves all other files alone. After any number of runs, in whatever order and
however often, the storage holds one interim state for each repository that had its turn, and
nothing else (`gathered_of_runs`). A run over all repositories then merges them in the order of
their names (`runGlobal_after_singles`).

It does so if it can see them. A listing forgets dots in front of the path of the storage, and
then the names of the storage's own directories decide whether its files are passed over
(`Hidden`).
-/

namespace EventDocs.CommandLine

open EventDocs.Path FileSystem Listing Storage EventDocs.Action

-- ============================================================ runs and their repositories

/-- A run over one repository among several: what it is told, and what it has to do with. -/
structure Contribution where
  /-- Where the run starts. -/
  here : Place
  settings : SingleSettings
  env : Environment
  /-- A path of the repository. -/
  input : String
  /-- A path of the storage. -/
  output : String
  /-- Where the repository is. -/
  place : Place
  /-- The name of the repository. -/
  name : String
  /-- What its analysis gives. -/
  blocks : List Block

namespace Contribution

def run (r : Contribution) : Action Failure Unit := fun fs =>
  runSingle r.settings false r.env (.directory r.input) (.directory r.output) (fs.goTo r.here)

/-- What the run stores. -/
def content (r : Contribution) : Bytes := Utf8.encode (Interim.write r.blocks)

/-- What a run says about itself is so: the analysis, as seen before all runs, and its paths, as
seen after all of them. The repository neither lies in the storage nor holds it. -/
structure Sound (r : Contribution) (before after : FileSystem) (store : Place) : Prop where
  start : before.get? r.here = some .directory
  analysis : analyzeRepository r.settings r.env (.directory (pathOf r.place)) before
    = .ok (r.name, r.blocks)
  input : (after.goTo r.here).resolve r.input = .ok r.place
  output : (after.goTo r.here).stat r.output = .ok (store, .directory)
  outside : ¬ store <+: r.place
  notAround : ¬ r.place <+: store

end Contribution

/-- The repositories stand in the order of the bytes of their files' names, and no two have the
same name. -/
def InFileOrder (family : List Contribution) : Prop :=
  family.Pairwise fun r r' => Utf8.encode (r.name ++ ".json") < Utf8.encode (r'.name ++ ".json")

instance (family : List Contribution) : Decidable (InFileOrder family) :=
  inferInstanceAs (Decidable (List.Pairwise _ _))

variable {before after fs fs' : FileSystem} {store : Place} {r : Contribution}
  {runs done family : List Contribution}

/-- A run takes no directory away. -/
theorem Contribution.keeps (h : r.run fs = (.ok (), fs')) :
    KeepsDirectories (fs.goTo r.here) fs' := by
  obtain ⟨name, blocks, -, hstore⟩ := runSingle_ok h
  obtain ⟨fs₁, p, n, hgrows, -, hfree, rfl⟩ := store_ok hstore
  exact hgrows.keepsDirectories.trans (keepsDirectories_put hfree _)

theorem directories_of_runs (h : runs.forM Contribution.run fs = (.ok (), fs')) {p : Place}
    (hp : fs.get? p = some .directory) : fs'.get? p = some .directory := by
  induction runs generalizing fs with
  | nil =>
      cases h
      exact hp
  | cons r runs ih =>
      obtain ⟨fs₁, hfirst, hrest⟩ := forM_cons_ok.mp h
      exact ih hrest ((Contribution.keeps hfirst).keeps p hp)

-- ============================================================ what the storage holds

/-- What some runs have gathered: the files of the storage are their interim states, and all
other files are what they were. -/
structure Gathered (before fs : FileSystem) (store : Place) (done : List Contribution) : Prop where
  wellFormed : fs.WellFormed
  keeps : ∀ p, before.get? p = some .directory → fs.get? p = some .directory
  outside : ∀ {p : Place} {c : Bytes}, ¬ store <+: p →
    (fs.get? p = some (.file c) ↔ before.get? p = some (.file c))
  inside : ∀ {q : Place} {c : Bytes}, fs.get? (store ++ q) = some (.file c) ↔
    ∃ r ∈ done, q = interimPlace r.name ∧ c = r.content

theorem gathered_nil (hbefore : before.WellFormed)
    (hempty : ∀ q c, before.get? (store ++ q) ≠ some (.file c)) :
    Gathered before before store [] := by
  refine ⟨hbefore, fun _ => id, fun _ => Iff.rfl, ?_⟩
  intro q c
  constructor
  · intro hget
    exact absurd hget (hempty q c)
  · intro hsome
    obtain ⟨r, hr, -⟩ := hsome
    cases hr

theorem Gathered.congr (h : Gathered before fs store done) (hmembers : ∀ r, r ∈ done ↔ r ∈ family) :
    Gathered before fs store family := by
  refine ⟨h.wellFormed, h.keeps, h.outside, ?_⟩
  intro q c
  rw [h.inside]
  simp only [hmembers]

/-- The repository is what it was, and the analysis gives what it gave. -/
theorem Gathered.analyzed (h : Gathered before fs store done) (hbefore : before.WellFormed)
    (hsound : r.Sound before after store) {p : Place} {name : String} {blocks : List Block}
    (hresolve : (fs.goTo r.here).resolve r.input = .ok p)
    (hkeeps : ∀ p, fs.get? p = some .directory → after.get? p = some .directory)
    (hanalyzed : Analyzed r.settings r.env (fs.goTo r.here) p name blocks) :
    IsName r.name ∧ name = r.name ∧ blocks = r.blocks := by
  have hfs : (fs.goTo r.here).WellFormed := h.wellFormed.goTo (h.keeps _ hsound.start)
  have hlast : KeepsDirectories (fs.goTo r.here) (after.goTo r.here) := ⟨rfl, hkeeps⟩
  obtain rfl := resolve_mono hlast hresolve hsound.input
  obtain ⟨-, hdirectory⟩ := stat_ok_iff.mp hanalyzed.stat
  have hnames : ∀ n ∈ r.place, IsName n := fun n hn => (hfs.proper hdirectory n hn).isName
  obtain ⟨p, hp, hwas⟩ := analyzeRepository_ok hbefore hsound.analysis
  obtain rfl := eq_of_follow_pathOf hnames (resolve_ok hp).1
  have hfiles : ∀ q c, (fs.goTo r.here).get? (r.place ++ q) = some (.file c)
      ↔ before.get? (r.place ++ q) = some (.file c) := by
    intro q c
    apply h.outside
    intro hbelow
    rcases List.prefix_or_prefix_of_prefix hbelow (List.prefix_append r.place q) with hin | hout
    · exact hsound.outside hin
    · exact hsound.notAround hout
  obtain ⟨rfl, rfl⟩ := (hwas.mono hfs hdirectory hfiles).unique hanalyzed
  exact ⟨hnames _ (hwas.mem hnames), rfl, rfl⟩

/-- What a run does to files: it puts the interim state of its repository into the storage. -/
theorem Gathered.files_of_run (h : Gathered before fs store done) (hbefore : before.WellFormed)
    (hsound : r.Sound before after store) (hrun : r.run fs = (.ok (), fs'))
    (hkeeps : ∀ p, fs'.get? p = some .directory → after.get? p = some .directory) :
    fs'.WellFormed ∧ fs'.get? (store ++ interimPlace r.name) = some (.file r.content)
      ∧ ∀ {p c}, p ≠ store ++ interimPlace r.name →
        (fs'.get? p = some (.file c) ↔ fs.get? p = some (.file c)) := by
  have hfs : (fs.goTo r.here).WellFormed := h.wellFormed.goTo (h.keeps _ hsound.start)
  obtain ⟨name, blocks, hanalysis, hstore⟩ := runSingle_ok hrun
  obtain ⟨p, hresolve, hanalyzed⟩ := analyzeRepository_ok hfs hanalysis
  obtain ⟨hname, rfl, rfl⟩ := h.analyzed hbefore hsound hresolve
    (fun p hp => hkeeps p ((Contribution.keeps hrun).keeps p hp)) hanalyzed
  obtain ⟨fs₁, p, n, hgrows, hsite, hfree, rfl⟩ := store_ok hstore
  have hlast : KeepsDirectories fs₁ (after.goTo r.here) := by
    refine ⟨?_, ?_⟩
    · rw [hgrows.here]
      rfl
    · intro q hq
      exact hkeeps q ((keepsDirectories_put hfree _).keeps q hq)
  rw [← place_of_interim hname (hsite.mono hlast) hsound.output]
  refine ⟨?_, get?_put_self fs₁ _ (by simp), ?_⟩
  · exact (hgrows.wellFormed hfs).put hsite.directory hsite.name fun hd => absurd hd hfree
  · intro q c hq
    rw [get?_put fs₁ (by simp), if_neg hq]
    exact hgrows.file_iff

/-- One more run. Runs over repositories of one name are runs over one repository. -/
theorem Gathered.step (h : Gathered before fs store done) (hbefore : before.WellFormed)
    (hsound : r.Sound before after store)
    (hunique : ∀ r' ∈ done, r'.name = r.name → r' = r) (hrun : r.run fs = (.ok (), fs'))
    (hkeeps : ∀ p, fs'.get? p = some .directory → after.get? p = some .directory) :
    Gathered before fs' store (done ++ [r]) := by
  obtain ⟨hfs', hself, hother⟩ := h.files_of_run hbefore hsound hrun hkeeps
  refine ⟨hfs', ?_, ?_, ?_⟩
  · intro q hq
    exact (Contribution.keeps hrun).keeps q (h.keeps q hq)
  · intro q c hq
    have hne : q ≠ store ++ interimPlace r.name := by
      intro heq
      rw [heq] at hq
      exact hq (List.prefix_append store _)
    exact (hother hne).trans (h.outside hq)
  · intro q c
    by_cases hq : q = interimPlace r.name
    · rw [hq, hself]
      constructor
      · intro hc
        obtain rfl := Entry.file.inj (Option.some.inj hc)
        exact ⟨r, by simp, rfl, rfl⟩
      · intro hsome
        obtain ⟨r', hr', hplace, rfl⟩ := hsome
        have hsame : r' = r := by
          rcases List.mem_append.mp hr' with hr' | hr'
          · exact hunique r' hr' (interimPlace_injective hplace.symm)
          · exact List.mem_singleton.mp hr'
        rw [hsame]
    · rw [hother fun heq => hq (List.append_cancel_left heq), h.inside]
      constructor
      · intro hsome
        obtain ⟨r', hr', hrest⟩ := hsome
        exact ⟨r', List.mem_append_left _ hr', hrest⟩
      · intro hsome
        obtain ⟨r', hr', hplace, hc⟩ := hsome
        rcases List.mem_append.mp hr' with hr' | hr'
        · exact ⟨r', hr', hplace, hc⟩
        · rw [List.mem_singleton.mp hr'] at hplace
          exact absurd hplace hq

/-- After all runs the storage holds the interim states of all repositories. -/
theorem gathered_of_runs (h : Gathered before fs store done) (hbefore : before.WellFormed)
    (hruns : runs.forM Contribution.run fs = (.ok (), after))
    (hsound : ∀ r ∈ runs, r.Sound before after store)
    (hunique : ∀ r ∈ done ++ runs, ∀ r' ∈ done ++ runs, r.name = r'.name → r = r') :
    Gathered before after store (done ++ runs) := by
  induction runs generalizing fs done with
  | nil =>
      cases hruns
      rw [List.append_nil]
      exact h
  | cons r runs ih =>
      obtain ⟨fs₁, hfirst, hrest⟩ := forM_cons_ok.mp hruns
      have hstep := h.step hbefore (hsound r List.mem_cons_self)
        (fun r' hr' => hunique r' (List.mem_append_left _ hr') r (by simp)) hfirst
        (fun p hp => directories_of_runs hrest hp)
      rw [List.append_cons] at hunique ⊢
      exact ih hstep hrest (fun r' hr' => hsound r' (List.mem_cons_of_mem r hr')) hunique

-- ============================================================ what is merged

theorem inOrder_interimPlace {m n : String} (h : m ++ ".json" < n ++ ".json") :
    inOrder (interimPlace m) (interimPlace n) = true := by
  simp [interimPlace, inOrder, h]

theorem InFileOrder.nodup (hsorted : InFileOrder family) : (family.map (·.name)).Nodup := by
  unfold List.Nodup
  rw [List.pairwise_map]
  apply List.Pairwise.imp _ hsorted
  intro r r' hlt heq
  rw [heq, Utf8.encode_lt_iff] at hlt
  exact absurd hlt (lt_irrefl _)

/-- The files of the storage in the order of their names. -/
theorem Gathered.filesBelow_eq (h : Gathered before fs store family)
    (hsorted : InFileOrder family) :
    filesBelow fs store = family.map fun r => interimPlace r.name := by
  apply Listing.filesBelow_eq
  · rw [List.pairwise_map]
    exact List.Pairwise.imp (fun hlt => inOrder_interimPlace (Utf8.encode_lt_iff.mp hlt)) hsorted
  · have hnodup := hsorted.nodup.map interimPlace_injective
    rw [List.map_map] at hnodup
    exact hnodup
  · intro names
    rw [mem_filesBelow, List.mem_map]
    constructor
    · intro hboth
      obtain ⟨-, c, hget⟩ := hboth
      obtain ⟨r, hr, hnames, -⟩ := h.inside.mp hget
      exact ⟨r, hr, hnames.symm⟩
    · intro hsome
      obtain ⟨r, hr, rfl⟩ := hsome
      exact ⟨by simp [interimPlace], r.content, h.inside.mpr ⟨r, hr, rfl, rfl⟩⟩

theorem isInterim_interimPlace (n : String) (hne : n ≠ "") : isInterim (interimPlace n) = true := by
  have htext : n ++ ".json" = .ofList (n.toList ++ '.' :: ['j', 's', 'o', 'n']) := by
    rw [String.ofList_append, String.ofList_toList]
  unfold isInterim interimPlace
  rw [List.getLast?_cons_cons, List.getLast?_singleton, Option.getD_some, htext,
    extension_append (by decide), if_neg (by simpa using hne)]
  decide

/-- The storage gives the blocks of all repositories, if a listing shows its files. -/
theorem Gathered.merged?_eq (h : Gathered before fs store family)
    (hsorted : InFileOrder family)
    (hnames : ∀ r ∈ family, r.name ≠ "") (hfits : ∀ r ∈ family, ∀ b ∈ r.blocks, b.Fits)
    {root : String} (hshows : ∀ r ∈ family, shows root (interimPlace r.name) = true) :
    merged? fs root store = some (Block.sorted (family.flatMap (·.blocks))) := by
  have hinterims : interims fs root store = family.map fun r => interimPlace r.name := by
    unfold interims shown
    rw [h.filesBelow_eq hsorted, List.filter_filter, List.filter_eq_self]
    intro names hmem
    obtain ⟨r, hr, rfl⟩ := List.mem_map.mp hmem
    rw [isInterim_interimPlace r.name (hnames r hr), hshows r hr]
    rfl
  have hread : ((interims fs root store).map fun names => textAt fs (store ++ names)).mapM
      Interim.read? = some (family.map (·.blocks)) := by
    rw [hinterims, List.map_map, mapM_some_iff, List.forall₂_map_left_iff,
      List.forall₂_map_right_iff, List.forall₂_same]
    intro r hr
    rw [Function.comp_apply, textAt_of_file (h.inside.mpr ⟨r, hr, rfl, rfl⟩), Contribution.content,
      Utf8.decode_encode]
    exact Interim.read?_write (hfits r hr)
  unfold merged? blocksOf?
  rw [hread]
  rfl

/-- Nothing is merged from a hidden storage. -/
theorem merged?_of_hidden {root : String} (h : Hidden root) : merged? fs root store = some [] := by
  simp [merged?, interims, shown_of_hidden h, blocksOf?, Block.sorted]

-- ============================================================ how long the paths are

/-- The longest path that is needed for an interim state: the one below the private directory,
with all of the path of the storage in it. -/
def longestPath (download root name : String) : String :=
  download ++ "/" ++ root ++ "/current/" ++ name ++ ".json"

theorem segments_longestPath {download root name : String} (hname : IsName name) :
    segments (longestPath download root name)
      = segments download ++ segments root ++ (interimPlace name).map String.toList := by
  have hsplit : longestPath download root name
      = download ++ "/" ++ root ++ "/" ++ ("current/" ++ name ++ ".json") := by
    have hslash : "/current/" = "/" ++ "current/" := rfl
    rw [longestPath, hslash]
    simp only [String.append_assoc]
  rw [hsplit, segments_slash, segments_slash, segments_interimPlace hname]

theorem fits_found {download root name : String} (hname : IsName name)
    (hroom : fits (longestPath download root name) = true) :
    fits (found root (interimPlace name)) = true := by
  apply fits_of_sublist _ hroom
  rw [segments_longestPath hname]
  exact ((front_sublist root).trans (List.sublist_append_right _ _)).append (List.Sublist.refl _)

theorem fits_copyPath {download root name : String} (hname : IsName name) (hdownload : download ≠ "")
    (hsearch : (searchPath? root).isSome = true)
    (hroom : fits (longestPath download root name) = true) :
    fits (copyPath root download (interimPlace name)) = true := by
  rw [← ofSegments_segments (copyPath root download (interimPlace name))]
  apply fits_of_sublist _ hroom
  rw [segments_copyPath hdownload (isName_interimPlace hname) (by simp [interimPlace]) hsearch,
    segments_longestPath hname, List.append_assoc]
  exact (stem_sublist download).append ((inner_sublist root).append (List.Sublist.refl _))

theorem isSkipped_interimPlace (n : String) :
    isSkipped ((interimPlace n).map .name) = false := by
  have hlast : n ++ ".json" ∉ skippedFiles := by
    intro hmem
    have hend : (n ++ ".json").toList.getLast? = some 'n' := by
      rw [String.toList_append, List.getLast?_append]
      rfl
    have hall : ∀ m ∈ skippedFiles, m.toList.getLast? ≠ some 'n' := by decide
    exact hall _ hmem hend
  show (skippedFiles.contains (n ++ ".json") || [Component.name "current"].any _) = false
  rw [List.contains_eq_mem, decide_eq_false hlast]
  decide

-- ============================================================ two repositories

/-- Two repositories with a message each. -/
def twoRepositories : FileSystem where
  entries := [(["tmp"], .directory), (["api"], .directory), (["api-docs"], .directory),
    (["api", "order.schema.json"], .file (Utf8.encode "1")),
    (["api-docs", "note.schema.json"], .file (Utf8.encode "2"))]
  here := []
  distinct := by decide

/-- A run over the repository of some name, with a message. -/
def messageRun (name : String) (message : Input) (output : String) : Contribution where
  here := []
  settings := ⟨"", "", "", "C#", none, false, 20⟩
  env := []
  input := "./" ++ name
  output
  place := [name]
  name
  blocks := [message.wholeBlock .jsonSchema]

def runApi (output : String) : Contribution :=
  messageRun "api" ⟨"order.schema.json", "/api/order.schema.json", "1"⟩ output

def runDocs (output : String) : Contribution :=
  messageRun "api-docs" ⟨"note.schema.json", "/api-docs/note.schema.json", "2"⟩ output

theorem twoRepositories_files {p : Place} {c : Bytes} (h : twoRepositories.get? p = some (.file c)) :
    p.head? ≠ some "store" ∧ c.length < UInt64.size := by
  by_cases hp : p = []
  · rw [hp, get?_nil] at h
    cases h
  · have hentry := (mem_entries_iff hp).mpr h
    simp only [twoRepositories, List.mem_cons, Prod.mk.injEq, reduceCtorEq, and_false, false_or,
      List.not_mem_nil, or_false, Entry.file.injEq] at hentry
    rcases hentry with ⟨rfl, rfl⟩ | ⟨rfl, rfl⟩
    · decide
    · decide

theorem twoRepositories_analysis : ∀ r ∈ [runDocs "store", runApi "store"],
    (analyzeRepository r.settings r.env (.directory (pathOf r.place)) twoRepositories).toOption
      = some (r.name, r.blocks)
    ∧ twoRepositories.get? r.here = some .directory
    ∧ ¬ ["store"] <+: r.place ∧ ¬ r.place <+: ["store"] := by
  decide +kernel

/-- Three runs, as one repository has two turns. -/
def threeRuns : Except Failure Unit × FileSystem :=
  [runApi "store", runDocs "store", runApi "store"].forM Contribution.run twoRepositories

theorem threeRuns_paths :
    threeRuns.1.toOption = some ()
      ∧ (∀ r ∈ [runDocs "store", runApi "store"],
        (threeRuns.2.goTo r.here).resolve r.input = .ok r.place
        ∧ (threeRuns.2.goTo r.here).stat r.output = .ok (["store"], .directory))
      ∧ (threeRuns.2.goTo []).stat "./store" = .ok (["store"], .directory)
      ∧ (threeRuns.2.goTo []).Site "/tmp/one" ["tmp"] "one"
      ∧ (threeRuns.2.goTo []).get? (["tmp"] ++ ["one"]) = none := by
  decide +kernel

-- ============================================================ all repositories

/-- The interim states of some repositories, gathered in a storage without files by runs in any
order, each of them once or more, give the blocks of the repositories: in the order of the bytes
of their files' names, and sorted by level as a whole. All of this is merged if the path of the
storage does not hide it, and nothing at all if it does; and it is what the run stores documents
of.

The private directory has an absolute path, as it always has, and the paths below it are short
enough. A path of the storage that begins with a dot must not go up behind it. -/
theorem runGlobal_after_singles {before after fs₁ : FileSystem} {store here : Place}
    {family runs : List Contribution} {input download : String} (hbefore : before.WellFormed)
    (hsizes : ∀ p c, before.get? p = some (.file c) → c.length < UInt64.size)
    (hempty : ∀ q c, before.get? (store ++ q) ≠ some (.file c))
    (hsorted : InFileOrder family)
    (hruns : runs.forM Contribution.run before = (.ok (), after))
    (hmembers : ∀ r, r ∈ runs ↔ r ∈ family)
    (hsound : ∀ r ∈ family, r.Sound before after store)
    (hhere : after.get? here = some .directory)
    (hinput : (after.goTo here).stat input = .ok (store, .directory))
    (hwithin : ∀ t ∈ inner input, t ≠ ['.', '.'])
    (habsolute : isAbsolute download = true)
    (hmade : (after.goTo here).makeDirectory download = .ok fs₁)
    (hroom : ∀ r ∈ family, fits (longestPath download input r.name) = true) :
    ∃ merged fs₂, downloadAndMerge (.directory input) download fs₁ = (.ok merged, fs₂)
      ∧ (¬ Hidden input → merged = Block.sorted (family.flatMap (·.blocks)))
      ∧ (Hidden input → merged = [])
      ∧ ∀ name format dryRun output, Format.ofName name = .ok format →
        runGlobal name dryRun download (.directory input) (.directory output) (after.goTo here)
          = let stored := storeAll (.directory output) ⟨output⟩ (published format dryRun merged) fs₂
            (stored.1, removeDirectory download stored.2) := by
  have hunique : ∀ r ∈ family, ∀ r' ∈ family, r.name = r'.name → r = r' :=
    fun r hr r' hr' => List.inj_on_of_nodup_map hsorted.nodup hr hr'
  have hgathered := (gathered_of_runs (gathered_nil hbefore hempty) hbefore hruns
    (fun r hr => hsound r ((hmembers r).mp hr))
    (fun r hr r' hr' => hunique r ((hmembers r).mp hr) r' ((hmembers r').mp hr'))).congr
      hmembers
  have hanalyzed : ∀ r ∈ family, IsName r.name ∧ ∀ b ∈ r.blocks, b.Fits := by
    intro r hr
    obtain ⟨p, -, hwas⟩ := analyzeRepository_ok hbefore (hsound r hr).analysis
    have hp : ∀ n ∈ p, IsName n :=
      fun n hn => (hbefore.proper (stat_ok_iff.mp hwas.stat).2 n hn).isName
    exact ⟨hp _ (hwas.mem hp), hwas.fits hsizes⟩
  have hfs : (after.goTo here).WellFormed := hgathered.wellFormed.goTo hhere
  obtain ⟨-, hroot⟩ := text_of_stat hinput
  obtain ⟨d, n, hfresh⟩ := exists_fresh hmade
  have hready := hfresh.ready hfs (hfresh.stat hinput) hwithin
  have hshort : ∀ names ∈ shown fs₁ input store, fits (copyPath input download names) = true := by
    intro names hmem
    obtain ⟨⟨-, c, hget⟩, hshows⟩ := mem_shown.mp hmem
    obtain ⟨r, hr, rfl, -⟩ := hgathered.inside.mp (hfresh.grows.file_iff.mp hget)
    exact fits_copyPath (hanalyzed r hr).1 hready.into_ne (searchPath?_of_shows hshows) (hroom r hr)
  by_cases hhidden : Hidden input
  · obtain ⟨fs₂, hdownload, -⟩ := downloadAndMerge_succeeds hready habsolute hshort
      (merged?_of_hidden hhidden)
    exact ⟨[], fs₂, hdownload, fun h => absurd hhidden h, fun _ => rfl,
      fun _ _ _ _ hname => runGlobal_of_ok hname hmade hdownload⟩
  · have hmerged : merged? fs₁ input store = some (Block.sorted (family.flatMap (·.blocks))) := by
      rw [merged?_of_grows hfresh.grows]
      refine Gathered.merged?_eq hgathered hsorted (fun r hr => (hanalyzed r hr).1.ne_empty)
        (fun r hr => (hanalyzed r hr).2) ?_
      intro r hr
      exact shows_of_not_hidden hroot hhidden (by simp [interimPlace])
        (fits_found (hanalyzed r hr).1 (hroom r hr)) (isSkipped_interimPlace r.name)
    obtain ⟨fs₂, hdownload, -⟩ := downloadAndMerge_succeeds hready habsolute hshort hmerged
    exact ⟨_, fs₂, hdownload, fun _ => rfl, fun h => absurd h hhidden,
      fun _ _ _ _ hname => runGlobal_of_ok hname hmade hdownload⟩

/-- The order is that of the names of the files: `api-docs.json` comes before `api.json`. -/
theorem runGlobal_after_singles_hyphen : ∃ fs₁ fs₂,
    threeRuns = (.ok (), threeRuns.2)
    ∧ (threeRuns.2.goTo []).makeDirectory "/tmp/one" = .ok fs₁
    ∧ downloadAndMerge (.directory "./store") "/tmp/one" fs₁
      = (.ok ((runDocs "store").blocks ++ (runApi "store").blocks), fs₂) := by
  obtain ⟨hok, hpaths, hinput, hsite, hfree⟩ := threeRuns_paths
  have hruns := pair_of_toOption hok
  have hmade := hsite.makeDirectory_eq hfree
  have hsorted : InFileOrder [runDocs "store", runApi "store"] := by decide +kernel
  have hsound : ∀ r ∈ [runDocs "store", runApi "store"],
      r.Sound twoRepositories threeRuns.2 ["store"] := by
    intro r hr
    obtain ⟨hanalysis, hstart, houtside, haround⟩ := twoRepositories_analysis r hr
    obtain ⟨hresolve, hstat⟩ := hpaths r hr
    exact ⟨hstart, ok_of_toOption hanalysis, hresolve, hstat, houtside, haround⟩
  obtain ⟨merged, fs₂, hdownload, hmerged, -⟩ := runGlobal_after_singles (by decide +kernel)
    (fun p c h => (twoRepositories_files h).2) (fun q c h => (twoRepositories_files h).1 rfl) hsorted
    hruns (by simp [or_comm]) hsound (get?_nil _) hinput (by decide +kernel) (by decide) hmade
    (by decide +kernel)
  refine ⟨_, fs₂, hruns, hmade, ?_⟩
  rw [hdownload, hmerged (by decide +kernel)]
  congr 2
  exact sorted_of_sortedByLevel (by decide)

/-- Behind a dot, the name of a storage can hide what it holds. -/
theorem not_merged_target : ∃ after fs₁ fs₂,
    (runApi "./target").run twoRepositories = (.ok (), after)
    ∧ after.makeDirectory "/tmp/one" = .ok fs₁
    ∧ downloadAndMerge (.directory "./target") "/tmp/one" fs₁ = (.ok [], fs₂)
    ∧ Block.sorted ([runApi "./target"].flatMap (·.blocks)) ≠ [] := by
  obtain ⟨hrun, hsite, hfree, hdownload⟩ :
      ((runApi "./target").run twoRepositories).1.toOption = some ()
      ∧ ((runApi "./target").run twoRepositories).2.Site "/tmp/one" ["tmp"] "one"
      ∧ ((runApi "./target").run twoRepositories).2.get? (["tmp"] ++ ["one"]) = none
      ∧ (downloadAndMerge (.directory "./target") "/tmp/one" (((runApi "./target").run
        twoRepositories).2.put (["tmp"] ++ ["one"]) .directory)).1.toOption = some [] := by
    decide +kernel
  refine ⟨_, _, _, pair_of_toOption hrun, hsite.makeDirectory_eq hfree, pair_of_toOption hdownload, ?_⟩
  simp [Block.sorted, runApi, messageRun]

end EventDocs.CommandLine
