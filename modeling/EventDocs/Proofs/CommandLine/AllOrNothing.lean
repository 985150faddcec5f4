import EventDocs.Proofs.CommandLine.Footprint
import EventDocs.Proofs.CommandLine.SingleRuns

/-
Nothing is stored unless everything before storing succeeded.

Each command either gets as far as storing or has not touched what it finds (`runSingle_cases`,
`mergeAndStore_cases`), apart from the private directory, which is taken away again. What fails
while storing says so. Hence a run that was asked to store nothing, and a run that fails with
anything but a failure to store, leave the file system as it was (`run_all_or_nothing`); and
what a single run stores is its interim state alone.
-/

namespace EventDocs

-- ============================================================ failures

/-- A failure to store something. -/
def Failure.IsStoring (e : Failure) : Prop :=
  ∃ key location cause, e = .during (.storing key location) cause

theorem Action.during_error {α : Type} {activity : Activity} {a : Action Failure α} {e : Failure}
    {fs fs' : FileSystem} (h : a.during activity fs = (.error e, fs')) :
    ∃ cause, e = .during activity cause := by
  unfold during mapError at h
  cases hrun : a fs with
  | mk made fs₁ =>
      rw [hrun] at h
      cases made with
      | ok x => cases h
      | error cause =>
          cases h
          exact ⟨cause, rfl⟩

namespace FileSystem

/-- There is the same everywhere, and relative paths start where they did. -/
structure Same (fs fs' : FileSystem) : Prop where
  here : fs'.here = fs.here
  view : ∀ p, fs'.get? p = fs.get? p

theorem Same.refl (fs : FileSystem) : fs.Same fs := ⟨rfl, fun _ => rfl⟩

end FileSystem

namespace CommandLine

open EventDocs.Path FileSystem Listing Storage EventDocs.Action

variable {fs fs₁ fs₂ fs' : FileSystem} {s : SingleSettings} {env : Environment}
  {input output : Location} {into root name : String} {d : Place} {format : Format}
  {dryRun : Bool} {result : Except Failure Unit}

theorem isStoring_of_store {storage : Storage} {key body : String} {e : Failure}
    (h : store output storage key body fs = (.error e, fs')) : e.IsStoring := by
  obtain ⟨cause, rfl⟩ := during_error h
  exact ⟨key, output.text, cause, rfl⟩

theorem isStoring_of_storeAll {storage : Storage} {documents : List (String × String)} {e : Failure}
    (h : storeAll output storage documents fs = (.error e, fs')) : e.IsStoring := by
  induction documents generalizing fs with
  | nil => cases h
  | cons x documents ih =>
      have hcons : storeAll output storage (x :: documents)
          = store output storage x.1 x.2 >>= fun _ => storeAll output storage documents := rfl
      rw [hcons] at h
      cases hfirst : store output storage x.1 x.2 fs with
      | mk made fs₁ =>
          cases made with
          | error e' =>
              rw [bind_error hfirst] at h
              cases h
              exact isStoring_of_store hfirst
          | ok u =>
              rw [bind_ok hfirst] at h
              exact ih h

-- ============================================================ how far a command gets

/-- A run over one repository has changed nothing, or it got as far as storing. -/
theorem runSingle_cases (h : runSingle s dryRun env input output fs = (result, fs')) :
    (fs' = fs ∧ (dryRun = true ∨ result ≠ .ok ()))
    ∨ (dryRun = false ∧ ∃ path name blocks, output = .directory path
        ∧ analyzeRepository s env input fs = .ok (name, blocks)
        ∧ store output ⟨path⟩ ("current/" ++ name ++ ".json") (Interim.write blocks) fs
          = (result, fs')) := by
  have hask := ask_eq (analyzeRepository s env input) fs
  unfold runSingle at h
  cases hanalysis : analyzeRepository s env input fs with
  | error e =>
      rw [hanalysis] at hask
      rw [bind_error hask] at h
      cases h
      exact Or.inl ⟨rfl, Or.inr (by simp)⟩
  | ok found =>
      obtain ⟨name, blocks⟩ := found
      rw [hanalysis] at hask
      rw [bind_ok hask] at h
      cases dryRun with
      | true =>
          cases h
          exact Or.inl ⟨rfl, Or.inl rfl⟩
      | false =>
          cases output with
          | blob account container =>
              cases h
              exact Or.inl ⟨rfl, Or.inr (by simp)⟩
          | directory path =>
              have hrest := (bind_ok (ask_storage path fs)).symm.trans h
              exact Or.inr ⟨rfl, path, name, blocks, rfl, rfl, hrest⟩

/-- A run over all repositories has only copied and merged, even if a document could not be
rendered, or it got as far as storing. -/
theorem mergeAndStore_cases (h : mergeAndStore format dryRun into input output fs = (result, fs')) :
    (∃ made, downloadAndMerge input into fs = (made, fs'))
    ∨ (dryRun = false ∧ ∃ path documents fs₁, output = .directory path
        ∧ storeAll output ⟨path⟩ documents fs₁ = (result, fs')) := by
  unfold mergeAndStore at h
  cases hdownload : downloadAndMerge input into fs with
  | mk made fs₁ =>
      cases made with
      | error e =>
          rw [bind_error hdownload] at h
          cases h
          exact Or.inl ⟨_, rfl⟩
      | ok blocks =>
          rw [bind_ok hdownload] at h
          cases hrender : renderAll format blocks with
          | error e =>
              have hask : (Action.ask fun _ => renderAll format blocks) fs₁ = (.error e, fs₁) := by
                rw [ask_eq, hrender]
              rw [bind_error hask] at h
              cases h
              exact Or.inl ⟨_, rfl⟩
          | ok documents =>
              have hask : (Action.ask fun _ => renderAll format blocks) fs₁
                  = (.ok documents, fs₁) := by
                rw [ask_eq, hrender]
              rw [bind_ok hask] at h
              cases dryRun with
              | true =>
                  cases h
                  exact Or.inl ⟨_, rfl⟩
              | false =>
                  cases output with
                  | blob account container =>
                      cases h
                      exact Or.inl ⟨_, rfl⟩
                  | directory path =>
                      have hrest := (bind_ok (ask_storage path fs₁)).symm.trans h
                      exact Or.inr ⟨rfl, path, documents, fs₁, rfl, hrest⟩

/-- Nothing is stored on purpose, and if something failed it was not storing. -/
def Quiet (dryRun : Bool) (result : Except Failure Unit) : Prop :=
  dryRun = true ∨ ∃ e, result = .error e ∧ ¬ e.IsStoring

theorem runSingle_quiet (hquiet : Quiet dryRun result)
    (h : runSingle s dryRun env input output fs = (result, fs')) : fs' = fs := by
  rcases runSingle_cases h with ⟨hsame, -⟩ | ⟨hstores, path, name, blocks, -, -, hstore⟩
  · exact hsame
  · rcases hquiet with hdry | ⟨e, rfl, he⟩
    · rw [hstores] at hdry
      cases hdry
    · exact absurd (isStoring_of_store hstore) he

theorem mergeAndStore_quiet (hfs : fs.WellFormed) (hinto : fs.stat into = .ok (d, .directory))
    (hinput : ∀ root, input = .directory root → StaysBelow (inner root))
    (hquiet : Quiet dryRun result)
    (h : mergeAndStore format dryRun into input output fs = (result, fs')) :
    Sheltered fs fs' d := by
  rcases mergeAndStore_cases h with ⟨made, hdownload⟩ | ⟨hstores, path, documents, fs₁, -, hstore⟩
  · cases input with
    | blob account container =>
        cases hdownload
        exact Sheltered.refl _ d
    | directory root => exact downloadAndMerge_sheltered hfs hinto (hinput root rfl) hdownload
  · rcases hquiet with hdry | ⟨e, rfl, he⟩
    · rw [hstores] at hdry
      cases hdry
    · exact absurd (isStoring_of_storeAll hstore) he

/-- With the private directory everything is gone that a sheltered action did. -/
theorem same_of_sheltered {n : String} (hfs : fs.WellFormed) (hfresh : Fresh fs fs₁ into d n)
    (h : Sheltered fs₁ fs₂ d) : fs.Same (removeDirectory into fs₂) := by
  have hremoved := removed_of_stat (h.keeps.stat hfresh.there) hfresh.ne_nil
  refine ⟨?_, ?_⟩
  · rw [hremoved.here, h.keeps.here, hfresh.grows.here]
  · intro p
    rw [hremoved.view]
    by_cases hp : d <+: p
    · rw [if_pos hp]
      cases hget : fs.get? p with
      | none => rfl
      | some e => exact absurd hp (hfresh.not_below hfs hget)
    · have hne : p ≠ d := by
        rintro rfl
        exact hp (List.prefix_refl p)
      rw [if_neg hp, h.outside hp, hfresh.same hne]

theorem runGlobal_quiet (hfs : fs.WellFormed)
    (hinput : ∀ root, input = .directory root → StaysBelow (inner root))
    (hquiet : Quiet dryRun result)
    (h : runGlobal name dryRun into input output fs = (result, fs')) : fs.Same fs' := by
  unfold runGlobal at h
  cases hformat : Format.ofName name with
  | error e =>
      rw [hformat] at h
      cases h
      exact Same.refl fs
  | ok format =>
      rw [hformat] at h
      replace h : withDirectory into (mergeAndStore format dryRun into input output) fs
        = (result, fs') := h
      unfold withDirectory at h
      cases hmade : fs.makeDirectory into with
      | error e =>
          simp only [hmade] at h
          cases h
          exact Same.refl fs
      | ok fs₁ =>
          obtain ⟨d, n, hfresh⟩ := exists_fresh hmade
          simp only [hmade] at h
          cases hwork : mergeAndStore format dryRun into input output fs₁ with
          | mk made fs₂ =>
              rw [hwork] at h
              obtain ⟨rfl, rfl⟩ := Prod.mk.inj h
              exact same_of_sheltered hfs hfresh (mergeAndStore_quiet
                (hfresh.grows.wellFormed hfs) hfresh.there hinput hquiet hwork)

-- ============================================================ what a single run stores

/-- The interim state of a repository is stored, and nothing else has changed but by making the
directories that lead to it. -/
structure StoresAlone (fs fs' : FileSystem) (output name text : String) : Prop where
  here : fs'.here = fs.here
  holds : fs'.read (join output ("current/" ++ name ++ ".json")) = .ok (Utf8.encode text)
  alone : ∀ {q : Place}, fs'.get? q ≠ fs.get? q →
    q = fs.target (join output "current") ++ [name ++ ".json"]
    ∨ (Way (fs.origin (join output "current")) (segments (join output "current")) q
        ∧ fs.get? q = none ∧ fs'.get? q = some .directory)

theorem storesAlone_of_store {path text : String} (hname : IsName name)
    (h : store (.directory path) ⟨path⟩ ("current/" ++ name ++ ".json") text fs = (.ok (), fs')) :
    StoresAlone fs fs' path name text := by
  have hcurrent : "current" ≠ "" := by decide
  have hkey : "current/" ++ name ++ ".json" = "current" ++ "/" ++ (name ++ ".json") := by
    rw [← String.append_assoc]
    rfl
  have hfile : segments (name ++ ".json") = [(name ++ ".json").toList] := by
    have hone := segments_of_not_mem (isName_json hname).2
    rwa [String.ofList_toList] at hone
  obtain ⟨fs₁, p, n, hgrows, hsite, hfree, hput⟩ := store_ok h
  have hway := fun q => upload_way (q := q) (during_ok.mp h)
  have hplace : p ++ [n] = fs.target (join path "current") ++ [name ++ ".json"] := by
    rw [hsite.eq_target, target_of_here hgrows.here, hkey, target_slash fs hcurrent, hfile,
      arrive_cons, arrive_nil, advance_name (isName_json hname).1, String.ofList_toList]
  have hview := get?_put fs₁ (p := p ++ [n]) (by simp) (.file (Utf8.encode text))
  rw [← hput] at hview
  have hkeeps : KeepsDirectories fs₁ fs' := hput ▸ keepsDirectories_put hfree _
  refine ⟨hkeeps.here.trans hgrows.here, ?_, ?_⟩
  · exact read_ok (hsite.mono hkeeps).locate (by rw [hview, if_pos rfl])
  · intro q hchanged
    by_cases hq : q = p ++ [n]
    · exact Or.inl (hq.trans hplace)
    · right
      -- what is not the file itself is a directory that was made for it
      have hbetween : fs'.get? q = fs₁.get? q := by rw [hview, if_neg hq]
      obtain ⟨hbefore, hmade⟩ := hgrows.changed (hbetween ▸ hchanged)
      refine ⟨?_, hbefore, hbetween.trans hmade⟩
      have hon := hway q ⟨hbefore, by rw [hbetween, hmade]; simp⟩
      rw [hkey] at hon
      rcases (way_slash hcurrent).mp hon with hleading | hbelow
      · exact hleading
      · rw [hfile] at hbelow
        rcases hbelow.end_or_before with hend | hstart
        · rw [arrive_cons, arrive_nil, advance_name (isName_json hname).1,
            String.ofList_toList, ← hplace] at hend
          exact absurd hend hq
        · obtain rfl := hstart.eq_of_idle (by simp)
          exact Way.last _ _

theorem runSingle_stores (hfs : fs.WellFormed)
    (h : runSingle s false env input output fs = (.ok (), fs')) :
    ∃ source path place name blocks, input = .directory source ∧ output = .directory path
      ∧ fs.resolve source = .ok place ∧ place.getLast? = some name
      ∧ analyzeRepository s env input fs = .ok (name, blocks)
      ∧ StoresAlone fs fs' path name (Interim.write blocks) := by
  rcases runSingle_cases h with ⟨-, hdry | hfailed⟩ | ⟨-, path, name, blocks, rfl, hanalysis, hstore⟩
  · cases hdry
  · exact absurd rfl hfailed
  · cases input with
    | blob account container => cases hanalysis
    | directory source =>
        obtain ⟨place, hresolve, hanalyzed⟩ := analyzeRepository_ok hfs hanalysis
        obtain ⟨-, e, hget⟩ := resolve_ok hresolve
        have hnames : ∀ n ∈ place, IsName n := fun n hn => (hfs.proper hget n hn).isName
        exact ⟨source, path, place, name, blocks, rfl, rfl, hresolve, hanalyzed.getLast? hnames,
          hanalysis, storesAlone_of_store (hnames name (hanalyzed.mem hnames)) hstore⟩

-- ============================================================ whole runs of the program

/-- The endings of a run that may have stored something. -/
def Ending.MayHaveStored : Ending → Prop
  | .done => True
  | .failed e => e.IsStoring
  | _ => False

theorem during_ask_ok {α : Type} {f : FileSystem → Except Failure α} {x : α}
    (h : f fs = .ok x) (activity : Activity) : (Action.ask f).during activity fs = (.ok x, fs) := by
  apply during_ok.mpr
  rw [ask_eq, h]

theorem during_ask_error {α : Type} {f : FileSystem → Except Failure α} {e : Failure}
    (h : f fs = .error e) (activity : Activity) :
    (Action.ask f).during activity fs = (.error (.during activity e), fs) := by
  unfold during mapError
  rw [ask_eq, h]

/-- An invocation fails on a location and has changed nothing, or it runs its command. -/
theorem Invocation.run_cases {i : Invocation} {download : String}
    (h : i.run env download fs = (result, fs')) :
    (fs' = fs ∧ result ≠ .ok ())
    ∨ ∃ input output, Location.parse env i.input = .ok input
      ∧ Location.parse env i.output = .ok output
      ∧ (match i.command with
          | .single s => runSingle s i.dryRun env input output
          | .global format => runGlobal format i.dryRun download input output) fs
        = (result, fs') := by
  unfold Invocation.run at h
  cases hparse : Location.parse env i.input with
  | error e =>
      rw [bind_error (during_ask_error hparse _)] at h
      cases h
      exact Or.inl ⟨rfl, by simp⟩
  | ok input =>
      rw [bind_ok (during_ask_ok hparse _)] at h
      cases hparse' : Location.parse env i.output with
      | error e =>
          rw [bind_error (during_ask_error hparse' _)] at h
          cases h
          exact Or.inl ⟨rfl, by simp⟩
      | ok output =>
          rw [bind_ok (during_ask_ok hparse' _)] at h
          exact Or.inr ⟨input, output, rfl, rfl, h⟩

/-- How the run of an invocation ends. -/
theorem run_of_invocation {args : List String} {suffix : String} {ending : Ending} {i : Invocation}
    (hargs : readArguments env args = .ok i) (h : run args env suffix fs = (ending, fs')) :
    ∃ result, i.run env (downloadPath fs env suffix) fs = (result, fs')
      ∧ (ending = .done → result = .ok ())
      ∧ (¬ ending.MayHaveStored → ∃ e, result = .error e ∧ ¬ e.IsStoring) := by
  unfold run at h
  rw [hargs] at h
  simp only at h
  cases hrun : i.run env (downloadPath fs env suffix) fs with
  | mk result fs₁ =>
      rw [hrun] at h
      refine ⟨result, ?_⟩
      split at h
      next heq =>
        cases heq
        cases h
        exact ⟨rfl, fun _ => rfl, fun hnot => absurd trivial hnot⟩
      next heq =>
        cases heq
        cases h
        refine ⟨rfl, nofun, fun _ => ⟨_, rfl, ?_⟩⟩
        rintro ⟨key, location, cause, hcause⟩
        cases hcause
      next heq =>
        cases heq
        cases h
        exact ⟨rfl, nofun, fun hnot => ⟨_, rfl, hnot⟩⟩

/-- A run of the program that was asked to store nothing, or that ended otherwise than well or
with a failure to store, leaves the file system as it was. A run over one repository that ended well
has stored the interim state of the repository and nothing else.

The path of a directory that is merged must not lead out of where it starts behind a leading dot,
because the copies follow it there, out of the private directory. -/
theorem run_all_or_nothing {args : List String} {env : Environment} {suffix : String}
    {fs fs' : FileSystem} {ending : Ending} (hfs : fs.WellFormed)
    (hinput : ∀ i format root, readArguments env args = .ok i → i.command = .global format →
      Location.parse env i.input = .ok (.directory root) → StaysBelow (inner root))
    (hrun : run args env suffix fs = (ending, fs')) :
    ((∃ i, readArguments env args = .ok i ∧ i.dryRun = true) ∨ ¬ ending.MayHaveStored → fs.Same fs')
    ∧ ∀ i s, readArguments env args = .ok i → i.command = .single s → i.dryRun = false →
        ending = .done →
        ∃ input output place name blocks, Location.parse env i.input = .ok (.directory input)
          ∧ Location.parse env i.output = .ok (.directory output)
          ∧ fs.resolve input = .ok place ∧ place.getLast? = some name
          ∧ analyzeRepository s env (.directory input) fs = .ok (name, blocks)
          ∧ StoresAlone fs fs' output name (Interim.write blocks) := by
  constructor
  · intro hnothing
    cases hargs : readArguments env args with
    | error stop =>
        unfold run at hrun
        rw [hargs] at hrun
        have hsame : fs' = fs := by
          cases stop with
          | usage => exact (Prod.mk.inj hrun).2.symm
          | version => exact (Prod.mk.inj hrun).2.symm
          | help => exact (Prod.mk.inj hrun).2.symm
        rw [hsame]
        exact Same.refl fs
    | ok i =>
        obtain ⟨result, hresult, -, hfailed⟩ := run_of_invocation hargs hrun
        have hquiet : Quiet i.dryRun result := by
          rcases hnothing with ⟨j, hj, hdry⟩ | hnot
          · obtain rfl := Except.ok.inj (hargs.symm.trans hj)
            exact Or.inl hdry
          · exact Or.inr (hfailed hnot)
        rcases Invocation.run_cases hresult with ⟨hsame, -⟩ | ⟨input, output, hparse, -, hcommand⟩
        · rw [hsame]
          exact Same.refl fs
        · cases hwhich : i.command with
          | single s =>
              rw [hwhich] at hcommand
              rw [runSingle_quiet hquiet hcommand]
              exact Same.refl fs
          | global format =>
              rw [hwhich] at hcommand
              refine runGlobal_quiet hfs ?_ hquiet hcommand
              intro root hroot
              exact hinput i format root hargs hwhich (hroot ▸ hparse)
  · intro i s hargs hwhich hstores hdone
    obtain ⟨result, hresult, hok, -⟩ := run_of_invocation hargs hrun
    obtain rfl := hok hdone
    rcases Invocation.run_cases hresult with ⟨-, hfailed⟩ | ⟨input, output, hparse, hparse', hcommand⟩
    · exact absurd rfl hfailed
    · rw [hwhich, hstores] at hcommand
      obtain ⟨source, path, place, name, blocks, rfl, rfl, hresolve, hname, hanalysis, hstored⟩ :=
        runSingle_stores hfs hcommand
      exact ⟨source, path, place, name, blocks, hparse, hparse', hresolve, hname, hanalysis, hstored⟩

-- ============================================================ a directory above the working one

/-- A working directory with one file, next to where temporary files are kept. -/
def workplace : FileSystem where
  entries := [(["tmp"], .directory), (["w"], .directory), (["w", "a"], .file [])]
  here := ["w"]
  distinct := by decide

theorem wellFormed_workplace : workplace.WellFormed := by decide

/-- What is asked for with a path as input and nothing to be stored. -/
def dryArguments (path : String) : List String := ["gc", "--dry-run", "-i", "local://" ++ path]

def storeArguments : List String := ["sc", "-i", "local:///w", "-o", "local:///o"]

/-- A run that stores nothing leaves everything as it was, and a run that stores an interim state
leaves everything else. -/
theorem run_all_or_nothing_workplace :
    workplace.Same (run (dryArguments "/w") ["HOME=/w"] "x" workplace).2
    ∧ ∃ output name blocks, StoresAlone workplace
        (run storeArguments ["HOME=/w"] "x" workplace).2 output name (Interim.write blocks) := by
  have hdry : readArguments ["HOME=/w"] (dryArguments "/w")
      = .ok ⟨"local:///w", "local://$HOME/.gendoc", false, true, .global "yaml"⟩ :=
    ok_of_toOption (by decide +kernel)
  have hstores : readArguments ["HOME=/w"] storeArguments
      = .ok ⟨"local:///w", "local:///o", false, false, .single ⟨"", "", "", "C#", none, false, 20⟩⟩ :=
    ok_of_toOption (by decide +kernel)
  have hparse : Location.parse ["HOME=/w"] "local:///w" = .ok (.directory "/w") :=
    ok_of_toOption (by decide +kernel)
  have hdone : (run storeArguments ["HOME=/w"] "x" workplace).1 = .done := by
    have hcode : (match (run storeArguments ["HOME=/w"] "x" workplace).1 with
        | .done => true
        | _ => false) = true := by decide +kernel
    split at hcode
    next h => exact h
    next => cases hcode
  constructor
  · refine (run_all_or_nothing wellFormed_workplace ?_ rfl).1 (Or.inl ⟨_, hdry, rfl⟩)
    intro i format root hi hwhich hroot
    obtain rfl := Except.ok.inj (hdry.symm.trans hi)
    obtain rfl := Location.directory.inj (Except.ok.inj (hparse.symm.trans hroot))
    exact staysBelow_of_no_up (by decide +kernel)
  · obtain ⟨-, output, -, name, blocks, -, -, -, -, -, hstored⟩ :=
      (run_all_or_nothing wellFormed_workplace (by
        intro i format root hi hwhich
        obtain rfl := Except.ok.inj (hstores.symm.trans hi)
        cases hwhich) rfl).2 _ _ hstores rfl rfl hdone
    exact ⟨output, name, blocks, hstored⟩

/-- A path that goes up behind a leading dot takes the copies out of the private directory, and
there they stay, although nothing was to be stored and the run ended well. -/
theorem not_same_of_dry_run :
    (readArguments ["HOME=/w"] (dryArguments "./../w")).toOption.map (·.dryRun) = some true
    ∧ (run (dryArguments "./../w") ["HOME=/w"] "x" workplace).1.code = 0
    ∧ ¬ workplace.Same (run (dryArguments "./../w") ["HOME=/w"] "x" workplace).2 := by
  have hrun : (run (dryArguments "./../w") ["HOME=/w"] "x" workplace).1.code = 0
      ∧ (run (dryArguments "./../w") ["HOME=/w"] "x" workplace).2.get? ["tmp", "w", "a"]
        = some (.file []) := by decide +kernel
  refine ⟨by decide +kernel, hrun.1, ?_⟩
  intro hsame
  have hcopy := hsame.view ["tmp", "w", "a"]
  rw [hrun.2] at hcopy
  cases hcopy

end CommandLine

end EventDocs
