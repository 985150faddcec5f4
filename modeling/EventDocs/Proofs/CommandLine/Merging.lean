import EventDocs.CommandLine.Run
import EventDocs.Proofs.InTurn
import EventDocs.Proofs.Storage.Copies

/-
What is merged.

The interim states of a storage are read from a private copy of it. Merging what is in a
directory depends on the files that a listing of the directory shows, on their names and on
their texts (`mergeDirectory_ok_iff`), and of all this the private copy has the same as the
storage, in the same order (`merged_copied`). So what is merged is what a listing of the storage
shows, as if it had been read there.
-/

namespace EventDocs.CommandLine

open EventDocs.Path FileSystem Listing Storage EventDocs.Action

variable {fs₀ fs fs' : FileSystem} {root into : String} {s d place names : Place}
  {blocks : List Block}

-- ============================================================ results and lists

theorem filter_map_of {α β : Type} {f : α → β} {p : β → Bool} {q : α → Bool} {xs : List α}
    (h : ∀ x ∈ xs, p (f x) = q x) : (xs.map f).filter p = (xs.filter q).map f := by
  rw [List.filter_map]
  exact congrArg (List.map f) (List.filter_congr h)

theorem ok_of_toOption {ε α : Type} {x : Except ε α} {a : α} (h : x.toOption = some a) :
    x = .ok a := by
  cases x with
  | error e => cases h
  | ok b => rw [Option.some.inj h]

theorem pair_of_toOption {ε α σ : Type} {x : Except ε α × σ} {a : α} (h : x.1.toOption = some a) :
    x = (.ok a, x.2) :=
  Prod.ext (ok_of_toOption h) rfl

-- ============================================================ what a directory holds

/-- Does the name of a file say that it is an interim state? -/
def isInterim (names : Place) : Bool := extension (names.getLast?.getD "") = "json"

/-- The content of the file at a place. -/
def contentAt? (fs : FileSystem) (p : Place) : Option Bytes :=
  match fs.get? p with
  | some (.file c) => some c
  | _ => none

theorem contentAt?_eq_some {p : Place} {c : Bytes} :
    contentAt? fs p = some c ↔ fs.get? p = some (.file c) := by
  unfold contentAt?
  cases fs.get? p with
  | none => simp
  | some e =>
      cases e with
      | directory => simp
      | file b => simp

theorem contentAt?_of_files {p : Place}
    (h : ∀ c, fs'.get? p = some (.file c) ↔ fs.get? p = some (.file c)) :
    contentAt? fs' p = contentAt? fs p := by
  apply Option.ext
  intro c
  rw [contentAt?_eq_some, contentAt?_eq_some, h]

/-- The text of the file at a place. -/
def textAt (fs : FileSystem) (p : Place) : String := ((contentAt? fs p).map Utf8.decode).getD ""

/-- The interim states that a listing shows. -/
def interims (fs : FileSystem) (root : String) (s : Place) : List Place :=
  (shown fs root s).filter isInterim

/-- The blocks of some interim states, if all of them can be read. -/
def blocksOf? (texts : List String) : Option (List Block) :=
  (texts.mapM Interim.read?).map fun states => Block.sorted states.flatten

/-- The blocks of the interim states that a listing shows. -/
def merged? (fs : FileSystem) (root : String) (s : Place) : Option (List Block) :=
  blocksOf? ((interims fs root s).map fun names => textAt fs (s ++ names))

theorem textAt_of_file {p : Place} {c : Bytes} (h : fs.get? p = some (.file c)) :
    textAt fs p = Utf8.decode c := by
  rw [textAt, contentAt?_eq_some.mpr h]
  rfl

theorem mem_interims : names ∈ interims fs root s ↔ names ≠ []
    ∧ (∃ c, contentAt? fs (s ++ names) = some c) ∧ shows root names = true
    ∧ isInterim names = true := by
  unfold interims
  rw [List.mem_filter, mem_shown]
  simp only [contentAt?_eq_some]
  tauto

/-- What is merged depends on the contents of what a listing can show and take for an interim
state. -/
theorem merged?_congr (h : ∀ names, shows root names = true → isInterim names = true →
    contentAt? fs' (s ++ names) = contentAt? fs (s ++ names)) :
    merged? fs' root s = merged? fs root s := by
  have hinterims : interims fs' root s = interims fs root s := by
    refine List.Perm.eq_of_pairwise (fun p q _ _ => inOrder_antisymm p q)
      ((pairwise_shown fs' root s).sublist List.filter_sublist)
      ((pairwise_shown fs root s).sublist List.filter_sublist) ?_
    refine (List.perm_ext_iff_of_nodup ((nodup_shown fs' root s).sublist List.filter_sublist)
      ((nodup_shown fs root s).sublist List.filter_sublist)).mpr ?_
    intro names
    constructor
    · intro hmem
      obtain ⟨hne, ⟨c, hc⟩, hshows, hinterim⟩ := mem_interims.mp hmem
      exact mem_interims.mpr ⟨hne, ⟨c, h names hshows hinterim ▸ hc⟩, hshows, hinterim⟩
    · intro hmem
      obtain ⟨hne, ⟨c, hc⟩, hshows, hinterim⟩ := mem_interims.mp hmem
      exact mem_interims.mpr ⟨hne, ⟨c, (h names hshows hinterim).trans hc⟩, hshows, hinterim⟩
  unfold merged?
  rw [hinterims]
  congr 1
  apply List.map_congr_left
  intro names hmem
  obtain ⟨-, -, hshows, hinterim⟩ := mem_interims.mp hmem
  unfold textAt
  rw [h names hshows hinterim]

theorem merged?_of_grows (h : fs.Grows fs') : merged? fs' root s = merged? fs root s :=
  merged?_congr fun _ _ _ => contentAt?_of_files fun _ => h.file_iff

theorem merge_ok_iff {inputs : List Input} :
    Interim.merge inputs = .ok blocks ↔ blocksOf? (inputs.map (·.text)) = some blocks := by
  have hread : ∀ (i : Input) (state : List Block),
      Interim.ofInput i = .ok state ↔ Interim.read? i.text = some state := by
    intro i state
    unfold Interim.ofInput
    cases Interim.read? i.text with
    | none => simp
    | some blocks => simp
  have hstates : ∀ states, inputs.mapM Interim.ofInput = .ok states ↔
      (inputs.map (·.text)).mapM Interim.read? = some states := by
    intro states
    rw [mapM_ok_iff, mapM_some_iff, List.forall₂_map_left_iff]
    simp only [hread]
  unfold Interim.merge blocksOf?
  cases htexts : (inputs.map (·.text)).mapM Interim.read? with
  | none =>
      cases hinputs : inputs.mapM Interim.ofInput with
      | error e => simp [bind, Except.bind]
      | ok states =>
          rw [(hstates states).mp hinputs] at htexts
          cases htexts
  | some states =>
      rw [(hstates states).mpr htexts]
      simp [bind, Except.bind, pure, Except.pure]

theorem readInput_found (hfs : fs.WellFormed) (hstat : fs.stat root = .ok (s, .directory))
    (hmem : names ∈ shown fs root s) {n : String} :
    fs.readInput n (found root names) = .ok ⟨n, found root names, textAt fs (s ++ names)⟩ := by
  obtain ⟨⟨hne, c, hget⟩, hshows⟩ := mem_shown.mp hmem
  have hlocate := locate_found hfs (stat_ok_iff.mp hstat).1 (searchPath?_of_shows hshows) hget hne
    (fits_of_shows hshows)
  unfold readInput
  rw [read_ok hlocate hget, textAt_of_file hget]

/-- The files of a directory that are merged, as they are read. -/
theorem readInputs_shown (hfs : fs.WellFormed) (hstat : fs.stat root = .ok (s, .directory))
    (files : List Place) (hmem : ∀ names ∈ files, names ∈ shown fs root s) :
    fs.readInputs (files.map fun names => listed (found root names)) = .ok (files.map fun names =>
      ⟨(listed (found root names)).name, found root names, textAt fs (s ++ names)⟩) := by
  unfold readInputs
  rw [mapM_ok_iff, List.forall₂_map_left_iff, List.forall₂_map_right_iff, List.forall₂_same]
  intro names hnames
  exact readInput_found hfs hstat (hmem names hnames)

theorem extension_listed (hfs : fs.WellFormed) (hmem : names ∈ shown fs root s) :
    decide ((listed (found root names)).extension = "json") = isInterim names := by
  obtain ⟨hbelow, -⟩ := List.mem_filter.mp hmem
  have hne := (mem_filesBelow.mp hbelow).1
  have hlast := List.getLast?_eq_some_getLast hne
  rw [listed_found (isName_of_filesBelow hfs hbelow) hlast]
  unfold isInterim
  rw [hlast]
  rfl

/-- Merging a directory is merging what a listing of it shows. -/
theorem mergeDirectory_ok_iff (hfs : fs.WellFormed) (hstat : fs.stat root = .ok (s, .directory)) :
    mergeDirectory root fs = .ok blocks ↔ merged? fs root s = some blocks := by
  have hlist : fs.list root
      = .ok ((shown fs root s).map fun names => listed (found root names)) := by
    unfold FileSystem.list
    rw [list?_eq hfs hstat]
  have hfiles : ((shown fs root s).map fun names => listed (found root names)).filter
      (·.extension = "json") = (interims fs root s).map fun names => listed (found root names) := by
    exact filter_map_of fun names hmem => extension_listed hfs hmem
  have hinputs := readInputs_shown hfs hstat (interims fs root s)
    fun names hmem => (List.mem_filter.mp hmem).1
  have htexts : ((interims fs root s).map fun names =>
      (⟨(listed (found root names)).name, found root names, textAt fs (s ++ names)⟩ : Input)).map
        (·.text) = (interims fs root s).map fun names => textAt fs (s ++ names) := by
    rw [List.map_map]
    rfl
  unfold mergeDirectory
  rw [hlist]
  simp only [bind, Except.bind]
  rw [hfiles, hinputs, merged?, ← htexts, ← merge_ok_iff]
  dsimp only
  cases Interim.merge _ with
  | ok blocks => simp [pure, Except.pure]
  | error e => simp

-- ============================================================ the private copy

/-- Below the private directory there are the files shown, in their order. -/
theorem filesBelow_copied (h : Copied fs₀ fs root into s d (shown fs₀ root s)) :
    filesBelow fs d = (shown fs₀ root s).map (kept root ++ ·) := by
  apply filesBelow_eq
  · rw [List.pairwise_map]
    apply (pairwise_shown fs₀ root s).imp
    intro p q hpq
    rw [inOrder_append]
    exact hpq
  · apply (nodup_shown fs₀ root s).map
    intro p q hpq
    exact List.append_cancel_left hpq
  · intro q
    rw [mem_filesBelow, List.mem_map]
    constructor
    · intro hboth
      obtain ⟨-, c, hc⟩ := hboth
      obtain ⟨names, hmem, rfl, -⟩ := h.inside.mp hc
      exact ⟨names, hmem, rfl⟩
    · intro hsome
      obtain ⟨names, hmem, rfl⟩ := hsome
      obtain ⟨⟨hne, c, hget⟩, -⟩ := mem_shown.mp hmem
      exact ⟨by simp [hne], c, h.inside.mpr ⟨names, hmem, rfl, hget⟩⟩

theorem map_toList_namesOf (S : List (List Char)) :
    (namesOf S).map String.toList = S.filter (!isIdle ·) := by
  unfold namesOf
  rw [List.map_map]
  have hid : String.toList ∘ String.ofList = id := by
    funext cs
    exact String.toList_ofList
  rw [hid, List.map_id]

/-- What was shown where it came from is shown in the private directory. -/
theorem shows_copied (hready : Ready fs₀ root into s d) (habsolute : isAbsolute into = true)
    (h : Copied fs₀ fs root into s d (shown fs₀ root s)) (hmem : names ∈ shown fs₀ root s) :
    shows into (kept root ++ names) = true := by
  obtain ⟨-, hshows⟩ := mem_shown.mp hmem
  obtain ⟨hsegments, -, -⟩ := hready.walk (KeepsDirectories.refl fs₀) hmem
  have hsearch : (searchPath? into).isSome = true := by
    obtain ⟨t, rest, hrest⟩ := isAbsolute_iff.mp habsolute
    obtain ⟨search, hsome, -⟩ := searchPath?_absolute habsolute hrest
    rw [hsome]
    rfl
  have hfits : fits (found into (kept root ++ names)) = true := by
    apply fits_of_sublist _ (h.short names hmem)
    rw [hsegments, List.map_append, kept, map_toList_namesOf]
    exact (front_sublist_of_absolute habsolute).append
      (List.filter_sublist.append (List.Sublist.refl _))
  unfold shows at hshows ⊢
  simp only [Bool.and_eq_true] at hshows
  rw [hsearch, hfits, inner_of_absolute habsolute, List.map_append, kept,
    ← filterMap_namesOf hready.within]
  exact hshows.2

theorem shown_copied (hready : Ready fs₀ root into s d) (habsolute : isAbsolute into = true)
    (h : Copied fs₀ fs root into s d (shown fs₀ root s)) :
    shown fs into d = (shown fs₀ root s).map (kept root ++ ·) := by
  rw [shown, filesBelow_copied h, List.filter_eq_self]
  intro q hq
  obtain ⟨names, hmem, rfl⟩ := List.mem_map.mp hq
  exact shows_copied hready habsolute h hmem

/-- What is merged from the private copy is what a listing of the storage shows. -/
theorem merged_copied (hready : Ready fs₀ root into s d) (habsolute : isAbsolute into = true)
    (h : Copied fs₀ fs root into s d (shown fs₀ root s)) :
    merged? fs into d = merged? fs₀ root s := by
  have hinterims : interims fs into d = (interims fs₀ root s).map (kept root ++ ·) := by
    unfold interims
    rw [shown_copied hready habsolute h]
    apply filter_map_of
    intro names hmem
    obtain ⟨m, hlast⟩ : ∃ m, names.getLast? = some m :=
      ⟨_, List.getLast?_eq_some_getLast (mem_shown.mp hmem).1.1⟩
    unfold isInterim
    rw [List.getLast?_append, hlast, Option.some_or]
  unfold merged?
  rw [hinterims, List.map_map]
  congr 1
  apply List.map_congr_left
  intro names hmem
  obtain ⟨hmem, -⟩ := List.mem_filter.mp hmem
  obtain ⟨⟨-, c, hget⟩, -⟩ := mem_shown.mp hmem
  rw [Function.comp_apply, textAt_of_file (h.inside.mpr ⟨names, hmem, rfl, hget⟩),
    textAt_of_file hget]

-- ============================================================ download and merge

theorem ask_storage (root : String) (fs : FileSystem) :
    (Action.ask fun _ => Storage.ofLocation (.directory root)) fs = (.ok ⟨root⟩, fs) :=
  ask_eq _ fs

theorem downloadAndMerge_eq (root into : String) (fs : FileSystem) :
    downloadAndMerge (.directory root) into fs
      = (((Storage.mk root).fetch into).during (.fetching (Location.directory root).text)
          >>= fun _ => Action.ask (mergeDirectory into)) fs := by
  unfold downloadAndMerge
  rw [bind_ok (ask_storage root fs)]

theorem stat_copied (hready : Ready fs₀ root into s d)
    (h : Copied fs₀ fs root into s d (shown fs₀ root s)) : fs.stat into = .ok (d, .directory) :=
  h.keeps.stat hready.target

theorem ask_mergeDirectory (hready : Ready fs₀ root into s d) (habsolute : isAbsolute into = true)
    (h : Copied fs₀ fs root into s d (shown fs₀ root s)) :
    Action.ask (mergeDirectory into) fs = (.ok blocks, fs) ↔ merged? fs₀ root s = some blocks := by
  rw [ask_eq, Prod.mk.injEq, and_iff_left rfl,
    mergeDirectory_ok_iff h.wellFormed (stat_copied hready h), merged_copied hready habsolute h]

theorem downloadAndMerge_ok (hready : Ready fs root into s d) (habsolute : isAbsolute into = true)
    (h : downloadAndMerge (.directory root) into fs = (.ok blocks, fs')) :
    merged? fs root s = some blocks ∧ Copied fs fs' root into s d (shown fs root s) := by
  rw [downloadAndMerge_eq] at h
  obtain ⟨u, fs₁, hfetch, hask⟩ := of_bind_ok h
  have hcopied := fetch_ok hready (during_ok.mp hfetch)
  have hsame : fs' = fs₁ := by
    rw [ask_eq] at hask
    exact (congrArg Prod.snd hask).symm
  subst hsame
  exact ⟨(ask_mergeDirectory hready habsolute hcopied).mp hask, hcopied⟩

/-- The interim states of a storage are merged if the paths of their copies are short enough
and all of them can be read. -/
theorem downloadAndMerge_succeeds (hready : Ready fs root into s d)
    (habsolute : isAbsolute into = true)
    (hfits : ∀ names ∈ shown fs root s, fits (copyPath root into names) = true)
    (hmerged : merged? fs root s = some blocks) :
    ∃ fs', downloadAndMerge (.directory root) into fs = (.ok blocks, fs')
      ∧ Copied fs fs' root into s d (shown fs root s)
      ∧ Confined fs fs' root d (shown fs root s) := by
  obtain ⟨fs', hfetch, hconfined⟩ := fetch_succeeds hready hfits
  have hcopied := fetch_ok hready hfetch
  refine ⟨fs', ?_, hcopied, hconfined⟩
  rw [downloadAndMerge_eq, bind_ok (during_ok.mpr hfetch)]
  exact (ask_mergeDirectory hready habsolute hcopied).mpr hmerged

end EventDocs.CommandLine
