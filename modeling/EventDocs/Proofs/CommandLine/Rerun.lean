import EventDocs.Proofs.CommandLine.GlobalRuns
import EventDocs.Proofs.Interim.Objects
import EventDocs.Proofs.Interim.RoundTrip
import EventDocs.Proofs.Text.Utf8

/-
A second run over one storage.

Input and output of a run may be the same storage. The documents of a first run are then among
the files that a second one lists, and nothing but the ends of their names tells them from
interim states. Documents in YAML end with their own extension and are never taken for interim
states. Documents in JSON are, unless they are passed over or lie elsewhere, and as none of them
is an interim state, the second run fails on them. This is the only way in which a second run can
differ from the first (`runGlobal_again_iff`).
-/

namespace EventDocs.CommandLine

open EventDocs.Path FileSystem Listing Storage EventDocs.Action

variable {fs fs₁ fs₂ fs₃ fs' : FileSystem} {root into key n : String} {s d p names : Place}
  {blocks : List Block} {format : Format} {dryRun : Bool}
  {documents : List (String × String)} {located : List (Place × Bytes)}

-- ============================================================ documents and interim states

/-- A listing of the storage shows the document with a key, under a name that interim states
have. -/
def TakenForInterim (fs : FileSystem) (root key : String) : Prop :=
  ∃ files, fs.list? root = some files ∧ ∃ f ∈ files, f.extension = "json"
    ∧ ∃ p, fs.locate f.path = .ok p ∧ fs.locate (join root key) = .ok p

theorem takenForInterim_iff (hfs : fs.WellFormed) (hstat : fs.stat root = .ok (s, .directory))
    (hsite : fs.Site (join root key) p n) :
    TakenForInterim fs root key ↔ ∃ names ∈ interims fs root s, s ++ names = p ++ [n] := by
  have hlocated : ∀ names ∈ shown fs root s, fs.locate (found root names) = .ok (s ++ names) := by
    intro names hmem
    obtain ⟨⟨hne, c, hget⟩, hshows⟩ := mem_shown.mp hmem
    exact locate_found hfs (stat_ok_iff.mp hstat).1 (searchPath?_of_shows hshows) hget hne
      (fits_of_shows hshows)
  constructor
  · intro hsome
    obtain ⟨files, hfiles, f, hf, hextension, q, hq, hkey⟩ := hsome
    rw [list?_eq hfs hstat] at hfiles
    obtain rfl := Option.some.inj hfiles
    obtain ⟨names, hmem, rfl⟩ := List.mem_map.mp hf
    have hinterim := extension_listed hfs hmem
    rw [hextension, decide_eq_true rfl] at hinterim
    have hsame : fs.locate (found root names) = .ok q := hq
    rw [hlocated names hmem] at hsame
    rw [hsite.locate, ← hsame] at hkey
    exact ⟨names, List.mem_filter.mpr ⟨hmem, hinterim.symm⟩, (Except.ok.inj hkey).symm⟩
  · intro hsome
    obtain ⟨names, hmem, hplace⟩ := hsome
    obtain ⟨hshown, hinterim⟩ := List.mem_filter.mp hmem
    refine ⟨_, list?_eq hfs hstat, _, List.mem_map_of_mem hshown, ?_, s ++ names,
      hlocated names hshown, ?_⟩
    · rw [← extension_listed hfs hshown] at hinterim
      exact of_decide_eq_true hinterim
    · rw [hplace]
      exact hsite.locate

theorem getLast?_of_append_eq {xs ys zs : Place} (hne : ys ≠ []) (h : xs ++ ys = zs ++ [n]) :
    ys.getLast? = some n := by
  have hlast := congrArg List.getLast? h
  rw [List.getLast?_append, List.getLast?_concat, List.getLast?_eq_some_getLast hne,
    Option.some_or] at hlast
  rw [List.getLast?_eq_some_getLast hne, hlast]

/-- The name at the end of a document's path ends with the extension of the format. -/
theorem exists_name_of_document {x : String × String} (hx : x ∈ documentsOf format blocks)
    (hsite : fs.Site (join root x.1) p n) :
    ∃ t, n.toList = t ++ '.' :: format.extension.toList := by
  obtain ⟨d, -, rfl⟩ := List.mem_map.mp hx
  have hslash : '/' ∉ '.' :: format.extension.toList := by
    cases format with
    | yaml => decide
    | json => decide
  have hend : "." ++ format.extension = .ofList ('.' :: format.extension.toList) := by
    rw [String.ofList_cons, String.ofList_toList]
    rfl
  obtain ⟨front, hfront⟩ := join_append root ("asyncapi/" ++ d.serviceId) ("." ++ format.extension)
  obtain ⟨S, t, -, hsegments⟩ := segments_append hslash front
  obtain ⟨S', hsegments', -⟩ := hsite.walk
  rw [← String.append_assoc] at hfront
  simp only [hfront, hend, hsegments] at hsegments'
  exact ⟨t, (List.cons.inj (List.append_inj' hsegments' rfl).2).1.symm⟩

/-- Documents in YAML are not taken for interim states. -/
theorem not_interim_of_yaml {x : String × String} (hx : x ∈ documentsOf .yaml blocks)
    (hsite : fs.Site (join root x.1) p n) (hmem : names ∈ interims fs' root s)
    (hplace : s ++ names = p ++ [n]) : False := by
  obtain ⟨hne, -, -, hinterim⟩ := mem_interims.mp hmem
  obtain ⟨t, ht⟩ := exists_name_of_document hx hsite
  have hname : n = .ofList (t ++ '.' :: ['y', 'm', 'l']) := by
    rw [← String.toList_inj, ht, String.toList_ofList]
    rfl
  unfold isInterim at hinterim
  rw [getLast?_of_append_eq hne hplace, Option.getD_some, hname, extension_append (by decide)]
    at hinterim
  by_cases hempty : t = []
  · rw [if_pos hempty] at hinterim
    exact absurd hinterim (by decide)
  · rw [if_neg hempty] at hinterim
    exact absurd hinterim (by decide)

/-- One file that is no interim state, under the name of one, fails the merge. -/
theorem merged?_eq_none (hmem : names ∈ interims fs root s)
    (hread : Interim.read? (textAt fs (s ++ names)) = none) : merged? fs root s = none := by
  have hall : ∀ (xs : List String) (states : List (List Block)),
      List.Forall₂ (fun x y => Interim.read? x = some y) xs states →
      ∀ x ∈ xs, Interim.read? x ≠ none := by
    intro xs states h
    induction h with
    | nil => simp
    | cons hxy _ ih =>
        intro x hx
        rcases List.mem_cons.mp hx with rfl | hx
        · rw [hxy]
          simp
        · exact ih x hx
  unfold merged? blocksOf?
  cases hstates : ((interims fs root s).map fun names => textAt fs (s ++ names)).mapM Interim.read?
    with
  | none => rfl
  | some states =>
      exact absurd hread (hall _ states (mapM_some_iff.mp hstates) _ (List.mem_map_of_mem hmem))

-- ============================================================ what the second run merges

theorem mem_published {x : String × String} (hx : x ∈ published format dryRun blocks) :
    x ∈ documentsOf format blocks := by
  unfold published at hx
  split at hx
  · cases hx
  · exact hx

/-- A document that is taken for an interim state fails the second run. -/
theorem merged?_of_taken
    (hpublished : Published fs fs' root (published format dryRun blocks) located)
    (hmem : names ∈ interims fs' root s) {c : Bytes}
    (hwritten : written located (s ++ names) = some c) : merged? fs' root s = none := by
  obtain ⟨x, hx, p, n, hsite, hl⟩ := hpublished.sites.exists_document (mem_of_written hwritten)
  obtain ⟨hplace, rfl⟩ := Prod.mk.inj hl
  have htext : textAt fs' (s ++ names) = x.2 := by
    rw [textAt, hpublished.content_of_written hwritten]
    exact Utf8.decode_encode x.2
  cases format with
  | yaml => exact absurd (not_interim_of_yaml (mem_published hx) hsite hmem hplace) id
  | json =>
      obtain ⟨d, -, rfl⟩ := List.mem_map.mp (mem_published hx)
      apply merged?_eq_none hmem
      rw [htext]
      exact Interim.read?_render_json d.document

/-- If no document is taken for an interim state, the interim states are what they were. -/
theorem merged?_of_not_taken (hpublished : Published fs fs' root documents located)
    (hfs' : fs'.WellFormed) (hstat : fs'.stat root = .ok (s, .directory))
    (hnot : ∀ x ∈ documents, ¬ TakenForInterim fs' root x.1) :
    merged? fs' root s = merged? fs root s := by
  apply merged?_congr
  intro names hshows hinterim
  rw [hpublished.content]
  cases hwritten : written located (s ++ names) with
  | none => rfl
  | some c =>
      obtain ⟨x, hx, p, n, hsite, hl⟩ := hpublished.sites.exists_document (mem_of_written hwritten)
      have hne : names ≠ [] := by
        intro hnil
        rw [hnil] at hinterim
        exact absurd hinterim (by decide)
      have hmem : names ∈ interims fs' root s :=
        mem_interims.mpr ⟨hne, ⟨c, hpublished.content_of_written hwritten⟩, hshows, hinterim⟩
      exact absurd ((takenForInterim_iff hfs' hstat hsite).mpr ⟨names, hmem, (Prod.mk.inj hl).1⟩)
        (hnot x hx)

/-- What a run over one storage leaves, if the name of its private directory is said neither in
the path of the storage nor in the key of a document. -/
theorem published_of_run {name storage first : String} (hfs : fs.WellFormed)
    (hwithin : ∀ t ∈ inner storage, t ≠ ['.', '.']) (hname : Format.ofName name = .ok format)
    (hfirst : isAbsolute first = true) (hmade : fs.makeDirectory first = .ok fs₁)
    (hmerged : downloadAndMerge (.directory storage) first fs₁ = (.ok blocks, fs₂))
    (hrun : runGlobal name dryRun first (.directory storage) (.directory storage) fs
      = (.ok (), fs'))
    (hprivate : ∀ n, fileName? first = some n → n.toList ∉ segments storage
      ∧ ∀ x ∈ published format dryRun blocks, n.toList ∉ segments x.1) :
    ∃ s located, fs'.stat storage = .ok (s, .directory) ∧ merged? fs storage s = some blocks
      ∧ Published fs fs' storage (published format dryRun blocks) located := by
  obtain ⟨format', fs₁', blocks', fs₂', fs₄, hname', hmade', hmerged', hstore, hremove⟩ :=
    runGlobal_ok_iff.mp hrun
  rw [hname] at hname'
  cases hname'
  rw [hmade] at hmade'
  cases hmade'
  rw [hmerged] at hmerged'
  cases hmerged'
  obtain ⟨d, n, hfresh⟩ := exists_fresh hmade
  obtain ⟨s, hstat₁⟩ := stat_of_downloadAndMerge hmerged
  obtain ⟨hstorage, hkeys⟩ := hprivate n hfresh.name
  obtain ⟨located, hpublished⟩ := files_of_run hfs (staysBelow_of_no_up hwithin) hmade
    hmerged hstore (by
    intro m hm x hx hmem
    rw [hfresh.name] at hm
    obtain rfl := Option.some.inj hm
    rcases mem_segments_join hmem with hmem | hmem
    · exact hstorage hmem
    · exact hkeys x hx hmem)
  rw [← hremove] at hpublished
  obtain ⟨hblocks, -⟩ := downloadAndMerge_ok (hfresh.ready hfs hstat₁ hwithin) hfirst hmerged
  rw [merged?_of_grows hfresh.grows] at hblocks
  exact ⟨s, located, hpublished.keeps.stat (hfresh.stat_before hfs hstorage hstat₁), hblocks,
    hpublished⟩

/-- A run that can merge succeeds if what its documents need is in place, and it leaves nothing
behind but them. -/
theorem runGlobal_succeeds {name : String} (hname : Format.ofName name = .ok format)
    (hfs : fs.WellFormed) (hstat : fs.stat root = .ok (s, .directory))
    (hwithin : ∀ t ∈ inner root, t ≠ ['.', '.']) (habsolute : isAbsolute into = true)
    (hmade : fs.makeDirectory into = .ok fs₁)
    (hfits : ∀ names ∈ shown fs root s, fits (copyPath root into names) = true)
    (hmerged : merged? fs root s = some blocks)
    (hsites : Located fs root (published format dryRun blocks) located)
    (hfree : ∀ l ∈ located, fs₁.get? l.1 ≠ some .directory) :
    ∃ fs', runGlobal name dryRun into (.directory root) (.directory root) fs = (.ok (), fs')
      ∧ fs'.here = fs.here
      ∧ ∀ p, fs'.get? p = ((written located p).map .file).or (fs.get? p) := by
  obtain ⟨d, n, hfresh⟩ := exists_fresh hmade
  have hready := hfresh.ready hfs (hfresh.stat hstat) hwithin
  have hfits₁ : ∀ names ∈ shown fs₁ root s, fits (copyPath root into names) = true := by
    intro names hmem
    obtain ⟨⟨hne, c, hget⟩, hshows⟩ := mem_shown.mp hmem
    exact hfits names (mem_shown.mpr ⟨⟨hne, c, hfresh.grows.file_iff.mp hget⟩, hshows⟩)
  obtain ⟨fs₂, hdownload, hcopied, hconfined⟩ := downloadAndMerge_succeeds hready habsolute hfits₁
    ((merged?_of_grows hfresh.grows).trans hmerged)
  -- no document goes into the private directory, as what it goes into was there before
  have houtside : ∀ l ∈ located, ¬ d <+: l.1 := by
    intro l hl hbelow
    obtain ⟨x, -, p, m, hsite, rfl⟩ := hsites.exists_document hl
    rcases List.prefix_concat_iff.mp hbelow with heq | hbelow
    · exact hfree _ hl (heq ▸ (stat_ok_iff.mp hfresh.there).2)
    · exact hfresh.not_below hfs hsite.directory hbelow
  have hkeeps := hfresh.grows.keepsDirectories.trans hcopied.keeps
  obtain ⟨fs₃, hstore, hkeeps₃, hview⟩ := storeAll_again (.directory root) (hsites.mono hkeeps) (by
    intro l hl
    rw [hconfined.frame (houtside l hl)]
    exact hfree l hl)
  have hkeeps₁ := hcopied.keeps.trans hkeeps₃
  have hremoved := removed_of_stat (hkeeps₁.stat hfresh.there) hfresh.ne_nil
  refine ⟨_, runGlobal_ok_iff.mpr ⟨format, fs₁, blocks, fs₂, fs₃, hname, hmade, hdownload, hstore,
    rfl⟩, ?_, ?_⟩
  · rw [hremoved.here, hkeeps₁.here, hfresh.grows.here]
  intro p
  rw [hremoved.view]
  by_cases hp : d <+: p
  · have hwritten : written located p = none := by
      cases hw : written located p with
      | none => rfl
      | some c => exact absurd hp (houtside _ (mem_of_written hw))
    rw [if_pos hp, hwritten]
    cases hget : fs.get? p with
    | none => rfl
    | some e => exact absurd hp (hfresh.not_below hfs hget)
  · have hne : p ≠ d := by
      intro heq
      rw [heq] at hp
      exact hp (List.prefix_refl d)
    rw [if_neg hp, hview, hconfined.frame hp, hfresh.same hne]

/-- A run that merges what was merged before stores what was stored before. -/
theorem runGlobal_of_merged {name : String} (hname : Format.ofName name = .ok format)
    (hpublished : Published fs fs' root (published format dryRun blocks) located)
    (hfs' : fs'.WellFormed) (hstat : fs'.stat root = .ok (s, .directory))
    (hwithin : ∀ t ∈ inner root, t ≠ ['.', '.']) (habsolute : isAbsolute into = true)
    (hmade : fs'.makeDirectory into = .ok fs₁)
    (hfits : ∀ names ∈ shown fs' root s, fits (copyPath root into names) = true)
    (hmerged : merged? fs' root s = some blocks) :
    ∃ fs'', runGlobal name dryRun into (.directory root) (.directory root) fs' = (.ok (), fs'')
      ∧ ∀ p, fs''.get? p = fs'.get? p := by
  have hcontent : ∀ {p c}, written located p = some c → fs'.get? p = some (.file c) :=
    fun hwritten => contentAt?_eq_some.mp (hpublished.content_of_written hwritten)
  obtain ⟨fs'', hrun, -, hview⟩ := runGlobal_succeeds hname hfs' hstat hwithin habsolute hmade hfits
    hmerged hpublished.sites (by
      intro l hl
      obtain ⟨c, hc⟩ := exists_written hl
      rw [(grows_of_makeDirectory hmade).keeps (hcontent hc)]
      simp)
  refine ⟨fs'', hrun, ?_⟩
  intro p
  rw [hview]
  cases hwritten : written located p with
  | none => rfl
  | some c => exact (hcontent hwritten).symm

/-- No run succeeds over a storage that cannot be merged. -/
theorem not_runGlobal_of_merged {name : String} (hfs : fs.WellFormed)
    (hstat : fs.stat root = .ok (s, .directory)) (hwithin : ∀ t ∈ inner root, t ≠ ['.', '.'])
    (habsolute : isAbsolute into = true) (hmerged : merged? fs root s = none) :
    runGlobal name dryRun into (.directory root) (.directory root) fs ≠ (.ok (), fs') := by
  intro hrun
  obtain ⟨-, fs₁, blocks, fs₂, -, -, hmade, hdownload, -⟩ := runGlobal_ok_iff.mp hrun
  obtain ⟨d, n, hfresh⟩ := exists_fresh hmade
  have hready := hfresh.ready hfs (hfresh.stat hstat) hwithin
  obtain ⟨hsome, -⟩ := downloadAndMerge_ok hready habsolute hdownload
  rw [merged?_of_grows hfresh.grows, hmerged] at hsome
  cases hsome

-- ============================================================ a storage with one interim state

/-- A block that makes a service known. -/
def titleBlock : Block where
  beginToken := ⟨.beginMarker, "", "", 1, 1, ⟨"A.cs", "A.cs"⟩⟩
  label := { category := some .info, contentType := some .title, id := "a" }
  precedence := .service
  value := "A"
  endToken := ⟨.endMarker, "", "", 3, 1, ⟨"A.cs", "A.cs"⟩⟩

/-- The interim state of this block in a storage that has been published before. -/
def oneService : FileSystem where
  entries := [(["tmp"], .directory), (["store"], .directory), (["store", "asyncapi"], .directory),
    (["store", "current"], .directory),
    (["store", "current", "a.json"], .file (Utf8.encode (Interim.write [titleBlock])))]
  here := []
  distinct := by decide

theorem wellFormed_oneService : oneService.WellFormed := by decide

theorem stat_oneService : oneService.stat "/store" = .ok (["store"], .directory) := rfl

theorem merged?_oneService : merged? oneService "/store" ["store"] = some [titleBlock] := by
  have hinterims : interims oneService "/store" ["store"] = [["current", "a.json"]] := by
    decide +kernel
  have htext : textAt oneService ["store", "current", "a.json"] = Interim.write [titleBlock] := by
    exact (textAt_of_file rfl).trans (Utf8.decode_encode _)
  have hread : Interim.read? (Interim.write [titleBlock]) = some [titleBlock] := by
    apply Interim.read?_write
    decide
  unfold merged? blocksOf?
  rw [hinterims]
  simp [htext, hread, Block.sorted]

theorem published_oneService (format : Format) :
    (published format false [titleBlock]).map Prod.fst = ["asyncapi/a." ++ format.extension] := by
  cases format with
  | yaml => decide +kernel
  | json => decide +kernel

/-- A run over this storage writes the document of the service and nothing else. -/
theorem runGlobal_oneService (format : Format) (name : String)
    (hname : Format.ofName name = .ok format) :
    ∃ text fs', published format false [titleBlock] = [("asyncapi/a." ++ format.extension, text)]
      ∧ runGlobal name false "/tmp/one" (.directory "/store") (.directory "/store") oneService
        = (.ok (), fs')
      ∧ fs'.WellFormed ∧ KeepsDirectories oneService fs'
      ∧ ∀ p, fs'.get? p = if p = ["store", "asyncapi", "a." ++ format.extension]
          then some (.file (Utf8.encode text)) else oneService.get? p := by
  obtain ⟨⟨key, text⟩, hpublished⟩ : ∃ x, published format false [titleBlock] = [x] := by
    apply List.length_eq_one_iff.mp
    rw [← List.length_map (f := Prod.fst), published_oneService]
    rfl
  have hkey := published_oneService format
  rw [hpublished] at hkey
  obtain rfl := (List.cons.inj hkey).1
  have hsite : oneService.Site (join "/store" ("asyncapi/a." ++ format.extension))
      ["store", "asyncapi"] ("a." ++ format.extension) := by
    cases format with
    | yaml => decide +kernel
    | json => decide +kernel
  have hfree : oneService.get? ["store", "asyncapi", "a." ++ format.extension] ≠ some .directory := by
    cases format with
    | yaml => decide +kernel
    | json => decide +kernel
  have hprivate : oneService.Site "/tmp/one" ["tmp"] "one" := by decide +kernel
  have hlocated : Located oneService "/store" (published format false [titleBlock])
      [(["store", "asyncapi", "a." ++ format.extension], Utf8.encode text)] := by
    rw [hpublished]
    exact .cons ⟨_, _, hsite, rfl⟩ .nil
  obtain ⟨fs', hrun, hhere, hview⟩ := runGlobal_succeeds hname wellFormed_oneService
    stat_oneService (by decide +kernel) (by decide) (hprivate.makeDirectory_eq (by decide))
    (by decide +kernel) merged?_oneService hlocated (by
      intro l hl
      obtain rfl := List.mem_singleton.mp hl
      rw [get?_put oneService (by simp), if_neg (by simp)]
      exact hfree)
  have hview' : ∀ p, fs'.get? p = (oneService.put ["store", "asyncapi", "a." ++ format.extension]
      (.file (Utf8.encode text))).get? p := by
    intro p
    rw [hview, written, written, Option.none_or, get?_put oneService (by simp)]
    split
    · rfl
    · rfl
  refine ⟨text, fs', hpublished, hrun, ?_, ⟨hhere, ?_⟩, ?_⟩
  · exact (wellFormed_oneService.put hsite.directory hsite.name fun h => absurd h hfree).of_view
      hhere hview'
  · intro p hp
    rw [hview']
    exact (keepsDirectories_put (p := ["store", "asyncapi"]) hfree _).keeps p hp
  · intro p
    rw [hview', get?_put oneService (by simp)]

-- ============================================================ the second run

/-- A run that succeeded, over one storage, can be repeated without changing anything if and
only if none of its documents is taken for an interim state; and documents in YAML never are.

The private directories of both runs are absolute paths, as they always are. The name of the first
one is not said in the path of the storage or in the key of a document; the second one can be made
and the paths of the copies in it are short enough. A path of the storage that begins with a dot
must not go up behind it. -/
theorem runGlobal_again_iff {fs fs₁ fs₂ fs₃ fs' : FileSystem} {name storage first second : String}
    {format : Format} {dryRun : Bool} {blocks : List Block} (hfs : fs.WellFormed)
    (hwithin : ∀ t ∈ inner storage, t ≠ ['.', '.']) (hname : Format.ofName name = .ok format)
    (hfirst : isAbsolute first = true) (hmade : fs.makeDirectory first = .ok fs₁)
    (hmerged : downloadAndMerge (.directory storage) first fs₁ = (.ok blocks, fs₂))
    (hrun : runGlobal name dryRun first (.directory storage) (.directory storage) fs
      = (.ok (), fs'))
    (hprivate : ∀ n, fileName? first = some n → n.toList ∉ segments storage
      ∧ ∀ x ∈ published format dryRun blocks, n.toList ∉ segments x.1)
    (hsecond : isAbsolute second = true) (hagain : fs'.makeDirectory second = .ok fs₃)
    (hroom : ∀ files, fs'.list? storage = some files → ∀ f ∈ files,
      fits (join second (relativeTo storage f.path)) = true) :
    ((∃ fs'', runGlobal name dryRun second (.directory storage) (.directory storage) fs'
          = (.ok (), fs'')
        ∧ ∀ p, fs''.get? p = fs'.get? p)
      ↔ ∀ x ∈ published format dryRun blocks, ¬ TakenForInterim fs' storage x.1)
    ∧ (format = .yaml → ∀ x ∈ published format dryRun blocks, ¬ TakenForInterim fs' storage x.1) := by
  obtain ⟨s, located, hstat, hblocks, hpublished⟩ := published_of_run hfs hwithin hname hfirst hmade
    hmerged hrun hprivate
  have hfs' := hpublished.wellFormed hfs
  refine ⟨⟨?_, ?_⟩, ?_⟩
  · intro hsucceeds x hx htaken
    obtain ⟨fs'', hrun', -⟩ := hsucceeds
    obtain ⟨p, m, hsite, hmem⟩ := hpublished.sites.exists_place hx
    obtain ⟨names, hnames, hplace⟩ := (takenForInterim_iff hfs' hstat hsite).mp htaken
    obtain ⟨c, hwritten⟩ := exists_written hmem
    exact not_runGlobal_of_merged hfs' hstat hwithin hsecond
      (merged?_of_taken hpublished hnames (hplace ▸ hwritten)) hrun'
  · intro hnot
    refine runGlobal_of_merged hname hpublished hfs' hstat hwithin hsecond hagain ?_
      ((merged?_of_not_taken hpublished hfs' hstat hnot).trans hblocks)
    intro names hmem
    have hmem' := List.mem_map_of_mem (f := fun names => listed (found storage names)) hmem
    have hfits := hroom _ (list?_eq hfs' hstat) _ hmem'
    rw [listed_path] at hfits
    exact hfits
  · intro hyaml x hx htaken
    subst hyaml
    obtain ⟨p, m, hsite, hmem⟩ := hpublished.sites.exists_place hx
    obtain ⟨names, hnames, hplace⟩ := (takenForInterim_iff hfs' hstat hsite).mp htaken
    exact not_interim_of_yaml (mem_published hx) hsite hnames hplace

/-- With documents in YAML a second run succeeds and changes nothing. -/
theorem runGlobal_again_yaml : ∃ fs' fs'',
    runGlobal "yaml" false "/tmp/one" (.directory "/store") (.directory "/store") oneService
      = (.ok (), fs')
    ∧ runGlobal "yaml" false "/tmp/two" (.directory "/store") (.directory "/store") fs'
      = (.ok (), fs'')
    ∧ ∀ p, fs''.get? p = fs'.get? p := by
  obtain ⟨text, fs', hpublished, hrun, hfs', hkeeps, hview⟩ := runGlobal_oneService .yaml "yaml" rfl
  have hwithin : ∀ t ∈ inner "/store", t ≠ ['.', '.'] := by decide +kernel
  obtain ⟨-, fs₁, blocks, fs₂, -, -, hmade, hmerged, -⟩ := runGlobal_ok_iff.mp hrun
  obtain ⟨d, n, hfresh⟩ := exists_fresh hmade
  -- what is merged before anything is stored
  have hready := hfresh.ready wellFormed_oneService (hfresh.stat stat_oneService) hwithin
  obtain ⟨hblocks, -⟩ := downloadAndMerge_ok hready (by decide) hmerged
  rw [merged?_of_grows hfresh.grows, merged?_oneService] at hblocks
  obtain rfl := Option.some.inj hblocks
  have hsecond : fs'.Site "/tmp/two" ["tmp"] "two" :=
    Site.mono (by decide +kernel : oneService.Site "/tmp/two" ["tmp"] "two") hkeeps
  have hagain := hsecond.makeDirectory_eq (by
    rw [hview, if_neg (by simp)]
    rfl)
  have hprivate : ∀ n, fileName? "/tmp/one" = some n → n.toList ∉ segments "/store"
      ∧ ∀ x ∈ published .yaml false [titleBlock], n.toList ∉ segments x.1 := by
    intro n hn
    have hone : fileName? "/tmp/one" = some "one" := by decide +kernel
    rw [hone] at hn
    obtain rfl := Option.some.inj hn
    refine ⟨by decide +kernel, ?_⟩
    intro x hx
    rw [hpublished] at hx
    obtain rfl := List.mem_singleton.mp hx
    show "one".toList ∉ segments "asyncapi/a.yml"
    decide +kernel
  have hroom : ∀ files, fs'.list? "/store" = some files → ∀ f ∈ files,
      fits (join "/tmp/two" (relativeTo "/store" f.path)) = true := by
    intro files hfiles f hf
    rw [list?_eq hfs' (hkeeps.stat stat_oneService)] at hfiles
    obtain rfl := Option.some.inj hfiles
    obtain ⟨names, hmem, rfl⟩ := List.mem_map.mp hf
    obtain ⟨⟨-, c, hget⟩, -⟩ := mem_shown.mp hmem
    rw [hview] at hget
    split at hget
    next hnames =>
      obtain rfl := (List.cons.inj hnames).2
      decide +kernel
    next =>
      have hentry := (mem_entries_iff (by simp)).mpr hget
      simp only [oneService, List.mem_cons, Prod.mk.injEq, reduceCtorEq, and_false, false_or,
        List.not_mem_nil, or_false, List.singleton_append, List.cons.injEq, true_and] at hentry
      obtain ⟨rfl, -⟩ := hentry
      decide +kernel
  obtain ⟨hiff, hyaml⟩ := runGlobal_again_iff wellFormed_oneService hwithin rfl (by decide) hmade
    hmerged hrun hprivate (by decide) hagain hroom
  obtain ⟨fs'', hrun', hsame⟩ := hiff.mpr (hyaml rfl)
  exact ⟨fs', fs'', hrun, hrun', hsame⟩

/-- With documents in JSON no second run succeeds. -/
theorem not_runGlobal_again_json : ∃ fs',
    runGlobal "json" false "/tmp/one" (.directory "/store") (.directory "/store") oneService
      = (.ok (), fs')
    ∧ ∀ into fs'', isAbsolute into = true →
      runGlobal "json" false into (.directory "/store") (.directory "/store") fs'
        ≠ (.ok (), fs'') := by
  obtain ⟨text, fs', hpublished, hrun, hfs', hkeeps, hview⟩ := runGlobal_oneService .json "json" rfl
  refine ⟨fs', hrun, ?_⟩
  intro into fs'' habsolute
  have hget : fs'.get? (["store"] ++ ["asyncapi", "a.json"]) = some (.file (Utf8.encode text)) := by
    rw [hview]
    exact if_pos rfl
  have hmem : ["asyncapi", "a.json"] ∈ interims fs' "/store" ["store"] :=
    mem_interims.mpr ⟨by simp, ⟨_, contentAt?_eq_some.mpr hget⟩, by decide +kernel, by decide +kernel⟩
  have hdocument : ("asyncapi/a.json", text) ∈ published .json false [titleBlock] := by
    rw [hpublished]
    exact List.mem_cons_self
  obtain ⟨d, -, hd⟩ := List.mem_map.mp (mem_published hdocument)
  apply not_runGlobal_of_merged hfs' (hkeeps.stat stat_oneService) (by decide +kernel) habsolute
  apply merged?_eq_none hmem
  rw [textAt_of_file hget, Utf8.decode_encode, ← (Prod.mk.inj hd).2]
  exact Interim.read?_render_json d.document

end EventDocs.CommandLine
