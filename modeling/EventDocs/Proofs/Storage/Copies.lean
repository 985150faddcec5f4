import EventDocs.Proofs.FileSystem.Listings
import EventDocs.Proofs.Storage.Uploads

/-
Copying a storage into a private directory.

Every file that a listing of the storage shows is copied to the path that it has as seen from
the root of the storage. For a root with a dot in front this is not what lies below the root
(`inner`), but as long as it does not go up it leads below the private directory, to the names
of the root and those of the file.

What has been copied is said by an invariant (`Copied`) that every copy keeps, so that in the
end the files below the private directory are the files shown and no others. A second one
(`Confined`) says that nothing else has changed; with it, no copy stands in the way of the
next, and the copying comes to its end (`fetch_succeeds`).
-/

namespace EventDocs.Storage

open EventDocs.Path FileSystem Listing EventDocs.Action

/-- A storage can be copied: it is a directory, its path does not go up where dots are
forgotten, and there is a directory without anything in it to copy to. -/
structure Ready (fs : FileSystem) (root into : String) (s d : Place) : Prop where
  wellFormed : fs.WellFormed
  source : fs.stat root = .ok (s, .directory)
  within : ∀ t ∈ inner root, t ≠ ['.', '.']
  target : fs.stat into = .ok (d, .directory)
  empty : ∀ q, q ≠ [] → fs.get? (d ++ q) = none

/-- The path that a file is copied to. -/
def copyPath (root into : String) (names : Place) : String :=
  join into (relativeTo root (found root names))

/-- The names of the root that a copy keeps. -/
def kept (root : String) : Place := namesOf (inner root)

variable {fs₀ fs fs₁ fs' : FileSystem} {root into n : String} {s d p names : Place}
  {done files : List Place} {c : Bytes}

-- ============================================================ where a copy goes

namespace Ready

theorem into_ne (h : Ready fs root into s d) : into ≠ "" := (text_of_stat h.target).2

theorem isName (h : Ready fs root into s d) (hmem : names ∈ shown fs root s) :
    ∀ n ∈ names, IsName n :=
  isName_of_filesBelow h.wellFormed (List.mem_filter.mp hmem).1

/-- The files of the storage are not in the private directory. -/
theorem not_below (h : Ready fs root into s d) (hget : fs.get? (s ++ names) = some (.file c)) :
    ¬ d <+: s ++ names := by
  intro hsome
  obtain ⟨q, hq⟩ := hsome
  rw [← hq] at hget
  by_cases hne : q = []
  · subst hne
    rw [List.append_nil, (stat_ok_iff.mp h.target).2] at hget
    cases hget
  · rw [h.empty q hne] at hget
    cases hget

end Ready

theorem segments_relativeTo_found (hnames : ∀ n ∈ names, IsName n) (hne : names ≠ [])
    (hsearch : (searchPath? root).isSome = true) :
    segments (relativeTo root (found root names)) = inner root ++ names.map String.toList := by
  rw [relativeTo_found hsearch hnames hne]
  apply segments_ofSegments _ (by simp [hne])
  intro t ht
  rcases List.mem_append.mp ht with ht | ht
  · exact slash_not_mem_inner ht
  · exact slash_not_mem_names hnames ht

theorem isAbsolute_relativeTo_found (hnames : ∀ n ∈ names, IsName n) (hne : names ≠ [])
    (hsearch : (searchPath? root).isSome = true) :
    isAbsolute (relativeTo root (found root names)) = false := by
  apply isAbsolute_of_head
  rw [segments_relativeTo_found hnames hne hsearch]
  intro t ht
  cases hinner : inner root with
  | cons u inner' =>
      have hhead := head_inner hsearch t
      rw [hinner] at ht hhead
      exact (hhead ht).1
  | nil =>
      obtain ⟨m, others, rfl⟩ := List.exists_cons_of_ne_nil hne
      rw [hinner] at ht
      obtain rfl := Option.some.inj ht
      intro hnil
      exact (hnames m List.mem_cons_self).ne_empty (String.toList_eq_nil_iff.mp hnil)

theorem segments_copyPath (hinto : into ≠ "") (hnames : ∀ n ∈ names, IsName n) (hne : names ≠ [])
    (hsearch : (searchPath? root).isSome = true) :
    segments (copyPath root into names)
      = stem into ++ (inner root ++ names.map String.toList) := by
  unfold copyPath
  rw [segments_join hinto (isAbsolute_relativeTo_found hnames hne hsearch),
    segments_relativeTo_found hnames hne hsearch]

theorem isAbsolute_copyPath (hinto : into ≠ "") (hnames : ∀ n ∈ names, IsName n)
    (hne : names ≠ []) (hsearch : (searchPath? root).isSome = true) :
    isAbsolute (copyPath root into names) = isAbsolute into :=
  isAbsolute_join hinto (isAbsolute_relativeTo_found hnames hne hsearch)

/-- Where the walk of a copy's path begins, and that it never goes up behind that. -/
theorem Ready.walk (h : Ready fs₀ root into s d) (hkeeps : KeepsDirectories fs₀ fs)
    (hmem : names ∈ shown fs₀ root s) :
    segments (copyPath root into names) = stem into ++ (inner root ++ names.map String.toList)
      ∧ fs.follow (fs.origin (copyPath root into names)) (stem into) = .ok d
      ∧ ∀ t ∈ inner root ++ names.map String.toList, t ≠ ['.', '.'] := by
  obtain ⟨⟨hne, c, hget⟩, hshows⟩ := mem_shown.mp hmem
  have hnames := h.isName hmem
  have hsearch := searchPath?_of_shows hshows
  obtain ⟨hinto, hd⟩ := stat_ok_iff.mp h.target
  refine ⟨segments_copyPath h.into_ne hnames hne hsearch, ?_, ?_⟩
  · rw [origin_eq fs (isAbsolute_copyPath h.into_ne hnames hne hsearch)]
    exact follow_stem (hkeeps.locate hinto) (hkeeps.keeps d hd)
  · intro t ht
    rcases List.mem_append.mp ht with ht | ht
    · exact h.within t ht
    · obtain ⟨m, hm, rfl⟩ := List.mem_map.mp ht
      exact (isName_iff.mp (hnames m hm).1).2

theorem Ready.namesOf_walk (h : Ready fs₀ root into s d) (hmem : names ∈ shown fs₀ root s) :
    namesOf (inner root ++ names.map String.toList) = kept root ++ names := by
  rw [namesOf_append, namesOf_names (h.isName hmem), kept]

/-- A copy goes below the private directory. -/
theorem Ready.site_eq (h : Ready fs₀ root into s d) (hkeeps : KeepsDirectories fs₀ fs)
    (hmem : names ∈ shown fs₀ root s) (hsite : fs.Site (copyPath root into names) p n) :
    p ++ [n] = d ++ (kept root ++ names) := by
  obtain ⟨hsegments, hstem, hup⟩ := h.walk hkeeps hmem
  obtain ⟨-, hfollow⟩ := locate_ok_iff.mp hsite.locate
  rw [hsegments] at hfollow
  obtain ⟨r, hr, hrest⟩ := follow_append_ok.mp hfollow
  rw [hstem] at hr
  obtain rfl := Except.ok.inj hr
  rw [eq_of_follow hup hrest, h.namesOf_walk hmem]

theorem Ready.checkPath_copyPath (h : Ready fs root into s d) (hmem : names ∈ shown fs root s)
    (hfits : fits (copyPath root into names) = true) :
    checkPath (copyPath root into names) = .ok () := by
  obtain ⟨⟨hne, c, hget⟩, -⟩ := mem_shown.mp hmem
  obtain ⟨hsegments, -, -⟩ := h.walk (KeepsDirectories.refl fs) hmem
  obtain ⟨hinto, -⟩ := text_of_stat h.target
  obtain ⟨hroot, -⟩ := text_of_stat h.source
  refine checkPath_ok_iff.mpr ⟨?_, ?_, of_decide_eq_true hfits⟩
  · intro hzero
    rw [← ofSegments_segments (copyPath root into names), hsegments] at hzero
    rcases mem_ofSegments hzero with hslash | ⟨t, ht, hc⟩
    · cases hslash
    · rcases List.mem_append.mp ht with ht | ht
      · exact hinto (mem_of_mem_segments ((stem_sublist into).subset ht) hc)
      · rcases List.mem_append.mp ht with ht | ht
        · exact hroot (mem_of_mem_segments ((inner_sublist root).subset ht) hc)
        · obtain ⟨m, hm, rfl⟩ := List.mem_map.mp ht
          exact (h.wellFormed.proper hget m (List.mem_append_right s hm)).noZero hc
  · intro hempty
    have hlength := congrArg List.length hsegments
    have hstem := List.length_pos_of_ne_nil (stem_ne_nil h.into_ne)
    have hnames := List.length_pos_of_ne_nil hne
    rw [hempty, show segments "" = [[]] from rfl] at hlength
    simp only [List.length_singleton, List.length_append, List.length_map] at hlength
    omega

-- ============================================================ one copy

/-- What was copied: the files below the private directory are those of the storage that are
done, and all other files are what they were. -/
structure Copied (fs₀ fs : FileSystem) (root into : String) (s d : Place) (done : List Place) :
    Prop where
  wellFormed : fs.WellFormed
  keeps : KeepsDirectories fs₀ fs
  outside : ∀ {p : Place} {c : Bytes}, ¬ d <+: p →
    (fs.get? p = some (.file c) ↔ fs₀.get? p = some (.file c))
  inside : ∀ {q : Place} {c : Bytes}, fs.get? (d ++ q) = some (.file c) ↔
    ∃ names ∈ done, q = kept root ++ names ∧ fs₀.get? (s ++ names) = some (.file c)
  short : ∀ names ∈ done, fits (copyPath root into names) = true

theorem Ready.copied_nil (h : Ready fs root into s d) : Copied fs fs root into s d [] := by
  refine ⟨h.wellFormed, KeepsDirectories.refl fs, fun _ => Iff.rfl, ?_, by simp⟩
  intro q c
  constructor
  · intro hq
    by_cases hne : q = []
    · subst hne
      rw [List.append_nil, (stat_ok_iff.mp h.target).2] at hq
      cases hq
    · rw [h.empty q hne] at hq
      cases hq
  · intro hsome
    obtain ⟨names, hmem, -⟩ := hsome
    cases hmem

/-- One more copy. -/
theorem Copied.step (hready : Ready fs₀ root into s d) (h : Copied fs₀ fs root into s d done)
    (hmem : names ∈ shown fs₀ root s) (hget : fs₀.get? (s ++ names) = some (.file c))
    (hgrows : fs.Grows fs₁) (hsite : fs₁.Site (copyPath root into names) p n)
    (hfree : fs₁.get? (p ++ [n]) ≠ some .directory) :
    Copied fs₀ (fs₁.put (p ++ [n]) (.file c)) root into s d (done ++ [names]) := by
  have hkeeps := h.keeps.trans hgrows.keepsDirectories
  have hplace := hready.site_eq hkeeps hmem hsite
  have hview := get?_put fs₁ (p := p ++ [n]) (by simp) (.file c)
  refine ⟨?_, ?_, ?_, ?_, ?_⟩
  · exact (hgrows.wellFormed h.wellFormed).put hsite.directory hsite.name
      fun hd => absurd hd hfree
  · exact hkeeps.trans (keepsDirectories_put hfree (.file c))
  · intro q c' hq
    have hne : q ≠ p ++ [n] := by
      intro heq
      subst heq
      rw [hplace] at hq
      exact hq (List.prefix_append d _)
    rw [hview, if_neg hne, hgrows.file_iff]
    exact h.outside hq
  · intro q c'
    rw [hview]
    by_cases hq : d ++ q = p ++ [n]
    · rw [if_pos hq]
      rw [hplace] at hq
      have hq' := List.append_cancel_left hq
      constructor
      · intro hc
        obtain rfl := Entry.file.inj (Option.some.inj hc)
        exact ⟨names, by simp, hq', hget⟩
      · intro hsome
        obtain ⟨names', -, hnames', hget'⟩ := hsome
        rw [hq'] at hnames'
        rw [← List.append_cancel_left hnames', hget] at hget'
        exact hget'
    · rw [if_neg hq, hgrows.file_iff, h.inside]
      rw [hplace] at hq
      constructor
      · intro hsome
        obtain ⟨names', hnames', hrest⟩ := hsome
        exact ⟨names', List.mem_append_left _ hnames', hrest⟩
      · intro hsome
        obtain ⟨names', hnames', rfl, hget'⟩ := hsome
        rcases List.mem_append.mp hnames' with hdone | hnew
        · exact ⟨names', hdone, rfl, hget'⟩
        · obtain rfl := List.mem_singleton.mp hnew
          exact absurd rfl hq
  · intro names' hnames'
    rcases List.mem_append.mp hnames' with hdone | hnew
    · exact h.short names' hdone
    · rw [List.mem_singleton.mp hnew]
      exact decide_eq_true (checkPath_ok_iff.mp hsite.check).2.2

/-- The file that is copied is still there. -/
theorem Copied.source (hready : Ready fs₀ root into s d) (h : Copied fs₀ fs root into s d done)
    (hmem : names ∈ shown fs₀ root s) (hget : fs₀.get? (s ++ names) = some (.file c)) :
    fs.locate (found root names) = .ok (s ++ names)
      ∧ fs.get? (s ++ names) = some (.file c) := by
  obtain ⟨⟨hne, -⟩, hshows⟩ := mem_shown.mp hmem
  have hlocate := locate_found hready.wellFormed (stat_ok_iff.mp hready.source).1
    (searchPath?_of_shows hshows) hget hne (fits_of_shows hshows)
  exact ⟨h.keeps.locate hlocate, (h.outside (hready.not_below hget)).mpr hget⟩

/-- A copy, once the directory that it needs is there. -/
theorem Copied.copy_eq (hready : Ready fs₀ root into s d) (h : Copied fs₀ fs root into s d done)
    (hmem : names ∈ shown fs₀ root s) (hget : fs₀.get? (s ++ names) = some (.file c))
    (hgrows : fs.Grows fs₁) (hsite : fs₁.Site (copyPath root into names) p n)
    (hfree : fs₁.get? (p ++ [n]) ≠ some .directory) :
    fs₁.copy (found root names) (copyPath root into names)
      = .ok (fs₁.put (p ++ [n]) (.file c)) := by
  obtain ⟨hlocate, hsource⟩ := h.source hready hmem hget
  have hkeeps := h.keeps.trans hgrows.keepsDirectories
  refine FileSystem.copy_eq (hgrows.keepsDirectories.locate hlocate) (hgrows.keeps hsource) hsite ?_
    hfree
  intro hsame
  rw [hready.site_eq hkeeps hmem hsite] at hsame
  exact hready.not_below hget (hsame ▸ List.prefix_append d _)

theorem fetchFile_ok (hready : Ready fs₀ root into s d) (h : Copied fs₀ fs root into s d done)
    (hmem : names ∈ shown fs₀ root s)
    (hfetch : fetchFile ⟨root⟩ into (listed (found root names)) fs = (.ok (), fs')) :
    Copied fs₀ fs' root into s d (done ++ [names]) := by
  obtain ⟨⟨-, c, hget⟩, -⟩ := mem_shown.mp hmem
  obtain ⟨u, fs₁, hparent, hcopy⟩ := of_bind_ok hfetch
  have hgrows := makeParent_grows hparent
  have hcopied := change_ok.mp (fileStep_ok.mp hcopy)
  obtain ⟨p, n, hsite, hfree⟩ := site_of_copy hcopied
  have heq := h.copy_eq hready hmem hget hgrows hsite hfree
  rw [← Except.ok.inj (heq.symm.trans hcopied)]
  exact h.step hready hmem hget hgrows hsite hfree

/-- Copying in turn keeps the account. -/
theorem forM_fetchFile_ok (hready : Ready fs₀ root into s d) (h : Copied fs₀ fs root into s d done)
    (hmem : ∀ names ∈ files, names ∈ shown fs₀ root s)
    (hfetch : (files.map fun names => listed (found root names)).forM (fetchFile ⟨root⟩ into) fs
      = (.ok (), fs')) : Copied fs₀ fs' root into s d (done ++ files) := by
  induction files generalizing fs done with
  | nil =>
      cases hfetch
      rw [List.append_nil]
      exact h
  | cons names files ih =>
      rw [List.map_cons] at hfetch
      obtain ⟨fs₁, hfirst, hrest⟩ := forM_cons_ok.mp hfetch
      have hstep := fetchFile_ok hready h (hmem names List.mem_cons_self) hfirst
      rw [List.append_cons]
      exact ih hstep (fun names' hnames' => hmem names' (List.mem_cons_of_mem names hnames')) hrest

theorem ask_list (hready : Ready fs root into s d) (activity : Activity) :
    ((Action.ask (·.list root)).during activity) fs
      = (.ok ((shown fs root s).map fun names => listed (found root names)), fs) := by
  apply during_ok.mpr
  rw [ask_eq]
  unfold FileSystem.list
  rw [list?_eq hready.wellFormed hready.source]

theorem fetch_ok (hready : Ready fs root into s d) (h : fetch ⟨root⟩ into fs = (.ok (), fs')) :
    Copied fs fs' root into s d (shown fs root s) := by
  unfold fetch at h
  rw [bind_ok (ask_list hready _)] at h
  exact forM_fetchFile_ok hready hready.copied_nil (fun _ => id) h

-- ============================================================ no copy is in the way of another

/-- Nothing but the copies and the directories that they need has changed. -/
structure Confined (fs₀ fs : FileSystem) (root : String) (d : Place) (done : List Place) :
    Prop where
  frame : ∀ {p : Place}, ¬ d <+: p → fs.get? p = fs₀.get? p
  needed : ∀ {q : Place}, q ≠ [] → fs.get? (d ++ q) = some .directory →
    ∃ names ∈ done, q <+: kept root ++ names ∧ q ≠ kept root ++ names

theorem Ready.confined_nil (h : Ready fs root into s d) : Confined fs fs root d [] := by
  refine ⟨fun _ => rfl, ?_⟩
  intro q hne hq
  rw [h.empty q hne] at hq
  cases hq

/-- Where files of one tree are, nothing is below them. -/
theorem Ready.not_prefix (h : Ready fs₀ root into s d) {names' : Place} {c' : Bytes}
    (hget : fs₀.get? (s ++ names) = some (.file c))
    (hget' : fs₀.get? (s ++ names') = some (.file c')) (hbelow : names <+: names') :
    names = names' := by
  obtain ⟨rest, rfl⟩ := hbelow
  by_cases hne : rest = []
  · rw [hne, List.append_nil]
  · rw [← List.append_assoc] at hget'
    rw [h.wellFormed.directory_above hget' hne] at hget
    cases hget

/-- A file on the way to a copy would be a file above the one that is copied. -/
theorem Copied.no_file (hready : Ready fs₀ root into s d) (h : Copied fs₀ fs root into s d done)
    {others q : Place} {m : String}
    (hget : fs₀.get? (s ++ (others ++ [m])) = some (.file c)) (hq : q <+: kept root ++ others)
    (c' : Bytes) : fs.get? (d ++ q) ≠ some (.file c') := by
  intro hc'
  obtain ⟨names', -, rfl, hget'⟩ := h.inside.mp hc'
  have hbelow : names' <+: others := (List.prefix_append_right_inj _).mp hq
  have hsame := hready.not_prefix hget' hget (hbelow.trans (List.prefix_append _ _))
  have hlength := hbelow.length_le
  rw [hsame, List.length_append, List.length_singleton] at hlength
  omega

/-- A directory in the place of a copy would be there for a file below the one that is
copied. -/
theorem Confined.free (hready : Ready fs₀ root into s d) (h : Confined fs₀ fs root d done)
    (hdone : ∀ names ∈ done, names ∈ shown fs₀ root s) (hgrows : fs.Grows fs₁) {others : Place}
    {m : String} (hget : fs₀.get? (s ++ (others ++ [m])) = some (.file c))
    (hnew : ∀ q, fs.get? q = none → fs₁.get? q ≠ none → q <+: d ++ (kept root ++ others)) :
    fs₁.get? (d ++ (kept root ++ others) ++ [m]) ≠ some .directory := by
  intro hdirectory
  cases hbefore : fs.get? (d ++ (kept root ++ others) ++ [m]) with
  | none =>
      have hlength := (hnew _ hbefore (by rw [hdirectory]; simp)).length_le
      simp only [List.length_append, List.length_singleton] at hlength
      omega
  | some e =>
      have he := hgrows.keeps hbefore
      rw [hdirectory] at he
      obtain rfl := Option.some.inj he
      rw [List.append_assoc, List.append_assoc] at hbefore
      obtain ⟨names', hnames', hbelow, hne⟩ := h.needed (by simp) hbefore
      obtain ⟨⟨-, c', hget'⟩, -⟩ := mem_shown.mp (hdone names' hnames')
      rw [hready.not_prefix hget hget' ((List.prefix_append_right_inj _).mp hbelow)] at hne
      exact hne rfl

theorem Confined.step (h : Confined fs₀ fs root d done) (hwf : fs.WellFormed)
    (hd : fs.get? d = some .directory) (hgrows : fs.Grows fs₁) {others : Place} {m : String}
    (hnew : ∀ q, fs.get? q = none → fs₁.get? q ≠ none → q <+: d ++ (kept root ++ others)) :
    Confined fs₀ (fs₁.put (d ++ (kept root ++ others) ++ [m]) (.file c)) root d
      (done ++ [others ++ [m]]) := by
  have hview := get?_put fs₁ (p := d ++ (kept root ++ others) ++ [m]) (by simp) (.file c)
  refine ⟨?_, ?_⟩
  · intro p hp
    rw [hview, if_neg, ← h.frame hp]
    · cases hbefore : fs.get? p with
      | some e => exact hgrows.keeps hbefore
      | none =>
          cases hafter : fs₁.get? p with
          | none => rfl
          | some e =>
              -- what is new lies between the private directory and the copy
              have hway := hnew p hbefore (by simp [hafter])
              rcases List.prefix_or_prefix_of_prefix hway (List.prefix_append d _) with hup | hdown
              · obtain ⟨rest, rfl⟩ := hup
                by_cases hrest : rest = []
                · rw [hrest, List.append_nil] at hp
                  exact absurd (List.prefix_refl p) hp
                · rw [hwf.directory_above hd hrest] at hbefore
                  cases hbefore
              · exact absurd hdown hp
    · intro heq
      subst heq
      exact hp ⟨kept root ++ others ++ [m], by simp⟩
  · intro q hne hq
    rw [hview] at hq
    by_cases hplace : d ++ q = d ++ (kept root ++ others) ++ [m]
    · rw [if_pos hplace] at hq
      cases hq
    · rw [if_neg hplace] at hq
      cases hbefore : fs.get? (d ++ q) with
      | some e =>
          have he := hgrows.keeps hbefore
          rw [hq] at he
          obtain rfl := Option.some.inj he
          obtain ⟨names', hnames', hbelow⟩ := h.needed hne hbefore
          exact ⟨names', List.mem_append_left _ hnames', hbelow⟩
      | none =>
          have hway := hnew _ hbefore (by rw [hq]; simp)
          have hbelow : q <+: kept root ++ others := (List.prefix_append_right_inj _).mp hway
          refine ⟨others ++ [m], by simp, hbelow.trans ⟨[m], by simp⟩, ?_⟩
          intro heq
          have hlength := hbelow.length_le
          rw [heq] at hlength
          simp only [List.length_append, List.length_singleton] at hlength
          omega

/-- One more copy is made. -/
theorem fetchFile_succeeds (hready : Ready fs₀ root into s d)
    (h : Copied fs₀ fs root into s d done) (hconfined : Confined fs₀ fs root d done)
    (hdone : ∀ names ∈ done, names ∈ shown fs₀ root s) (hmem : names ∈ shown fs₀ root s)
    (hfits : fits (copyPath root into names) = true) :
    ∃ fs', fetchFile ⟨root⟩ into (listed (found root names)) fs = (.ok (), fs')
      ∧ Confined fs₀ fs' root d (done ++ [names]) := by
  obtain ⟨⟨hne, c, hget⟩, hshows⟩ := mem_shown.mp hmem
  obtain ⟨hsegments, hstem, hup⟩ := hready.walk h.keeps hmem
  have hd := h.keeps.keeps d (stat_ok_iff.mp hready.target).2
  obtain ⟨others, m, rfl⟩ : ∃ others m, names = others ++ [m] :=
    ⟨_, _, (List.dropLast_append_getLast hne).symm⟩
  have hproper : ∀ x ∈ others ++ [m], ProperName x := fun x hx =>
    hready.wellFormed.proper hget x (List.mem_append_right s hx)
  have hnames : namesOf (inner root ++ others.map String.toList) = kept root ++ others := by
    rw [namesOf_append, namesOf_names fun x hx => (hproper x (List.mem_append_left _ hx)).isName,
      kept]
  have hsteps : ∀ x ∈ inner root ++ others.map String.toList,
      isIdle x = true ∨ ProperName (.ofList x) := by
    intro x hx
    rcases List.mem_append.mp hx with hx | hx
    · cases hidle : isIdle x with
      | true => exact Or.inl rfl
      | false =>
          exact Or.inr (properName_of_locate (stat_ok_iff.mp hready.source).1
            ((inner_sublist root).subset hx) (isName_iff.mpr ⟨hidle, hready.within x hx⟩))
    · obtain ⟨y, hy, rfl⟩ := List.mem_map.mp hx
      rw [String.ofList_toList]
      exact Or.inr (hproper y (List.mem_append_left _ hy))
  obtain ⟨fs₁, hparent, hsite, hnew⟩ := makeParent_below (hready.checkPath_copyPath hmem hfits)
    (by rw [hsegments]; simp) (stem_ne_nil hready.into_ne) hsteps (hproper m (by simp)) hstem hd
    (by rw [hnames]; exact fun q hq => h.no_file hready hget hq)
  rw [hnames] at hsite hnew
  have hgrows := makeParent_grows hparent
  have hfree := hconfined.free hready hdone hgrows hget hnew
  have hcopy := h.copy_eq hready hmem hget hgrows hsite hfree
  exact ⟨_, (bind_ok hparent).trans (fileStep_ok.mpr (change_ok.mpr hcopy)),
    hconfined.step h.wellFormed hd hgrows hnew⟩

theorem forM_fetchFile_succeeds (hready : Ready fs₀ root into s d)
    (h : Copied fs₀ fs root into s d done) (hconfined : Confined fs₀ fs root d done)
    (hdone : ∀ names ∈ done, names ∈ shown fs₀ root s)
    (hmem : ∀ names ∈ files, names ∈ shown fs₀ root s)
    (hfits : ∀ names ∈ files, fits (copyPath root into names) = true) :
    ∃ fs', (files.map fun names => listed (found root names)).forM (fetchFile ⟨root⟩ into) fs
        = (.ok (), fs')
      ∧ Confined fs₀ fs' root d (done ++ files) := by
  induction files generalizing fs done with
  | nil =>
      refine ⟨fs, rfl, ?_⟩
      rw [List.append_nil]
      exact hconfined
  | cons names files ih =>
      have hnames := hmem names List.mem_cons_self
      obtain ⟨fs₁, hfirst, hconfined₁⟩ := fetchFile_succeeds hready h hconfined hdone hnames
        (hfits names List.mem_cons_self)
      obtain ⟨fs', hrest, hconfined'⟩ := ih (fetchFile_ok hready h hnames hfirst) hconfined₁
        (by
          intro names' hnames'
          rcases List.mem_append.mp hnames' with hold | hnew
          · exact hdone names' hold
          · rw [List.mem_singleton.mp hnew]
            exact hnames)
        (fun names' hnames' => hmem names' (List.mem_cons_of_mem names hnames'))
        (fun names' hnames' => hfits names' (List.mem_cons_of_mem names hnames'))
      rw [← List.append_cons] at hconfined'
      exact ⟨fs', forM_cons_ok.mpr ⟨fs₁, hfirst, hrest⟩, hconfined'⟩

/-- Copying comes to its end if the paths of the copies are short enough. -/
theorem fetch_succeeds (hready : Ready fs root into s d)
    (hfits : ∀ names ∈ shown fs root s, fits (copyPath root into names) = true) :
    ∃ fs', fetch ⟨root⟩ into fs = (.ok (), fs')
      ∧ Confined fs fs' root d (shown fs root s) := by
  obtain ⟨fs', hrun, hconfined⟩ := forM_fetchFile_succeeds hready hready.copied_nil
    hready.confined_nil (by simp) (fun _ => id) hfits
  refine ⟨fs', ?_, hconfined⟩
  unfold fetch
  rw [bind_ok (ask_list hready _)]
  exact hrun

end EventDocs.Storage
