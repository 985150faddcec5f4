import EventDocs.Proofs.FileSystem.Searches
import EventDocs.Proofs.FileSystem.Walks
import Mathlib.Data.List.Nodup

/-
What a listing shows.

The files below a place are found by their names, each once, in order, and there is only one
way to write such a list down (`filesBelow_eq`): so two file systems that have the same files
below two places give the same names, and what was copied elsewhere is found there in the
order that it had.

Of these files a listing shows those that are not passed over and whose paths are short enough
(`list?_eq`). The path that it gives for a file leads to the file (`locate_found`), so what it
shows can be read.
-/

namespace EventDocs.Listing

open EventDocs.Path FileSystem

variable {fs fs' : FileSystem} {base : String} {place names : Place}

-- ============================================================ the order

theorem inOrder_total (p q : Place) : (inOrder p q || inOrder q p) = true := by
  induction p generalizing q with
  | nil => rfl
  | cons a p ih =>
      cases q with
      | nil => rfl
      | cons b q =>
          rcases lt_trichotomy a b with h | h | h
          · simp [inOrder, h]
          · subst h
            simpa [inOrder] using ih q
          · simp [inOrder, h]

theorem inOrder_trans (p q r : Place) (hpq : inOrder p q = true) (hqr : inOrder q r = true) :
    inOrder p r = true := by
  induction p generalizing q r with
  | nil => rfl
  | cons a p ih =>
      cases q with
      | nil => cases hpq
      | cons b q =>
          cases r with
          | nil => cases hqr
          | cons c r =>
              simp only [inOrder, Bool.or_eq_true, Bool.and_eq_true, decide_eq_true_eq] at hpq hqr ⊢
              rcases hpq with hab | ⟨rfl, hpq⟩
              · rcases hqr with hbc | ⟨rfl, hqr⟩
                · exact Or.inl (hab.trans hbc)
                · exact Or.inl hab
              · rcases hqr with hac | ⟨rfl, hqr⟩
                · exact Or.inl hac
                · exact Or.inr ⟨rfl, ih q r hpq hqr⟩

theorem inOrder_antisymm (p q : Place) (hpq : inOrder p q = true) (hqp : inOrder q p = true) :
    p = q := by
  induction p generalizing q with
  | nil =>
      cases q with
      | nil => rfl
      | cons b q => cases hqp
  | cons a p ih =>
      cases q with
      | nil => cases hpq
      | cons b q =>
          simp only [inOrder, Bool.or_eq_true, Bool.and_eq_true, decide_eq_true_eq] at hpq hqp
          rcases hpq with hab | ⟨rfl, hpq⟩
          · rcases hqp with hba | ⟨rfl, -⟩
            · exact absurd hba (lt_asymm hab)
            · exact absurd hab (lt_irrefl _)
          · rcases hqp with haa | ⟨-, hqp⟩
            · exact absurd haa (lt_irrefl _)
            · rw [ih q hpq hqp]

theorem inOrder_append (p q r : Place) : inOrder (p ++ q) (p ++ r) = inOrder q r := by
  induction p with
  | nil => rfl
  | cons a p ih => simp [inOrder, ih]

-- ============================================================ the files below a place

theorem below?_eq_some {p : Place} :
    below? place p = some names ↔ names ≠ [] ∧ p = place ++ names := by
  unfold below?
  constructor
  · intro h
    by_cases hbelow : (place.isPrefixOf p && decide (place.length < p.length)) = true
    · rw [if_pos hbelow] at h
      simp only [Bool.and_eq_true, List.isPrefixOf_iff_prefix, decide_eq_true_eq] at hbelow
      obtain ⟨⟨rest, rfl⟩, hlength⟩ := hbelow
      rw [List.drop_left] at h
      obtain rfl := Option.some.inj h
      refine ⟨?_, rfl⟩
      intro heq
      subst heq
      simp at hlength
    · rw [if_neg hbelow] at h
      cases h
  · intro hboth
    obtain ⟨hne, rfl⟩ := hboth
    have hlength := List.length_pos_of_ne_nil hne
    rw [if_pos, List.drop_left]
    simp only [Bool.and_eq_true, List.isPrefixOf_iff_prefix, decide_eq_true_eq, List.length_append]
    exact ⟨List.prefix_append place names, by omega⟩

theorem mem_filesBelow : names ∈ filesBelow fs place ↔
    names ≠ [] ∧ ∃ c, fs.get? (place ++ names) = some (.file c) := by
  unfold filesBelow
  rw [List.mem_mergeSort, List.mem_filterMap]
  constructor
  · intro hsome
    obtain ⟨⟨p, e⟩, hmem, hbelow⟩ := hsome
    cases e with
    | directory => cases hbelow
    | file c =>
        obtain ⟨hne, rfl⟩ := below?_eq_some.mp hbelow
        exact ⟨hne, c, (mem_entries_iff (by simp [hne])).mp hmem⟩
  · intro hboth
    obtain ⟨hne, c, hget⟩ := hboth
    exact ⟨(place ++ names, .file c), (mem_entries_iff (by simp [hne])).mpr hget,
      below?_eq_some.mpr ⟨hne, rfl⟩⟩

theorem pairwise_filesBelow (fs : FileSystem) (place : Place) :
    (filesBelow fs place).Pairwise fun p q => inOrder p q = true :=
  List.pairwise_mergeSort inOrder_trans inOrder_total _

theorem nodup_filesBelow (fs : FileSystem) (place : Place) : (filesBelow fs place).Nodup := by
  unfold filesBelow
  refine (List.mergeSort_perm _ _).nodup_iff.mpr ?_
  have hdistinct := List.pairwise_map.mp fs.distinct
  refine List.Pairwise.filterMap _ ?_ hdistinct
  intro ⟨p, d⟩ ⟨q, e⟩ hne x hx y hy hxy
  cases d with
  | directory => cases hx
  | file c =>
      cases e with
      | directory => cases hy
      | file c' =>
          subst hxy
          obtain ⟨-, rfl⟩ := below?_eq_some.mp hx
          obtain ⟨-, rfl⟩ := below?_eq_some.mp hy
          exact hne rfl

/-- Sorted lists of the same names are the same. -/
theorem filesBelow_eq {L : List Place} (hsorted : L.Pairwise fun p q => inOrder p q = true)
    (hnodup : L.Nodup) (hmem : ∀ names, names ∈ filesBelow fs place ↔ names ∈ L) :
    filesBelow fs place = L :=
  List.Perm.eq_of_pairwise (fun p q _ _ => inOrder_antisymm p q) (pairwise_filesBelow fs place)
    hsorted ((List.perm_ext_iff_of_nodup (nodup_filesBelow fs place) hnodup).mpr hmem)

-- ============================================================ what is shown

/-- The path that a listing gives for the file that some names lead to. -/
def found (base : String) (names : Place) : String :=
  ofSegments (front base ++ names.map String.toList)

/-- Does a listing show the file that some names lead to? -/
def shows (base : String) (names : Place) : Bool :=
  (searchPath? base).isSome && fits (found base names)
    && !isSkipped ((inner base).filterMap Component.ofSegment? ++ names.map .name)

/-- The files that a listing shows, by the names that lead to them. -/
def shown (fs : FileSystem) (base : String) (place : Place) : List Place :=
  (filesBelow fs place).filter (shows base)

theorem searchPath?_of_shows (h : shows base names = true) :
    (searchPath? base).isSome = true := by
  unfold shows at h
  simp only [Bool.and_eq_true] at h
  exact h.1.1

theorem fits_of_shows (h : shows base names = true) : fits (found base names) = true := by
  unfold shows at h
  simp only [Bool.and_eq_true] at h
  exact h.1.2

theorem mem_shown : names ∈ shown fs base place ↔
    (names ≠ [] ∧ ∃ c, fs.get? (place ++ names) = some (.file c)) ∧ shows base names = true := by
  rw [shown, List.mem_filter, mem_filesBelow]

theorem pairwise_shown (fs : FileSystem) (base : String) (place : Place) :
    (shown fs base place).Pairwise fun p q => inOrder p q = true :=
  (pairwise_filesBelow fs place).sublist List.filter_sublist

theorem nodup_shown (fs : FileSystem) (base : String) (place : Place) : (shown fs base place).Nodup :=
  (nodup_filesBelow fs place).sublist List.filter_sublist

theorem isName_of_filesBelow (hfs : fs.WellFormed) (h : names ∈ filesBelow fs place) :
    ∀ n ∈ names, IsName n := by
  intro n hn
  obtain ⟨-, c, hget⟩ := mem_filesBelow.mp h
  exact (hfs.proper hget n (List.mem_append_right place hn)).isName

theorem slash_not_mem_names (hnames : ∀ n ∈ names, IsName n) {s : List Char}
    (hs : s ∈ names.map String.toList) : '/' ∉ s := by
  obtain ⟨n, hn, rfl⟩ := List.mem_map.mp hs
  exact (hnames n hn).2

theorem segments_found {b : String} (hnames : ∀ n ∈ names, IsName n) (hne : names ≠ []) :
    segments (found b names) = front b ++ names.map String.toList := by
  apply segments_ofSegments _ (by simp [hne])
  intro s hs
  rcases List.mem_append.mp hs with hs | hs
  · exact slash_not_mem_front hs
  · exact slash_not_mem_names hnames hs

theorem slash_not_mem_inner {s : List Char} (hs : s ∈ inner base) : '/' ∉ s := by
  unfold inner at hs
  split at hs
  · exact slash_not_mem_front hs
  · cases hs

theorem head_inner (h : (searchPath? base).isSome = true) :
    ∀ s ∈ (inner base).head?, s ≠ [] ∧ s ≠ ['.'] := by
  intro s hs
  unfold inner at hs
  by_cases hdot : (segments base).head? = some ['.']
  · rw [if_pos hdot] at hs
    obtain ⟨search, hsome⟩ := Option.isSome_iff_exists.mp h
    obtain ⟨rest, hrest⟩ := List.head?_eq_some_iff.mp hdot
    exact head_front_of_dot hsome hrest s hs
  · rw [if_neg hdot] at hs
    cases hs

theorem components_relativeTo {search : String} (h : searchPath? base = some search)
    (hnames : ∀ n ∈ names, IsName n) (hne : names ≠ []) :
    components (relativeTo base (foundPath search names))
      = (inner base).filterMap Component.ofSegment? ++ names.map .name := by
  rw [relativeTo_foundPath h hnames hne]
  exact components_names hnames (fun s hs => slash_not_mem_inner hs)
    (head_inner (Option.isSome_of_eq_some h)) hne

theorem foundPath_eq {search : String} (h : searchPath? base = some search)
    (hnames : ∀ n ∈ names, IsName n) (hne : names ≠ []) :
    foundPath search names = found base names :=
  foundPath_eq_ofSegments h hnames hne

theorem relativeTo_found (h : (searchPath? base).isSome = true) (hnames : ∀ n ∈ names, IsName n)
    (hne : names ≠ []) :
    relativeTo base (found base names) = ofSegments (inner base ++ names.map String.toList) := by
  obtain ⟨search, hsome⟩ := Option.isSome_iff_exists.mp h
  rw [← foundPath_eq hsome hnames hne, relativeTo_foundPath hsome hnames hne]

theorem list?_eq (hfs : fs.WellFormed) (h : fs.stat base = .ok (place, .directory)) :
    fs.list? base = some ((shown fs base place).map fun names => listed (found base names)) := by
  unfold list?
  simp only [h]
  cases hsearch : searchPath? base with
  | none =>
      have hnone : shown fs base place = [] := by
        unfold shown shows
        simp [hsearch]
      rw [hnone]
      rfl
  | some search =>
      have htext : ∀ names ∈ filesBelow fs place, foundPath search names = found base names :=
        fun names hmem =>
          foundPath_eq hsearch (isName_of_filesBelow hfs hmem) (mem_filesBelow.mp hmem).1
      have hfilter : ∀ names ∈ filesBelow fs place, (fits (foundPath search names)
          && !isSkipped (components (relativeTo base (foundPath search names))))
          = shows base names := by
        intro names hmem
        rw [components_relativeTo hsearch (isName_of_filesBelow hfs hmem) (mem_filesBelow.mp hmem).1,
          htext names hmem]
        simp [shows, hsearch]
      simp only [List.filter_map, List.map_map, Function.comp_def]
      rw [List.filter_congr hfilter]
      apply congrArg some
      apply List.map_congr_left
      intro names hmem
      rw [htext names (List.mem_filter.mp hmem).1]

theorem stat_of_list? {files : List ListedFile} (h : fs.list? base = some files) :
    ∃ place, fs.stat base = .ok (place, .directory) := by
  unfold list? at h
  cases hstat : fs.stat base with
  | error e =>
      rw [hstat] at h
      cases h
  | ok found =>
      obtain ⟨place, e⟩ := found
      cases e with
      | directory => exact ⟨place, rfl⟩
      | file c =>
          rw [hstat] at h
          cases h

theorem listed_path (path : String) : (listed path).path = path := rfl

theorem listed_found (hnames : ∀ n ∈ names, IsName n) {n : String} (hlast : names.getLast? = some n) :
    listed (found base names) = ⟨n, found base names, extension n⟩ := by
  obtain ⟨others, rfl⟩ := List.getLast?_eq_some_iff.mp hlast
  have hname : fileName? (found base (others ++ [n])) = some n := by
    refine fileName?_of_segments (S := front base ++ others.map String.toList) (T := []) ?_
      (hnames n (by simp)) (by simp)
    rw [segments_found hnames (by simp)]
    simp
  unfold listed
  rw [hname]
  rfl

-- ============================================================ where what is shown is

/-- What a listing puts in front of the names leads where the path of the directory does. -/
theorem follow_front {start : Place} (h : fs.follow start (segments base) = .ok place) :
    fs.follow start (front base) = .ok place := by
  have hempty : ∀ s : List Char, decide (s ≠ []) = false → isIdle s = true := by
    intro s hs
    simp only [ne_eq, decide_not, Bool.not_eq_false', decide_eq_true_eq] at hs
    subst hs
    rfl
  cases hsegments : segments base with
  | nil => exact absurd hsegments (segments_ne_nil base)
  | cons first rest =>
      by_cases hfirst : first = ['.']
      · subst hfirst
        rw [front_of_dot hsegments]
        apply follow_filter _ hempty
        apply follow_dropWhile _ _ h
        intro s hs
        rw [of_decide_eq_true hs]
        rfl
      · rw [front_of_ne hsegments hfirst]
        rw [hsegments] at h
        obtain ⟨q, hq, hrest⟩ := follow_cons_ok.mp h
        exact follow_cons_ok.mpr ⟨q, hq, follow_filter _ hempty hrest⟩

theorem isAbsolute_found (hnames : ∀ n ∈ names, IsName n) (hne : names ≠ []) (hbase : base ≠ "")
    (hsearch : (searchPath? base).isSome = true) :
    isAbsolute (found base names) = isAbsolute base := by
  have hfound := segments_found (b := base) hnames hne
  cases hsegments : segments base with
  | nil => exact absurd hsegments (segments_ne_nil base)
  | cons first rest =>
      by_cases hfirst : first = ['.']
      · subst hfirst
        obtain ⟨search, hsome⟩ := Option.isSome_iff_exists.mp hsearch
        have hhead := head_front_of_dot hsome hsegments
        rw [relative_of_dot hsegments]
        apply isAbsolute_of_head
        rw [hfound]
        intro s hs
        cases hfront : front base with
        | cons t front =>
            rw [hfront] at hs hhead
            exact (hhead s hs).1
        | nil =>
            obtain ⟨n, others, rfl⟩ := List.exists_cons_of_ne_nil hne
            rw [hfront] at hs
            obtain rfl := Option.some.inj hs
            intro hnil
            exact (hnames n List.mem_cons_self).ne_empty (String.toList_eq_nil_iff.mp hnil)
      · rw [front_of_ne hsegments hfirst, List.cons_append] at hfound
        rw [isAbsolute_of_segments hfound (by simp [hne])]
        by_cases hrest : rest = []
        · subst hrest
          rw [isAbsolute_of_singleton hsegments]
          apply decide_eq_false
          intro heq
          subst heq
          exact hbase (eq_of_segments hsegments)
        · rw [isAbsolute_of_segments hsegments hrest]

theorem locate_found (hfs : fs.WellFormed) (hlocate : fs.locate base = .ok place)
    (hsearch : (searchPath? base).isSome = true) {e : Entry}
    (hget : fs.get? (place ++ names) = some e) (hne : names ≠ [])
    (hfits : fits (found base names) = true) :
    fs.locate (found base names) = .ok (place ++ names) := by
  obtain ⟨hcheck, hfollow⟩ := locate_ok_iff.mp hlocate
  obtain ⟨hzero, hempty, -⟩ := checkPath_ok_iff.mp hcheck
  have hnames : ∀ n ∈ names, ProperName n := fun n hn =>
    hfs.proper hget n (List.mem_append_right place hn)
  have hisName : ∀ n ∈ names, IsName n := fun n hn => (hnames n hn).isName
  have hsegments := segments_found (b := base) hisName hne
  have hcheck' : checkPath (found base names) = .ok () := by
    refine checkPath_ok_iff.mpr ⟨?_, ?_, of_decide_eq_true hfits⟩
    · intro hmem
      rcases mem_ofSegments hmem with hslash | ⟨s, hs, hc⟩
      · cases hslash
      · rcases List.mem_append.mp hs with hs | hs
        · exact hzero (mem_of_mem_segments ((front_sublist base).subset hs) hc)
        · obtain ⟨n, hn, rfl⟩ := List.mem_map.mp hs
          exact (hnames n hn).noZero hc
    · intro htext
      rw [htext] at hsegments
      obtain ⟨n, hn⟩ := List.exists_mem_of_ne_nil names hne
      have hmem : n.toList ∈ segments "" := by
        rw [hsegments]
        exact List.mem_append_right _ (List.mem_map_of_mem hn)
      rw [show segments "" = [[]] from rfl, List.mem_singleton] at hmem
      exact (hisName n hn).ne_empty (String.toList_eq_nil_iff.mp hmem)
  refine locate_ok_iff.mpr ⟨hcheck', ?_⟩
  rw [origin_eq fs (isAbsolute_found hisName hne hempty hsearch), hsegments]
  exact follow_append_ok.mpr ⟨place, follow_front hfollow, follow_names hfs hget⟩

-- ============================================================ hidden directories

/-- The path begins with dots, and behind them there is an empty segment at once, or somewhere
the name of a directory that is passed over. -/
def Hidden (base : String) : Prop :=
  (segments base).head? = some ['.'] ∧ ((afterDots base).head? = some []
    ∨ ∃ s ∈ afterDots base, String.ofList s ∈ skippedDirectories)

instance (base : String) : Decidable (Hidden base) := inferInstanceAs (Decidable (_ ∧ _))

theorem isSkipped_append {A : List Component} (hne : names ≠ []) :
    isSkipped (A ++ names.map .name) = (A.any (fun step => skippedDirectories.contains step.text)
      || isSkipped (names.map .name)) := by
  have hne' : names.map Component.name ≠ [] := by simpa using hne
  unfold isSkipped
  rw [List.getLast?_append, List.getLast?_eq_some_getLast hne', Option.some_or,
    List.dropLast_append_of_ne_nil hne', List.any_append]
  simp only
  rw [Bool.or_left_comm]

theorem isName_of_skipped : ∀ n ∈ skippedDirectories, IsName n := by decide

theorem inner_of_dot (h : (segments base).head? = some ['.']) :
    inner base = (afterDots base).filter (· ≠ []) := by
  obtain ⟨rest, hsegments⟩ := List.head?_eq_some_iff.mp h
  unfold inner
  rw [if_pos h, front_of_dot hsegments]

theorem inner_of_ne (h : (segments base).head? ≠ some ['.']) : inner base = [] := if_neg h

/-- A listing of a hidden directory shows nothing. -/
theorem shows_of_hidden (h : Hidden base) (hne : names ≠ []) : shows base names = false := by
  obtain ⟨hdot, hhidden⟩ := h
  unfold shows
  rcases hhidden with hempty | ⟨s, hs, hskipped⟩
  · obtain ⟨rest, hsegments⟩ := List.head?_eq_some_iff.mp hdot
    obtain ⟨others, hdots⟩ := List.head?_eq_some_iff.mp hempty
    rw [searchPath?_hidden (relative_of_dot hsegments) hdots]
    rfl
  · have hname := isName_of_skipped _ hskipped
    have hstep := hname.ofSegment?
    rw [String.toList_ofList] at hstep
    have hsome : s ≠ [] := by
      intro hnil
      rw [hnil] at hname
      exact hname.ne_empty rfl
    have hinner : s ∈ inner base := by
      rw [inner_of_dot hdot]
      exact List.mem_filter.mpr ⟨hs, decide_eq_true hsome⟩
    have hany : ((inner base).filterMap Component.ofSegment?).any
        (fun step => skippedDirectories.contains step.text) = true :=
      List.any_eq_true.mpr ⟨_, List.mem_filterMap.mpr ⟨s, hinner, hstep⟩,
        List.contains_iff_mem.mpr hskipped⟩
    rw [isSkipped_append hne, hany]
    simp

theorem shown_of_hidden (h : Hidden base) : shown fs base place = [] := by
  apply List.filter_eq_nil_iff.mpr
  intro names hmem
  rw [shows_of_hidden h (mem_filesBelow.mp hmem).1]
  decide

theorem searchPath?_of_not_hidden (hbase : base ≠ "") (h : ¬ Hidden base) :
    (searchPath? base).isSome = true := by
  cases habsolute : isAbsolute base with
  | true =>
      obtain ⟨t, rest, hsegments⟩ := isAbsolute_iff.mp habsolute
      obtain ⟨search, hsearch, -⟩ := searchPath?_absolute habsolute hsegments
      exact Option.isSome_of_eq_some hsearch
  | false =>
      cases hdots : afterDots base with
      | nil => exact Option.isSome_of_eq_some (searchPath?_dots habsolute hdots)
      | cons s rest =>
          have hsome : s ≠ [] := by
            intro hnil
            subst hnil
            by_cases hdot : (segments base).head? = some ['.']
            · exact h ⟨hdot, Or.inl (by rw [hdots]; rfl)⟩
            · -- an empty segment in front is all there is of a path that is not absolute
              have hsegments : segments base = [] :: rest := by
                rw [← hdots, afterDots]
                cases hall : segments base with
                | nil => rfl
                | cons t others =>
                    rw [hall] at hdot
                    rw [List.dropWhile_cons_of_neg (by simpa using hdot)]
              by_cases hrest : rest = []
              · subst hrest
                exact hbase (eq_of_segments hsegments)
              · rw [isAbsolute_of_segments hsegments hrest] at habsolute
                cases habsolute
          obtain ⟨search, hsearch, -⟩ := searchPath?_relative habsolute hdots hsome
          exact Option.isSome_of_eq_some hsearch

/-- A listing of any other directory passes over nothing but what lies below. -/
theorem shows_of_not_hidden (hbase : base ≠ "") (h : ¬ Hidden base) (hne : names ≠ [])
    (hfits : fits (found base names) = true) (hskipped : isSkipped (names.map .name) = false) :
    shows base names = true := by
  have hnone : ((inner base).filterMap Component.ofSegment?).any
      (fun step => skippedDirectories.contains step.text) = false := by
    rw [List.any_eq_false]
    intro step hstep hcontains
    obtain ⟨s, hs, hsegment⟩ := List.mem_filterMap.mp hstep
    by_cases hdot : (segments base).head? = some ['.']
    · rw [inner_of_dot hdot] at hs
      have hmem := List.contains_iff_mem.mp hcontains
      have htext : step.text = .ofList s := by
        unfold Component.ofSegment? at hsegment
        split at hsegment
        · cases hsegment
        · split at hsegment
          next hup =>
            obtain rfl := Option.some.inj hsegment
            rw [hup]
            rfl
          next =>
            obtain rfl := Option.some.inj hsegment
            rfl
      exact h ⟨hdot, Or.inr ⟨s, (List.mem_filter.mp hs).1, htext ▸ hmem⟩⟩
    · rw [inner_of_ne hdot] at hs
      cases hs
  unfold shows
  rw [searchPath?_of_not_hidden hbase h, hfits, isSkipped_append hne, hnone, hskipped]
  rfl

end EventDocs.Listing
