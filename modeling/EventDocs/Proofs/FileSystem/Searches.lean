import EventDocs.Proofs.FileSystem.Paths

/-
What a search reports.

What is found below a directory is reported under a path that is put together from the path of
the directory, but not always faithfully: a dot in front is forgotten. The path as seen from the
directory, by which it is decided whether a file is passed over and where it is copied to, is
then not the part below the directory but the whole of what was reported
(`relativeTo_foundPath`).
-/

namespace EventDocs.Listing

open EventDocs.Path

/-- The segments of a path without the dots in front of it. -/
def afterDots (base : String) : List (List Char) := (segments base).dropWhile (· = ['.'])

/-- What a search below a path puts in front of what it finds: the segments of the path,
without those that are empty and without dots in front. -/
def front (base : String) : List (List Char) :=
  match segments base with
  | [] => []
  | first :: rest =>
    if first = ['.'] then (afterDots base).filter (· ≠ []) else first :: rest.filter (· ≠ [])

/-- What is left of that when the search is over: nothing, unless dots were forgotten. -/
def inner (base : String) : List (List Char) :=
  if (segments base).head? = some ['.'] then front base else []

/-- One more segment of the path of a search. -/
def reach (p : String) (s : List Char) : Option String :=
  if p = "." then if s = [] then none else some (.ofList s) else some (join p (.ofList s))

theorem searchPath?_eq (base : String) : searchPath? base =
    if isAbsolute base then ((segments base).drop 1).foldlM reach "/"
    else (segments base).foldlM reach "." := rfl

theorem foldlM_reach {p : String} (hp : p ≠ "") (hdot : p ≠ ".") {S : List (List Char)}
    (hslash : ∀ s ∈ S, '/' ∉ s) : ∃ search, S.foldlM reach p = some search
      ∧ search ≠ "" ∧ search ≠ "." ∧ stem search = stem p ++ S.filter (· ≠ []) := by
  induction S generalizing p with
  | nil => exact ⟨p, rfl, hp, hdot, by simp⟩
  | cons s S ih =>
      have hs := hslash s List.mem_cons_self
      have hmem := slash_mem_join hp hs
      have hempty : join p (.ofList s) ≠ "" := by
        intro h
        rw [h] at hmem
        cases hmem
      have hnext : join p (.ofList s) ≠ "." := by
        intro h
        rw [h] at hmem
        exact absurd hmem (by decide)
      obtain ⟨search, hfold, hne, hdot', hstem⟩ :=
        ih hempty hnext fun t ht => hslash t (List.mem_cons_of_mem s ht)
      refine ⟨search, ?_, hne, hdot', ?_⟩
      · rw [List.foldlM_cons, reach, if_neg hdot]
        exact hfold
      · rw [hstem, stem_join_ofList hp hs, List.append_assoc, ← List.filter_append]
        rfl

theorem foldlM_reach_dots (S : List (List Char)) :
    S.foldlM reach "." = (S.dropWhile (· = ['.'])).foldlM reach "." := by
  induction S with
  | nil => rfl
  | cons s S ih =>
      by_cases hs : s = ['.']
      · subst hs
        exact ih
      · rw [List.dropWhile_cons_of_neg (by simpa using hs)]

/-- A search from the current directory starts with the first segment that is no dot, which
must not be empty. -/
theorem foldlM_reach_start {s : List Char} {S : List (List Char)} (hs : s ≠ ['.'])
    (hempty : s ≠ []) (hslash : ∀ t ∈ s :: S, '/' ∉ t) :
    ∃ search, (s :: S).foldlM reach "." = some search
      ∧ search ≠ "" ∧ search ≠ "." ∧ stem search = s :: S.filter (· ≠ []) := by
  have hne : String.ofList s ≠ "" := by
    intro h
    exact hempty (String.ofList_injective h)
  have hdot : String.ofList s ≠ "." := by
    intro h
    exact hs (String.ofList_injective h)
  obtain ⟨search, hfold, hsearch, hsearch', hstem⟩ :=
    foldlM_reach hne hdot fun t ht => hslash t (List.mem_cons_of_mem s ht)
  have hlast : (String.ofList s).toList.getLast? ≠ some '/' := by
    rw [String.toList_ofList]
    intro h
    exact hslash s List.mem_cons_self (List.mem_of_getLast? h)
  have hfirst : stem (.ofList s) = [s] := by
    unfold stem
    rw [if_neg hlast, segments_of_not_mem (hslash s List.mem_cons_self)]
  refine ⟨search, ?_, hsearch, hsearch', by rw [hstem, hfirst]; rfl⟩
  rw [List.foldlM_cons, reach, if_pos rfl, if_neg hempty]
  exact hfold

variable {base search : String} {names : List String} {first s : List Char}
  {rest : List (List Char)}

theorem slash_not_mem_afterDots (h : s ∈ afterDots base) : '/' ∉ s :=
  slash_not_mem ((List.dropWhile_sublist _).subset h)

theorem front_of_dot (h : segments base = ['.'] :: rest) :
    front base = (afterDots base).filter (· ≠ []) := by
  unfold front
  rw [h]
  exact if_pos rfl

theorem front_of_ne (h : segments base = first :: rest) (hfirst : first ≠ ['.']) :
    front base = first :: rest.filter (· ≠ []) := by
  unfold front
  rw [h]
  exact if_neg hfirst

theorem head_afterDots {s : List Char} (h : afterDots base = s :: rest) : s ≠ ['.'] := by
  have hnot := List.head?_dropWhile_not (fun t : List Char => decide (t = ['.'])) (segments base)
  rw [show (segments base).dropWhile (fun t => decide (t = ['.'])) = _ from h] at hnot
  simpa using hnot

/-- A search below a relative path that is more than dots. -/
theorem searchPath?_relative (hrelative : isAbsolute base = false)
    (hdots : afterDots base = s :: rest) (hempty : s ≠ []) :
    ∃ search, searchPath? base = some search
      ∧ search ≠ "" ∧ search ≠ "." ∧ stem search = s :: rest.filter (· ≠ []) := by
  have hslash : ∀ t ∈ s :: rest, '/' ∉ t := by
    intro t ht
    rw [← hdots] at ht
    exact slash_not_mem_afterDots ht
  obtain ⟨search, hfold, hsearch⟩ := foldlM_reach_start (head_afterDots hdots) hempty hslash
  refine ⟨search, ?_, hsearch⟩
  rw [searchPath?_eq, hrelative, if_neg (by decide), foldlM_reach_dots,
    show (segments base).dropWhile (· = ['.']) = _ from hdots]
  exact hfold

theorem searchPath?_absolute (habsolute : isAbsolute base = true)
    (h : segments base = [] :: rest) :
    ∃ search, searchPath? base = some search
      ∧ search ≠ "" ∧ search ≠ "." ∧ stem search = [] :: rest.filter (· ≠ []) := by
  have hslash : ∀ t ∈ rest, '/' ∉ t := by
    intro t ht
    apply slash_not_mem (p := base)
    rw [h]
    exact List.mem_cons_of_mem [] ht
  obtain ⟨search, hfold, hne, hdot, hstem⟩ :=
    foldlM_reach (p := "/") (by decide) (by decide) hslash
  refine ⟨search, ?_, hne, hdot, hstem⟩
  rw [searchPath?_eq, if_pos habsolute, h]
  exact hfold

/-- There is no search below a path with an empty segment behind its dots. -/
theorem searchPath?_hidden (hrelative : isAbsolute base = false)
    (hdots : afterDots base = [] :: rest) : searchPath? base = none := by
  rw [searchPath?_eq, hrelative, if_neg (by decide), foldlM_reach_dots,
    show (segments base).dropWhile (· = ['.']) = _ from hdots]
  rfl

theorem searchPath?_dots (hrelative : isAbsolute base = false) (hdots : afterDots base = []) :
    searchPath? base = some "." := by
  rw [searchPath?_eq, hrelative, if_neg (by decide), foldlM_reach_dots,
    show (segments base).dropWhile (· = ['.']) = _ from hdots]
  rfl

theorem relative_of_dot (h : segments base = ['.'] :: rest) : isAbsolute base = false := by
  cases habsolute : isAbsolute base with
  | false => rfl
  | true =>
      obtain ⟨s, others, hs⟩ := isAbsolute_iff.mp habsolute
      rw [h] at hs
      cases hs

/-- What a search comes to: the current directory, for a path of dots alone, or a path whose
segments are known. -/
theorem searchPath?_some (h : searchPath? base = some search) :
    search = "." ∧ front base = []
      ∨ search ≠ "" ∧ search ≠ "." ∧ stem search = front base := by
  cases hsegments : segments base with
  | nil => exact absurd hsegments (segments_ne_nil base)
  | cons first rest =>
      by_cases hfirst : first = ['.']
      · subst hfirst
        have hrelative := relative_of_dot hsegments
        rw [front_of_dot hsegments]
        cases hdots : afterDots base with
        | nil =>
            rw [searchPath?_dots hrelative hdots] at h
            exact Or.inl ⟨(Option.some.inj h).symm, rfl⟩
        | cons s others =>
            by_cases hempty : s = []
            · subst hempty
              rw [searchPath?_hidden hrelative hdots] at h
              cases h
            · obtain ⟨found, hfound, hne, hdot, hstem⟩ :=
                searchPath?_relative hrelative hdots hempty
              rw [h] at hfound
              obtain rfl := Option.some.inj hfound
              rw [List.filter_cons_of_pos (by simpa using hempty)]
              exact Or.inr ⟨hne, hdot, hstem⟩
      · rw [front_of_ne hsegments hfirst]
        right
        cases habsolute : isAbsolute base with
        | true =>
            obtain ⟨s, others, hs⟩ := isAbsolute_iff.mp habsolute
            rw [hsegments] at hs
            obtain ⟨rfl, -⟩ := List.cons.inj hs
            obtain ⟨found, hfound, hsearch⟩ := searchPath?_absolute habsolute hsegments
            rw [h] at hfound
            exact Option.some.inj hfound ▸ hsearch
        | false =>
            have hdots : afterDots base = first :: rest := by
              unfold afterDots
              rw [hsegments, List.dropWhile_cons_of_neg (by simpa using hfirst)]
            by_cases hempty : first = []
            · subst hempty
              rw [searchPath?_hidden habsolute hdots] at h
              cases h
            · obtain ⟨found, hfound, hsearch⟩ := searchPath?_relative habsolute hdots hempty
              rw [h] at hfound
              exact Option.some.inj hfound ▸ hsearch

theorem segments_foundPath (h : searchPath? base = some search)
    (hnames : ∀ n ∈ names, IsName n) (hne : names ≠ []) :
    segments (foundPath search names) = front base ++ names.map String.toList := by
  have hslash : ∀ n ∈ names, '/' ∉ n.toList := fun n hn => (hnames n hn).2
  unfold foundPath
  rcases searchPath?_some h with ⟨rfl, hfront⟩ | ⟨hempty, hdot, hstem⟩
  · rw [if_pos rfl, segments_intercalate hslash hne, hfront, List.nil_append]
  · rw [if_neg hdot, segments_join hempty (isAbsolute_intercalate hslash fun n hn =>
      (hnames n hn).ne_empty), hstem, segments_intercalate hslash hne]

theorem front_sublist (base : String) : (front base).Sublist (segments base) := by
  cases hsegments : segments base with
  | nil => exact absurd hsegments (segments_ne_nil base)
  | cons first rest =>
      by_cases hfirst : first = ['.']
      · subst hfirst
        rw [front_of_dot hsegments, ← hsegments]
        exact List.filter_sublist.trans (List.dropWhile_sublist _)
      · rw [front_of_ne hsegments hfirst]
        exact List.filter_sublist.cons_cons first

theorem inner_sublist (base : String) : (inner base).Sublist (segments base) := by
  unfold inner
  split
  · exact front_sublist base
  · exact List.nil_sublist _

/-- Nothing is forgotten of an absolute path. -/
theorem inner_of_absolute (h : isAbsolute base = true) : inner base = [] := by
  obtain ⟨s, rest, hs⟩ := isAbsolute_iff.mp h
  unfold inner
  rw [hs]
  exact if_neg (by simp)

theorem front_sublist_of_absolute (h : isAbsolute base = true) :
    (front base).Sublist (stem base) := by
  obtain ⟨s, rest, hs⟩ := isAbsolute_iff.mp h
  rw [front_of_ne hs (by simp)]
  rcases segments_eq_stem base with hstem | hstem
  · rw [← hstem, hs]
    exact List.filter_sublist.cons_cons _
  · rw [hs] at hstem
    cases hfront : stem base with
    | nil => rw [hfront] at hstem; cases hstem
    | cons t others =>
        rw [hfront, List.cons_append] at hstem
        obtain ⟨rfl, hrest⟩ := List.cons.inj hstem
        rw [hrest, List.filter_append]
        simp

/-- What stands in front when dots were forgotten begins with a name. -/
theorem head_front_of_dot (h : searchPath? base = some search)
    (hsegments : segments base = ['.'] :: rest) :
    ∀ s ∈ (front base).head?, s ≠ [] ∧ s ≠ ['.'] := by
  rw [front_of_dot hsegments]
  intro s hs
  cases hdots : afterDots base with
  | nil =>
      rw [hdots] at hs
      cases hs
  | cons t others =>
      by_cases hempty : t = []
      · subst hempty
        rw [searchPath?_hidden (relative_of_dot hsegments) hdots] at h
        cases h
      · rw [hdots, List.filter_cons_of_pos (by simpa using hempty)] at hs
        obtain rfl := Option.some.inj hs
        exact ⟨hempty, head_afterDots hdots⟩

theorem slash_not_mem_front (hs : s ∈ front base) : '/' ∉ s := by
  cases hsegments : segments base with
  | nil => exact absurd hsegments (segments_ne_nil base)
  | cons first rest =>
      by_cases hfirst : first = ['.']
      · subst hfirst
        rw [front_of_dot hsegments] at hs
        exact slash_not_mem_afterDots (List.mem_filter.mp hs).1
      · rw [front_of_ne hsegments hfirst] at hs
        apply slash_not_mem (p := base)
        rw [hsegments]
        rcases List.mem_cons.mp hs with rfl | hs
        · exact List.mem_cons_self
        · exact List.mem_cons_of_mem first (List.mem_filter.mp hs).1

theorem foundPath_eq_ofSegments (h : searchPath? base = some search)
    (hnames : ∀ n ∈ names, IsName n) (hne : names ≠ []) :
    foundPath search names = ofSegments (front base ++ names.map String.toList) := by
  rw [← segments_foundPath h hnames hne, ofSegments_segments]

/-- Where dots were forgotten, what was found does not begin with the steps of the path. -/
theorem not_isPrefixOf_of_dot (h : searchPath? base = some search) (hnames : ∀ n ∈ names, IsName n)
    (hne : names ≠ []) (hsegments : segments base = ['.'] :: rest) :
    (components base).isPrefixOf (components (foundPath search names)) = false := by
  have hbase : components base = .here :: rest.filterMap Component.ofSegment? := by
    rw [components_eq, hsegments, steps_cons (Or.inl (by decide))]
    rfl
  have hsteps := components_names hnames (fun s hs => slash_not_mem_front hs)
    (head_front_of_dot h hsegments) hne
  rw [← foundPath_eq_ofSegments h hnames hne] at hsteps
  apply Bool.eq_false_iff.mpr
  intro hstarts
  have hmem : Component.here ∈ components (foundPath search names) :=
    (List.isPrefixOf_iff_prefix.mp hstarts).subset (by rw [hbase]; exact List.mem_cons_self)
  rw [hsteps] at hmem
  rcases List.mem_append.mp hmem with hmem | hmem
  · obtain ⟨s, -, hs⟩ := List.mem_filterMap.mp hmem
    exact ofSegment?_ne_here s hs
  · obtain ⟨n, -, hn⟩ := List.mem_map.mp hmem
    cases hn

/-- Otherwise it goes on behind them. -/
theorem components_of_ne (h : searchPath? base = some search) (hnames : ∀ n ∈ names, IsName n)
    (hne : names ≠ []) (hsegments : segments base = first :: rest) (hfirst : first ≠ ['.']) :
    components (foundPath search names) = components base ++ names.map .name := by
  have hsome : first ≠ [] ∨ rest ≠ [] := by
    by_cases hempty : first = []
    · right
      intro hnil
      subst hempty hnil
      have hbase : base = "" := eq_of_segments hsegments
      subst hbase
      cases h
    · exact Or.inl hempty
  have hbase : components base = (Component.ofFirst? (first = []) first).toList
      ++ rest.filterMap Component.ofSegment? := by
    rw [components_eq, hsegments, steps_cons hsome]
  rw [components_eq, segments_foundPath h hnames hne, front_of_ne hsegments hfirst, List.cons_append,
    steps_cons (Or.inr (by simp [hne])), List.filterMap_append, filterMap_filter_ne_nil,
    filterMap_names hnames, hbase, List.append_assoc]

theorem relativeTo_foundPath (h : searchPath? base = some search)
    (hnames : ∀ n ∈ names, IsName n) (hne : names ≠ []) :
    relativeTo base (foundPath search names)
      = ofSegments (inner base ++ names.map String.toList) := by
  unfold relativeTo inner
  cases hsegments : segments base with
  | nil => exact absurd hsegments (segments_ne_nil base)
  | cons first rest =>
      by_cases hfirst : first = ['.']
      · subst hfirst
        rw [not_isPrefixOf_of_dot h hnames hne hsegments, if_neg (by decide), List.head?_cons,
          if_pos rfl, foundPath_eq_ofSegments h hnames hne]
      · rw [components_of_ne h hnames hne hsegments hfirst, if_pos (by simp), List.drop_left,
          List.map_map, List.head?_cons, if_neg (by simpa using hfirst), List.nil_append,
          ofSegments_names (fun n hn => (hnames n hn).2) hne]
        congr 1
        exact List.map_id names

end EventDocs.Listing
