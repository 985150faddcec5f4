import EventDocs.FileSystem.Listing
import Mathlib.Data.List.Induction
import Mathlib.Data.List.TakeDrop
import Mathlib.Data.List.TakeWhile
import Mathlib.Data.String.Basic

/-
Paths are texts, but everything that is done to them is done to their segments: joining puts
segments behind segments, the parent leaves some out at the end, the steps are read off one
by one. So a path is its list of segments (`ofSegments_segments`), and each function on paths
has one lemma here that says what it does to the list.

The parent of a path that ends with a name is what stands in front of the name, without what
leads nowhere at the end of that (`parent?_of_name`).
-/

namespace EventDocs.Path

-- ============================================================ segments

theorem segments_ne_nil (p : String) : segments p ≠ [] := List.splitOn_ne_nil _ _

theorem ofSegments_segments (p : String) : ofSegments (segments p) = p := by
  unfold ofSegments segments
  rw [List.intercalate_splitOn, String.ofList_toList]

theorem segments_ofSegments {S : List (List Char)} (hslash : ∀ s ∈ S, '/' ∉ s) (hne : S ≠ []) :
    segments (ofSegments S) = S := by
  unfold segments ofSegments
  rw [String.toList_ofList, List.splitOn_intercalate '/' hslash hne]

theorem eq_of_segments {p q : String} (h : segments p = segments q) : p = q := by
  rw [← ofSegments_segments p, h, ofSegments_segments]

theorem ofSegments_append {S T : List (List Char)} (hS : S ≠ []) (hT : T ≠ []) :
    ofSegments (S ++ T) = ofSegments S ++ "/" ++ ofSegments T := by
  have hchars : ['/'].intercalate (S ++ T)
      = ['/'].intercalate S ++ '/' :: ['/'].intercalate T := by
    induction S with
    | nil => exact absurd rfl hS
    | cons s S ih =>
        cases S with
        | nil =>
            obtain ⟨t, T, rfl⟩ := List.exists_cons_of_ne_nil hT
            simp [List.intercalate_cons_cons]
        | cons s' S =>
            rw [List.cons_append, List.cons_append, List.intercalate_cons_cons,
              List.intercalate_cons_cons, ← List.cons_append, ih (List.cons_ne_nil s' S)]
            simp
  unfold ofSegments
  rw [← String.toList_inj, hchars]
  simp

/-- What stands between slashes has none, and is made of characters of the text. -/
theorem of_mem_splitOn {cs s : List Char} (h : s ∈ cs.splitOn '/') : '/' ∉ s ∧ ∀ c ∈ s, c ∈ cs := by
  induction cs generalizing s with
  | nil =>
      rw [List.splitOn_nil, List.mem_singleton] at h
      simp [h]
  | cons c cs ih =>
      rw [List.splitOn_cons_eq_if_modifyHead] at h
      by_cases hc : c = '/'
      · rw [if_pos (by simpa using hc)] at h
        rcases List.mem_cons.mp h with rfl | h
        · simp
        · exact ⟨(ih h).1, fun x hx => List.mem_cons_of_mem c ((ih h).2 x hx)⟩
      · rw [if_neg (by simpa using hc)] at h
        cases hsplit : cs.splitOn '/' with
        | nil => exact absurd hsplit (List.splitOn_ne_nil _ _)
        | cons first rest =>
            rw [hsplit, List.modifyHead_cons] at h
            rcases List.mem_cons.mp h with rfl | h
            · obtain ⟨hslash, hmem⟩ := ih (s := first) (by rw [hsplit]; exact List.mem_cons_self)
              constructor
              · simp [hslash, Ne.symm hc]
              · intro x hx
                rcases List.mem_cons.mp hx with rfl | hx
                · exact List.mem_cons_self
                · exact List.mem_cons_of_mem c (hmem x hx)
            · obtain ⟨hslash, hmem⟩ := ih (by rw [hsplit]; exact List.mem_cons_of_mem first h)
              exact ⟨hslash, fun x hx => List.mem_cons_of_mem c (hmem x hx)⟩

theorem slash_not_mem {p : String} {s : List Char} (h : s ∈ segments p) : '/' ∉ s :=
  (of_mem_splitOn h).1

theorem mem_of_mem_segments {p : String} {s : List Char} (h : s ∈ segments p) {c : Char}
    (hc : c ∈ s) : c ∈ p.toList :=
  (of_mem_splitOn h).2 c hc

theorem segments_of_not_mem {s : List Char} (h : '/' ∉ s) : segments (.ofList s) = [s] := by
  unfold segments
  rw [String.toList_ofList, List.splitOn_eq_singleton h]

theorem segments_slash (p q : String) : segments (p ++ "/" ++ q) = segments p ++ segments q := by
  unfold segments
  have htext : (p ++ "/" ++ q).toList = p.toList ++ '/' :: q.toList := by simp
  rw [htext, List.splitOn_append_cons_self]

theorem segments_intercalate {names : List String} (hslash : ∀ n ∈ names, '/' ∉ n.toList)
    (hne : names ≠ []) : segments ("/".intercalate names) = names.map String.toList := by
  unfold segments
  rw [String.toList_intercalate]
  apply List.splitOn_intercalate '/'
  · intro s hs
    obtain ⟨n, hn, rfl⟩ := List.mem_map.mp hs
    exact hslash n hn
  · simpa using hne

theorem ofSegments_names {names : List String} (hslash : ∀ n ∈ names, '/' ∉ n.toList)
    (hne : names ≠ []) : ofSegments (names.map String.toList) = "/".intercalate names := by
  rw [← segments_intercalate hslash hne, ofSegments_segments]

-- ============================================================ slashes at the ends

theorem eq_slash_of_isAbsolute {p : String} (h : isAbsolute p = true) : ∃ q, p = "/" ++ q := by
  unfold isAbsolute at h
  obtain ⟨cs, hcs⟩ := List.head?_eq_some_iff.mp (of_decide_eq_true h)
  refine ⟨.ofList cs, ?_⟩
  rw [← String.toList_inj, hcs]
  simp

/-- An absolute path is one with an empty segment in front of another. -/
theorem isAbsolute_iff {p : String} :
    isAbsolute p = true ↔ ∃ s rest, segments p = [] :: s :: rest := by
  constructor
  · intro h
    obtain ⟨q, rfl⟩ := eq_slash_of_isAbsolute h
    have hsegments := segments_slash "" q
    rw [show segments "" = [[]] from rfl, String.empty_append] at hsegments
    rw [hsegments]
    cases hq : segments q with
    | nil => exact absurd hq (segments_ne_nil q)
    | cons s rest => exact ⟨s, rest, rfl⟩
  · intro hsome
    obtain ⟨s, rest, h⟩ := hsome
    rw [← ofSegments_segments p, h]
    simp [isAbsolute, ofSegments, List.intercalate_cons_cons]

theorem isAbsolute_of_segments {p : String} {first : List Char} {rest : List (List Char)}
    (h : segments p = first :: rest) (hrest : rest ≠ []) :
    isAbsolute p = decide (first = []) := by
  rw [Bool.eq_iff_iff, isAbsolute_iff, h, decide_eq_true_iff]
  constructor
  · intro hsome
    obtain ⟨s, others, hs⟩ := hsome
    exact (List.cons.inj hs).1
  · intro heq
    subst heq
    obtain ⟨s, others, rfl⟩ := List.exists_cons_of_ne_nil hrest
    exact ⟨s, others, rfl⟩

theorem isAbsolute_of_singleton {p : String} {s : List Char} (h : segments p = [s]) :
    isAbsolute p = false := by
  apply Bool.eq_false_iff.mpr
  intro habsolute
  obtain ⟨t, rest, ht⟩ := isAbsolute_iff.mp habsolute
  rw [h] at ht
  cases ht

theorem isAbsolute_of_head {p : String} (h : ∀ s ∈ (segments p).head?, s ≠ []) :
    isAbsolute p = false := by
  apply Bool.eq_false_iff.mpr
  intro habsolute
  obtain ⟨t, rest, ht⟩ := isAbsolute_iff.mp habsolute
  rw [ht] at h
  exact h [] rfl rfl

theorem isAbsolute_ofList {s : List Char} (h : '/' ∉ s) : isAbsolute (.ofList s) = false := by
  unfold isAbsolute
  rw [String.toList_ofList]
  cases s with
  | nil => rfl
  | cons c s =>
      apply decide_eq_false
      intro hc
      exact h (Option.some.inj hc ▸ List.mem_cons_self)

theorem isAbsolute_intercalate {names : List String} (hslash : ∀ n ∈ names, '/' ∉ n.toList)
    (hempty : ∀ n ∈ names, n ≠ "") : isAbsolute ("/".intercalate names) = false := by
  cases names with
  | nil => rfl
  | cons n names =>
      cases h : isAbsolute ("/".intercalate (n :: names)) with
      | false => rfl
      | true =>
          obtain ⟨s, rest, hs⟩ := isAbsolute_iff.mp h
          rw [segments_intercalate hslash (List.cons_ne_nil n names), List.map_cons] at hs
          exact absurd (String.toList_eq_nil_iff.mp (List.cons.inj hs).1)
            (hempty n List.mem_cons_self)

/-- The segments of a path without the empty one behind a slash at its end. -/
def stem (p : String) : List (List Char) :=
  if p.toList.getLast? = some '/' then (segments p).dropLast else segments p

theorem stem_slash (p : String) : stem (p ++ "/") = segments p := by
  have hsegments := segments_slash p ""
  rw [String.append_empty] at hsegments
  unfold stem
  rw [if_pos (by simp), hsegments, show segments "" = [[]] from rfl, List.dropLast_concat]

/-- Either the path has no slash at its end, or it is its stem and an empty segment. -/
theorem segments_eq_stem (p : String) : segments p = stem p ∨ segments p = stem p ++ [[]] := by
  by_cases h : p.toList.getLast? = some '/'
  · obtain ⟨cs, hcs⟩ := List.getLast?_eq_some_iff.mp h
    have hp : p = .ofList cs ++ "/" := by
      rw [← String.toList_inj, hcs]
      simp
    right
    have hsegments := segments_slash (.ofList cs) ""
    rw [String.append_empty, ← hp] at hsegments
    rw [hsegments, hp, stem_slash]
    rfl
  · left
    unfold stem
    rw [if_neg h]

/-- A path with an empty segment at its end has a slash there, or is empty. -/
theorem getLast?_of_segments {p : String} {S : List (List Char)} (h : segments p = S ++ [[]])
    (hp : p ≠ "") : p.toList.getLast? = some '/' := by
  rcases segments_eq_stem p with hstem | hstem
  · by_cases hlast : p.toList.getLast? = some '/'
    · exact hlast
    · have hS : S ≠ [] := by
        intro heq
        subst heq
        exact hp (eq_of_segments h)
      have hslash : ∀ s ∈ S, '/' ∉ s := by
        intro s hs
        apply slash_not_mem (p := p)
        rw [h]
        exact List.mem_append_left _ hs
      have htext : p = ofSegments S ++ "/" := by
        apply eq_of_segments
        have hsegments := segments_slash (ofSegments S) ""
        rw [String.append_empty, segments_ofSegments hslash hS] at hsegments
        rw [h, hsegments]
        rfl
      rw [htext]
      simp
  · unfold stem at hstem
    by_cases hlast : p.toList.getLast? = some '/'
    · exact hlast
    · rw [if_neg hlast] at hstem
      exact absurd (congrArg List.length hstem) (by simp)

theorem segments_join {p q : String} (hp : p ≠ "") (hq : isAbsolute q = false) :
    segments (join p q) = stem p ++ segments q := by
  unfold join
  rw [if_neg (by simp [hp, hq])]
  by_cases h : p.toList.getLast? = some '/'
  · obtain ⟨cs, hcs⟩ := List.getLast?_eq_some_iff.mp h
    have hp : p = .ofList cs ++ "/" := by
      rw [← String.toList_inj, hcs]
      simp
    rw [if_pos h, hp, stem_slash, segments_slash]
  · rw [if_neg h, segments_slash]
    unfold stem
    rw [if_neg h]

theorem mem_segments_join {p q : String} {s : List Char} (h : s ∈ segments (join p q)) :
    s ∈ segments p ∨ s ∈ segments q := by
  by_cases hq : (isAbsolute q || decide (p = "")) = true
  · unfold join at h
    rw [if_pos hq] at h
    exact Or.inr h
  · simp only [Bool.or_eq_true, decide_eq_true_eq, not_or, Bool.not_eq_true] at hq
    rw [segments_join hq.2 hq.1] at h
    rcases List.mem_append.mp h with h | h
    · rcases segments_eq_stem p with hstem | hstem
      · rw [hstem]
        exact Or.inl h
      · rw [hstem]
        exact Or.inl (List.mem_append_left _ h)
    · exact Or.inr h

theorem isAbsolute_join {p q : String} (hp : p ≠ "") (hq : isAbsolute q = false) :
    isAbsolute (join p q) = isAbsolute p := by
  have hhead : ∀ t : String, (p ++ t).toList.head? = p.toList.head? := by
    intro t
    cases hchars : p.toList with
    | nil => exact absurd (String.toList_eq_nil_iff.mp hchars) hp
    | cons c cs => simp [hchars]
  unfold isAbsolute at hq ⊢
  unfold join isAbsolute
  rw [if_neg (by simp [hp, hq])]
  split
  · rw [hhead]
  · rw [String.append_assoc, hhead]

theorem stem_sublist (p : String) : (stem p).Sublist (segments p) := by
  rcases segments_eq_stem p with hstem | hstem
  · rw [hstem]
  · rw [hstem]
    exact List.sublist_append_left _ _

theorem stem_ne_nil {p : String} (hp : p ≠ "") : stem p ≠ [] := by
  rcases segments_eq_stem p with h | h
  · rw [← h]
    exact segments_ne_nil p
  · intro hnil
    rw [hnil] at h
    exact hp (eq_of_segments h)

theorem stem_join_ofList {p : String} {s : List Char} (hp : p ≠ "") (hs : '/' ∉ s) :
    stem (join p (.ofList s)) = stem p ++ [s].filter (· ≠ []) := by
  have hsegments := segments_join hp (isAbsolute_ofList hs)
  rw [segments_of_not_mem hs] at hsegments
  have htext : (join p (.ofList s)).toList = p.toList ++ s
      ∧ p.toList.getLast? = some '/' ∨ (join p (.ofList s)).toList = p.toList ++ '/' :: s := by
    unfold join
    rw [if_neg (by simp [hp, isAbsolute_ofList hs])]
    by_cases h : p.toList.getLast? = some '/'
    · rw [if_pos h]
      exact Or.inl ⟨by simp, h⟩
    · rw [if_neg h]
      exact Or.inr (by simp)
  unfold stem
  rw [hsegments]
  by_cases hempty : s = []
  · subst hempty
    have hlast : (join p (.ofList [])).toList.getLast? = some '/' := by
      rcases htext with ⟨htext, hlast⟩ | htext
      · rw [htext, List.append_nil, hlast]
      · rw [htext]
        simp
    rw [if_pos hlast, List.dropLast_concat]
    simp [stem]
  · have hlast : (join p (.ofList s)).toList.getLast? ≠ some '/' := by
      intro hlast
      obtain ⟨c, hc⟩ : ∃ c, s.getLast? = some c := ⟨_, List.getLast?_eq_some_getLast hempty⟩
      have hcs : c ∈ s := List.mem_of_getLast? hc
      have hend : (join p (.ofList s)).toList.getLast? = some c := by
        rcases htext with ⟨htext, -⟩ | htext
        · rw [htext, List.getLast?_append, hc, Option.some_or]
        · rw [htext, List.getLast?_append, List.getLast?_cons, hc]
          rfl
      rw [hend] at hlast
      exact hs (Option.some.inj hlast ▸ hcs)
    rw [if_neg hlast]
    simp [hempty, stem]

/-- What was joined to something holds a slash. -/
theorem slash_mem_join {p : String} {s : List Char} (hp : p ≠ "") (hs : '/' ∉ s) :
    '/' ∈ (join p (.ofList s)).toList := by
  unfold join
  rw [if_neg (by simp [hp, isAbsolute_ofList hs])]
  by_cases h : p.toList.getLast? = some '/'
  · rw [if_pos h]
    simp [List.mem_of_getLast? h]
  · rw [if_neg h]
    simp

-- ============================================================ steps

/-- The steps of some segments. -/
def steps : List (List Char) → List Component
  | [] => []
  | [first] => (Component.ofFirst? false first).toList
  | first :: second :: rest =>
    (Component.ofFirst? (first = []) first).toList
      ++ (second :: rest).filterMap Component.ofSegment?

theorem components_eq (p : String) : components p = steps (segments p) := by
  unfold components
  cases hp : segments p with
  | nil => rfl
  | cons first rest =>
      cases rest with
      | nil => simp only [isAbsolute_of_singleton hp, steps, List.filterMap_nil, List.append_nil]
      | cons second rest =>
          simp only [isAbsolute_of_segments hp (List.cons_ne_nil second rest), steps]

/-- A text that names something in a directory. -/
def IsName (n : String) : Prop := FileSystem.isName n.toList = true ∧ '/' ∉ n.toList

instance (n : String) : Decidable (IsName n) := inferInstanceAs (Decidable (_ ∧ _))

theorem IsName.ne_empty {n : String} (h : IsName n) : n ≠ "" := by
  intro heq
  subst heq
  exact absurd h.1 (by decide)

theorem IsName.ofSegment? {n : String} (h : IsName n) :
    Component.ofSegment? n.toList = some (.name n) := by
  have hname := h.1
  unfold FileSystem.isName at hname
  simp only [Bool.and_eq_true, Bool.not_eq_true', decide_eq_true_eq] at hname
  unfold Component.ofSegment?
  rw [if_neg (by simp [hname.1]), if_neg hname.2, String.ofList_toList]

theorem ofSegment?_ne_here (s : List Char) : Component.ofSegment? s ≠ some .here := by
  unfold Component.ofSegment?
  split
  · simp
  · split <;> simp

/-- The first step of a relative path goes by the same rule, but for a dot. -/
theorem ofFirst?_false {s : List Char} (h : s ≠ ['.']) :
    Component.ofFirst? false s = Component.ofSegment? s := by
  unfold Component.ofFirst?
  rw [if_neg (by decide), if_neg h]

variable {names : List String}

theorem filterMap_names (hnames : ∀ n ∈ names, IsName n) :
    (names.map String.toList).filterMap Component.ofSegment? = names.map .name := by
  induction names with
  | nil => rfl
  | cons n names ih =>
      rw [List.map_cons, List.filterMap_cons, (hnames n List.mem_cons_self).ofSegment?,
        ih fun m hm => hnames m (List.mem_cons_of_mem n hm)]
      rfl

theorem steps_cons {first : List Char} {rest : List (List Char)} (h : first ≠ [] ∨ rest ≠ []) :
    steps (first :: rest) = (Component.ofFirst? (first = []) first).toList
      ++ rest.filterMap Component.ofSegment? := by
  cases rest with
  | nil =>
      have hempty : decide (first = []) = false :=
        decide_eq_false (h.resolve_right fun hne => hne rfl)
      simp only [steps, hempty, List.filterMap_nil, List.append_nil]
  | cons second rest => rfl

/-- Empty segments are no steps. -/
theorem filterMap_filter_ne_nil (S : List (List Char)) :
    (S.filter (· ≠ [])).filterMap Component.ofSegment? = S.filterMap Component.ofSegment? := by
  rw [List.filterMap_filter]
  apply List.filterMap_congr
  intro s _
  by_cases hs : s = []
  · subst hs
    rfl
  · simp [hs]

theorem components_names (hnames : ∀ n ∈ names, IsName n) {S : List (List Char)}
    (hslash : ∀ s ∈ S, '/' ∉ s) (hfirst : ∀ s ∈ S.head?, s ≠ [] ∧ s ≠ ['.']) (hne : names ≠ []) :
    components (ofSegments (S ++ names.map String.toList))
      = S.filterMap Component.ofSegment? ++ names.map .name := by
  have hall : ∀ s ∈ S ++ names.map String.toList, '/' ∉ s := by
    intro s hs
    rcases List.mem_append.mp hs with hs | hs
    · exact hslash s hs
    · obtain ⟨n, hn, rfl⟩ := List.mem_map.mp hs
      exact (hnames n hn).2
  have hhead : ∀ s ∈ (S ++ names.map String.toList).head?, s ≠ [] ∧ s ≠ ['.'] := by
    intro s hs
    cases S with
    | cons t S => exact hfirst s hs
    | nil =>
        obtain ⟨n, rest, rfl⟩ := List.exists_cons_of_ne_nil hne
        obtain rfl := Option.some.inj hs
        have hname := (hnames n List.mem_cons_self).1
        constructor <;> (intro h; rw [h] at hname; cases hname)
  rw [components_eq, segments_ofSegments hall (by simp [hne]), ← filterMap_names hnames,
    ← List.filterMap_append]
  cases hS : S ++ names.map String.toList with
  | nil => simp [hne] at hS
  | cons first rest =>
      obtain ⟨hempty, hdot⟩ := hhead first (by rw [hS]; rfl)
      rw [steps_cons (Or.inl hempty), decide_eq_false hempty, ofFirst?_false hdot,
        List.filterMap_cons]
      cases Component.ofSegment? first <;> rfl

-- ============================================================ names at the end

theorem IsName.not_idle {n : String} (h : IsName n) : isIdle n.toList = false := by
  have hname := h.1
  unfold FileSystem.isName at hname
  simp only [Bool.and_eq_true, Bool.not_eq_true'] at hname
  exact hname.1

theorem ofSegment?_idle {s : List Char} (h : isIdle s = true) : Component.ofSegment? s = none :=
  if_pos h

theorem filterMap_idle {S : List (List Char)} (h : ∀ s ∈ S, isIdle s = true) :
    S.filterMap Component.ofSegment? = [] := by
  apply List.filterMap_eq_nil_iff.mpr
  intro s hs
  exact ofSegment?_idle (h s hs)

/-- The name that a path ends with, whatever leads nowhere behind it. -/
theorem fileName?_of_segments {p n : String} {S T : List (List Char)}
    (h : segments p = S ++ n.toList :: T) (hn : IsName n) (hT : ∀ t ∈ T, isIdle t = true) :
    fileName? p = some n := by
  have hlast : (components p).getLast? = some (.name n) := by
    rw [components_eq, h]
    cases S with
    | nil =>
        have hne : n.toList ≠ [] := by
          intro hnil
          exact hn.ne_empty (String.toList_eq_nil_iff.mp hnil)
        have hdot : n.toList ≠ ['.'] := by
          intro hdot
          have hname := hn.1
          rw [hdot] at hname
          cases hname
        rw [List.nil_append, steps_cons (Or.inl hne), filterMap_idle hT, decide_eq_false hne,
          ofFirst?_false hdot, hn.ofSegment?]
        rfl
    | cons s S =>
        rw [List.cons_append, steps_cons (Or.inr (by simp)), List.filterMap_append,
          List.filterMap_cons, hn.ofSegment?, filterMap_idle hT, ← List.append_assoc]
        exact List.getLast?_concat
  unfold fileName?
  rw [hlast]

/-- The names among some segments. -/
def namesOf (S : List (List Char)) : Place := (S.filter (!isIdle ·)).map String.ofList

@[simp] theorem namesOf_append (S T : List (List Char)) :
    namesOf (S ++ T) = namesOf S ++ namesOf T := by
  simp [namesOf]

theorem namesOf_idle {S : List (List Char)} (h : ∀ s ∈ S, isIdle s = true) : namesOf S = [] := by
  simpa [namesOf] using h

theorem namesOf_names (hnames : ∀ n ∈ names, IsName n) : namesOf (names.map String.toList) = names := by
  induction names with
  | nil => rfl
  | cons n names ih =>
      have hn := (hnames n List.mem_cons_self).not_idle
      have hrest := ih fun m hm => hnames m (List.mem_cons_of_mem n hm)
      unfold namesOf at hrest ⊢
      rw [List.map_cons, List.filter_cons_of_pos (by simp [hn]), List.map_cons, hrest,
        String.ofList_toList]

/-- Where no step goes up, the steps are the names. -/
theorem filterMap_namesOf {S : List (List Char)} (hup : ∀ s ∈ S, s ≠ ['.', '.']) :
    S.filterMap Component.ofSegment? = (namesOf S).map .name := by
  induction S with
  | nil => rfl
  | cons s S ih =>
      have hrest := ih fun t ht => hup t (List.mem_cons_of_mem s ht)
      unfold namesOf at hrest ⊢
      rw [List.filterMap_cons, hrest, Component.ofSegment?]
      cases hidle : isIdle s with
      | true => simp [hidle]
      | false => simp [hidle, hup s List.mem_cons_self]

-- ============================================================ endings

/-- A text without slashes at the end of a path is at the end of its last segment. -/
theorem segments_append {t : List Char} (h : '/' ∉ t) (p : String) :
    ∃ S s, segments p = S ++ [s] ∧ segments (p ++ .ofList t) = S ++ [s ++ t] := by
  obtain ⟨S, s, hp⟩ : ∃ S s, segments p = S ++ [s] :=
    ⟨_, _, (List.dropLast_append_getLast (segments_ne_nil p)).symm⟩
  refine ⟨S, s, hp, ?_⟩
  have hslash : ∀ r ∈ S ++ [s ++ t], '/' ∉ r := by
    intro r hr
    rcases List.mem_append.mp hr with hr | hr
    · apply slash_not_mem (p := p)
      rw [hp]
      exact List.mem_append_left _ hr
    · rw [List.mem_singleton.mp hr, List.mem_append, not_or]
      refine ⟨slash_not_mem (p := p) ?_, h⟩
      rw [hp]
      simp
  have htext : p ++ .ofList t = ofSegments (S ++ [s ++ t]) := by
    rw [← ofSegments_segments p, hp]
    by_cases hS : S = []
    · rw [hS]
      simp [ofSegments]
    · rw [ofSegments_append hS (by simp), ofSegments_append hS (by simp)]
      simp [ofSegments, String.append_assoc]
  rw [htext, segments_ofSegments hslash (by simp)]

/-- What is behind the last dot of a name, unless nothing is in front of it. -/
theorem extension_append {e : List Char} (h : '.' ∉ e) (t : List Char) :
    extension (.ofList (t ++ '.' :: e)) = if t = [] then "" else .ofList e := by
  have hspan : (t ++ '.' :: e).reverse.span (· ≠ '.') = (e.reverse, '.' :: t.reverse) := by
    have hreverse : (t ++ '.' :: e).reverse = e.reverse ++ '.' :: t.reverse := by simp
    have hall : ∀ c ∈ e.reverse, decide (c ≠ '.') = true := by
      intro c hc
      simp only [ne_eq, decide_not, Bool.not_eq_true', decide_eq_false_iff_not]
      intro heq
      subst heq
      exact h (List.mem_reverse.mp hc)
    rw [List.span_eq_takeWhile_dropWhile, hreverse, List.takeWhile_append_of_pos hall,
      List.dropWhile_append_of_pos hall]
    simp
  unfold extension
  rw [String.toList_ofList, hspan]
  cases t using List.reverseRecOn with
  | nil => rfl
  | append_singleton t c => simp

theorem join_append (p q t : String) : ∃ front, join p (q ++ t) = front ++ t := by
  unfold join
  split
  · exact ⟨q, rfl⟩
  · split
    · exact ⟨p ++ q, String.append_assoc.symm⟩
    · exact ⟨p ++ "/" ++ q, String.append_assoc.symm⟩

-- ============================================================ parents

theorem dropTrailing_append {α : Type} (q : α → Bool) (xs : List α) :
    ∃ ys, xs = Text.dropTrailing q xs ++ ys ∧ ∀ y ∈ ys, q y = true := by
  refine ⟨(xs.reverse.takeWhile q).reverse, ?_, ?_⟩
  · unfold Text.dropTrailing
    rw [← List.reverse_append, List.takeWhile_append_dropWhile, List.reverse_reverse]
  · intro y hy
    exact List.mem_takeWhile_imp (List.mem_reverse.mp hy)

theorem parent?_eq {path n : String} {first : List Char} {R : List (List Char)}
    (h : segments path = first :: (R ++ [n.toList])) (hn : IsName n) :
    parent? path = some (if Text.dropTrailing isIdle R = [] ∧ first = [] then "/"
      else ofSegments (first :: Text.dropTrailing isIdle R)) := by
  unfold parent?
  simp only [h, Text.dropTrailing_append_of_not isIdle R hn.not_idle]
  cases hwhole : R ++ [n.toList] with
  | nil => simp at hwhole
  | cons s rest =>
      have hfront : (s :: rest).dropLast = R := by
        rw [← hwhole, List.dropLast_concat]
      simp only [hfront]
      cases Text.dropTrailing isIdle R with
      | nil =>
          by_cases hfirst : first = []
          · simp [hfirst]
          · simp [hfirst, ofSegments]
      | cons t K => simp

theorem dropTrailing_eq_nil_or {R : List (List Char)} :
    Text.dropTrailing isIdle R = []
      ∨ ∃ K m, Text.dropTrailing isIdle R = K ++ [m] ∧ isIdle m = false := by
  unfold Text.dropTrailing
  cases hdrop : R.reverse.dropWhile isIdle with
  | nil => exact Or.inl rfl
  | cons m K =>
      have hnot := List.head?_dropWhile_not isIdle R.reverse
      rw [hdrop] at hnot
      exact Or.inr ⟨K.reverse, m, by simp, by simpa using hnot⟩

/-- The parent of a path that ends with a name: what stands in front of the name (`B`), but
for what leads nowhere at its end. For a name right below the root it is the root, with an
empty segment more. -/
theorem parent?_of_name {path n : String} {S : List (List Char)}
    (h : segments path = S ++ [n.toList]) (hS : S ≠ []) (hn : IsName n) :
    ∃ holder rest B E T, parent? path = some holder ∧ path = holder ++ rest ∧ holder ≠ ""
      ∧ isAbsolute holder = isAbsolute path ∧ segments holder = B ++ E ∧ S = B ++ T
      ∧ (∀ s ∈ E, isIdle s = true) ∧ (∀ s ∈ T, isIdle s = true)
      ∧ (B.length = 1 ∨ E = [] ∧ ∃ B' m, B = B' ++ [m] ∧ isIdle m = false) := by
  obtain ⟨first, R, rfl⟩ := List.exists_cons_of_ne_nil hS
  rw [List.cons_append] at h
  have hparent := parent?_eq h hn
  have habsolute := isAbsolute_of_segments h (by simp)
  obtain ⟨T, hR, hT⟩ := dropTrailing_append isIdle R
  have hkept := @dropTrailing_eq_nil_or R
  generalize Text.dropTrailing isIdle R = K at hparent hR hkept
  by_cases hroot : K = [] ∧ first = []
  · obtain ⟨rfl, rfl⟩ := hroot
    obtain ⟨rest, hrest⟩ := eq_slash_of_isAbsolute (habsolute.trans (by simp))
    refine ⟨"/", rest, [[]], [[]], T, by simpa using hparent, hrest, by decide, ?_, by decide,
      by rw [hR]; rfl, by decide, hT, Or.inl rfl⟩
    rw [habsolute]
    decide
  · rw [if_neg hroot] at hparent
    have hsegments : segments (ofSegments (first :: K)) = first :: K := by
      apply segments_ofSegments _ (by simp)
      intro s hs
      apply slash_not_mem (p := path)
      rw [h, hR, ← List.cons_append, ← List.cons_append]
      exact List.mem_append_left _ (List.mem_append_left _ hs)
    have htext : path = ofSegments (first :: K) ++ "/" ++ ofSegments (T ++ [n.toList]) := by
      rw [← ofSegments_append (by simp) (by simp), ← ofSegments_segments path, h]
      nth_rewrite 1 [hR]
      simp
    refine ⟨ofSegments (first :: K), "/" ++ ofSegments (T ++ [n.toList]), first :: K, [], T, hparent,
      by rw [← String.append_assoc, ← htext], ?_, ?_, by rw [hsegments, List.append_nil],
      by rw [hR]; rfl, by simp, hT, ?_⟩
    · intro hempty
      rw [hempty] at hsegments
      obtain ⟨hfirst, hK⟩ := List.cons.inj hsegments
      exact hroot ⟨hK.symm, hfirst.symm⟩
    · rw [habsolute]
      cases K with
      | nil =>
          have hfirst : first ≠ [] := fun hfirst => hroot ⟨rfl, hfirst⟩
          rw [decide_eq_false hfirst]
          exact isAbsolute_of_singleton hsegments
      | cons s K => exact isAbsolute_of_segments hsegments (List.cons_ne_nil s K)
    · rcases hkept with rfl | ⟨K', m, rfl, hm⟩
      · exact Or.inl rfl
      · exact Or.inr ⟨rfl, first :: K', m, rfl, hm⟩

/-- What stands in front of the name is cut in two: the parent ends where it is cut, or at
the last name behind the cut. -/
theorem front_cases {holder : String} {B X K E T : List (List Char)} (hB : B ≠ [])
    (hholder : segments holder = K ++ E) (hfront : B ++ X = K ++ T)
    (hT : ∀ s ∈ T, isIdle s = true)
    (hlast : K.length = 1 ∨ E = [] ∧ ∃ K' m, K = K' ++ [m] ∧ isIdle m = false) :
    (∀ x ∈ X, isIdle x = true)
      ∨ ∃ Y m, isIdle m = false ∧ X = Y ++ m :: T ∧ segments holder = B ++ Y ++ [m] := by
  rcases List.append_eq_append_iff.mp hfront with ⟨Y, hK, rfl⟩ | ⟨Y, -, rfl⟩
  · cases Y using List.reverseRecOn with
    | nil => exact Or.inl hT
    | append_singleton Y m =>
        rcases hlast with hone | ⟨rfl, K', m', hK', hm⟩
        · have hlength := List.length_pos_of_ne_nil hB
          rw [hK] at hone
          simp only [List.length_append, List.length_singleton] at hone
          omega
        · rw [hK, ← List.append_assoc] at hK'
          obtain ⟨-, hmm⟩ := List.append_inj' hK' rfl
          rw [← (List.cons.inj hmm).1] at hm
          refine Or.inr ⟨Y, m, hm, by simp, ?_⟩
          rw [hholder, hK]
          simp
  · left
    intro x hx
    exact hT x (List.mem_append_right Y hx)

-- ============================================================ sizes

theorem length_splitOn_le (cs : List Char) : (cs.splitOn '/').length ≤ cs.length + 1 := by
  induction cs with
  | nil => simp
  | cons c cs ih =>
      rw [List.splitOn_cons_eq_if_modifyHead]
      by_cases hc : (c == '/') = true
      · rw [if_pos hc]
        simpa using ih
      · rw [if_neg hc, List.length_modifyHead]
        exact Nat.le_succ_of_le ih

theorem length_segments_le (p : String) : (segments p).length ≤ p.length + 1 :=
  length_splitOn_le p.toList

/-- A parent is longer than it has names behind any cut. -/
theorem length_namesOf_le {holder : String} {B X K E T : List (List Char)} (hB : B ≠ [])
    (hholder : segments holder = K ++ E) (hfront : B ++ X = K ++ T)
    (hT : ∀ s ∈ T, isIdle s = true) (hK : K ≠ []) : (namesOf X).length ≤ holder.length := by
  obtain ⟨b, B, rfl⟩ := List.exists_cons_of_ne_nil hB
  obtain ⟨k, K, rfl⟩ := List.exists_cons_of_ne_nil hK
  rw [List.cons_append, List.cons_append] at hfront
  obtain ⟨-, hrest⟩ := List.cons.inj hfront
  have hsize := length_segments_le holder
  have hnames : (namesOf (B ++ X)).length ≤ K.length := by
    rw [hrest, namesOf_append, namesOf_idle hT, List.append_nil, namesOf, List.length_map]
    exact List.length_filter_le _ _
  rw [namesOf_append, List.length_append] at hnames
  rw [hholder, List.length_append, List.length_cons] at hsize
  omega

theorem mem_ofSegments {S : List (List Char)} {c : Char} (h : c ∈ (ofSegments S).toList) :
    c = '/' ∨ ∃ s ∈ S, c ∈ s := by
  unfold ofSegments at h
  rw [String.toList_ofList] at h
  induction S with
  | nil => cases h
  | cons s S ih =>
      cases S with
      | nil =>
          rw [List.intercalate_singleton] at h
          exact Or.inr ⟨s, List.mem_cons_self, h⟩
      | cons t S =>
          rw [List.intercalate_cons_cons] at h
          rcases List.mem_append.mp h with h | h
          · rcases List.mem_append.mp h with h | h
            · exact Or.inr ⟨s, List.mem_cons_self, h⟩
            · exact Or.inl (List.mem_singleton.mp h)
          · rcases ih h with h | ⟨r, hr, hc⟩
            · exact Or.inl h
            · exact Or.inr ⟨r, List.mem_cons_of_mem s hr, hc⟩

theorem intercalate_sublist {S T : List (List Char)} (h : S.Sublist T) :
    (['/'].intercalate S).Sublist (['/'].intercalate T) := by
  induction h with
  | slnil => exact List.Sublist.refl _
  | @cons S T t h ih =>
      cases T with
      | nil =>
          rw [List.sublist_nil.mp h]
          exact List.nil_sublist _
      | cons t' T =>
          rw [List.intercalate_cons_cons]
          exact ih.trans (List.sublist_append_right _ _)
  | @cons_cons S T t h ih =>
      cases S with
      | nil =>
          cases T with
          | nil => exact List.Sublist.refl _
          | cons t' T =>
              rw [List.intercalate_cons_cons, List.intercalate_singleton]
              simp
      | cons s S =>
          cases T with
          | nil => cases h
          | cons t' T =>
              rw [List.intercalate_cons_cons, List.intercalate_cons_cons]
              exact List.Sublist.append (List.Sublist.refl _) ih

theorem utf8ByteSize_sublist {cs ds : List Char} (h : cs.Sublist ds) :
    (String.ofList cs).utf8ByteSize ≤ (String.ofList ds).utf8ByteSize := by
  induction h with
  | slnil => exact Nat.le_refl _
  | cons c h ih =>
      rw [String.ofList_cons, String.utf8ByteSize_append]
      omega
  | cons_cons c h ih =>
      rw [String.ofList_cons, String.ofList_cons, String.utf8ByteSize_append,
        String.utf8ByteSize_append]
      omega

/-- A path with fewer segments is short enough if the longer one is. -/
theorem fits_of_sublist {S : List (List Char)} {p : String} (h : S.Sublist (segments p))
    (hfits : FileSystem.fits p = true) : FileSystem.fits (ofSegments S) = true := by
  unfold FileSystem.fits at hfits ⊢
  have hsize := utf8ByteSize_sublist (intercalate_sublist h)
  have htext : String.ofList (['/'].intercalate (segments p)) = p := ofSegments_segments p
  rw [htext] at hsize
  exact decide_eq_true (Nat.le_trans hsize (of_decide_eq_true hfits))

end EventDocs.Path
