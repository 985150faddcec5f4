import EventDocs.Proofs.FileSystem.Paths

/-
What is where, and where paths lead.

A file system is seen through `get?`: what putting something somewhere and taking things
away do is said by one equation each. The places that can hold something are those of a tree
of names (`WellFormed`): whatever is somewhere is in a directory.

A path is followed from directory to directory, and what it passes through has to be a
directory at each step. So where a path leads depends on the directories that it visits and
on nothing else (`follow_of_visits`): it leads to the same place in any file system that has
these directories, whatever else was made, written or taken away.
-/

namespace EventDocs.FileSystem

open EventDocs.Path

variable {fs fs' : FileSystem}

-- ============================================================ the view

@[simp] theorem get?_nil (fs : FileSystem) : fs.get? [] = some .directory := if_pos rfl

theorem lookup_filter_not (entries : List (Place × Entry)) (gone : Place → Bool) (p : Place) :
    (entries.filter fun x => !gone x.1).lookup p
      = if gone p = true then none else entries.lookup p := by
  induction entries with
  | nil => simp
  | cons entry rest ih =>
      obtain ⟨q, e⟩ := entry
      by_cases hq : gone q = true
      · rw [List.filter_cons_of_neg (by simp [hq]), ih, List.lookup_cons]
        by_cases hp : p = q
        · subst hp
          rw [if_pos hq, if_pos hq]
        · rw [show (p == q) = false by simpa using hp]
      · rw [List.filter_cons_of_pos (by simpa using hq), List.lookup_cons, List.lookup_cons, ih]
        by_cases hp : p = q
        · subst hp
          simp [hq]
        · rw [show (p == q) = false by simpa using hp]

theorem get?_put (fs : FileSystem) {p : Place} (hp : p ≠ []) (e : Entry) (q : Place) :
    (fs.put p e).get? q = if q = p then some e else fs.get? q := by
  unfold get? put
  by_cases hq : q = []
  · subst hq
    rw [if_pos rfl, if_pos rfl, if_neg hp.symm]
  · rw [if_neg hq, if_neg hq, List.lookup_cons]
    have hfilter := lookup_filter_not fs.entries (fun x => decide (x = p)) q
    by_cases hqp : q = p
    · simp [hqp]
    · rw [show (q == p) = false by simpa using hqp, if_neg hqp]
      rw [if_neg (by simpa using hqp)] at hfilter
      simpa using hfilter

theorem get?_removeWhere (fs : FileSystem) (gone : Place → Bool) (hroot : gone [] = false)
    (p : Place) :
    (fs.removeWhere gone).get? p = if gone p = true then none else fs.get? p := by
  unfold get? removeWhere
  by_cases hp : p = []
  · subst hp
    simp [hroot]
  · rw [if_neg hp, if_neg hp]
    exact lookup_filter_not fs.entries gone p

theorem mem_entries_iff {p : Place} (hp : p ≠ []) {e : Entry} :
    (p, e) ∈ fs.entries ↔ fs.get? p = some e := by
  unfold get?
  rw [if_neg hp, List.lookup_eq_some_iff]
  constructor
  · intro hmem
    obtain ⟨before, after, hsplit⟩ := List.append_of_mem hmem
    refine ⟨before, after, hsplit, ?_⟩
    intro x hx
    have hnodup := fs.distinct
    rw [hsplit, List.map_append, List.nodup_append] at hnodup
    have hne := hnodup.2.2 x.1 (List.mem_map_of_mem hx) p (by simp)
    simpa using Ne.symm hne
  · intro hsome
    obtain ⟨before, after, hsplit, -⟩ := hsome
    rw [hsplit]
    simp

-- ============================================================ trees of names

/-- A name that something can have. -/
structure ProperName (n : String) : Prop where
  isName : IsName n
  noZero : '\x00' ∉ n.toList
  short : n.utf8ByteSize ≤ maxNameBytes

instance (n : String) : Decidable (ProperName n) :=
  decidable_of_iff (IsName n ∧ '\x00' ∉ n.toList ∧ n.utf8ByteSize ≤ maxNameBytes)
    ⟨fun h => ⟨h.1, h.2.1, h.2.2⟩, fun h => ⟨h.isName, h.noZero, h.short⟩⟩

/-- Everything has proper names and is in a directory, and there is a directory that
relative paths start from. -/
structure WellFormed (fs : FileSystem) : Prop where
  proper : ∀ {p : Place} {e : Entry}, fs.get? p = some e → ∀ n ∈ p, ProperName n
  closed : ∀ {p : Place} {n : String} {e : Entry}, fs.get? (p ++ [n]) = some e →
    fs.get? p = some .directory
  here : fs.get? fs.here = some .directory

namespace WellFormed

/-- What something is in, is in a directory in turn, and so on. -/
theorem directory_above (h : fs.WellFormed) {p q : Place} {e : Entry}
    (hget : fs.get? (p ++ q) = some e) (hq : q ≠ []) : fs.get? p = some .directory := by
  induction q using List.reverseRecOn generalizing e with
  | nil => exact absurd rfl hq
  | append_singleton q n ih =>
      rw [← List.append_assoc] at hget
      have hdirectory := h.closed hget
      by_cases hnil : q = []
      · subst hnil
        rw [List.append_nil] at hdirectory
        exact hdirectory
      · exact ih hdirectory hnil

/-- There is nothing below a file, nor below a place where there is nothing. -/
theorem get?_below (h : fs.WellFormed) {p q : Place} (hp : fs.get? p ≠ some .directory)
    (hq : q ≠ []) : fs.get? (p ++ q) = none := by
  cases hget : fs.get? (p ++ q) with
  | none => rfl
  | some e => exact absurd (h.directory_above hget hq) hp

/-- Something new in a directory; a directory is never replaced by a file. -/
theorem put (h : fs.WellFormed) {p : Place} {n : String} (hp : fs.get? p = some .directory)
    (hn : ProperName n) {e : Entry} (he : fs.get? (p ++ [n]) = some .directory → e = .directory) :
    (fs.put (p ++ [n]) e).WellFormed := by
  have hview := get?_put fs (p := p ++ [n]) (by simp) e
  have hkeep : ∀ {q : Place}, fs.get? q = some .directory →
      (fs.put (p ++ [n]) e).get? q = some .directory := by
    intro q hq
    rw [hview]
    by_cases hqp : q = p ++ [n]
    · rw [if_pos hqp, he (hqp ▸ hq)]
    · rw [if_neg hqp, hq]
  refine ⟨?_, ?_, hkeep h.here⟩
  · intro q d hq m hm
    rw [hview] at hq
    by_cases hqp : q = p ++ [n]
    · subst hqp
      rcases List.mem_append.mp hm with hm | hm
      · exact h.proper hp m hm
      · exact List.mem_singleton.mp hm ▸ hn
    · rw [if_neg hqp] at hq
      exact h.proper hq m hm
  · intro q m d hq
    rw [hview] at hq
    by_cases hqp : q ++ [m] = p ++ [n]
    · obtain ⟨rfl, -⟩ := List.append_inj' hqp rfl
      exact hkeep hp
    · rw [if_neg hqp] at hq
      exact hkeep (h.closed hq)

theorem of_view (h : fs.WellFormed) (hhere : fs'.here = fs.here)
    (hview : ∀ p, fs'.get? p = fs.get? p) : fs'.WellFormed := by
  refine ⟨?_, ?_, ?_⟩
  · intro p e hp
    exact h.proper (hview p ▸ hp)
  · intro p n e hp
    rw [hview] at hp ⊢
    exact h.closed hp
  · rw [hhere, hview]
    exact h.here

theorem goTo (h : fs.WellFormed) {p : Place} (hp : fs.get? p = some .directory) :
    (fs.goTo p).WellFormed :=
  ⟨h.proper, h.closed, hp⟩

/-- Being well formed is a matter of what is in the table. -/
theorem iff_entries : fs.WellFormed ↔
    (∀ x ∈ fs.entries, x.1 ≠ [] → (∀ n ∈ x.1, ProperName n)
      ∧ fs.get? x.1.dropLast = some .directory)
    ∧ fs.get? fs.here = some .directory := by
  constructor
  · intro h
    refine ⟨?_, h.here⟩
    intro x hx hne
    have hget := (mem_entries_iff hne).mp hx
    refine ⟨h.proper hget, ?_⟩
    rw [← List.dropLast_append_getLast hne] at hget
    exact h.closed hget
  · intro hboth
    obtain ⟨hentries, hhere⟩ := hboth
    refine ⟨?_, ?_, hhere⟩
    · intro p e hget n hn
      have hne : p ≠ [] := List.ne_nil_of_mem hn
      exact (hentries _ ((mem_entries_iff hne).mpr hget) hne).1 n hn
    · intro p n e hget
      have hne : p ++ [n] ≠ [] := by simp
      have habove := (hentries _ ((mem_entries_iff hne).mpr hget) hne).2
      rw [List.dropLast_concat] at habove
      exact habove

instance (fs : FileSystem) : Decidable fs.WellFormed := decidable_of_iff _ iff_entries.symm

end WellFormed

-- ============================================================ steps

theorem directory_of_enter {p q : Place} {s : List Char} (h : fs.enter p s = .ok q) :
    fs.get? p = some .directory := by
  unfold enter at h
  cases hget : fs.get? p with
  | none =>
      rw [hget] at h
      cases h
  | some e =>
      cases e with
      | directory => rfl
      | file c =>
          rw [hget] at h
          cases h

theorem enter_of_directory {p : Place} (h : fs.get? p = some .directory) (s : List Char) :
    fs.enter p s = if isIdle s then .ok p else if s = ['.', '.'] then .ok p.dropLast
      else child p s := by
  unfold enter
  rw [h]

theorem enter_idle {p : Place} (h : fs.get? p = some .directory) {s : List Char}
    (hs : isIdle s = true) : fs.enter p s = .ok p := by
  rw [enter_of_directory h, if_pos hs]

theorem child_eq {n : String} (h : ProperName n) (p : Place) :
    child p n.toList = .ok (p ++ [n]) := by
  unfold child
  rw [String.ofList_toList]
  exact if_pos h.short

theorem isName_iff {s : List Char} : isName s = true ↔ isIdle s = false ∧ s ≠ ['.', '.'] := by
  unfold isName
  simp

/-- What is longer than two dots is a name. -/
theorem isName_of_length {s : List Char} (h : 3 ≤ s.length) : isName s = true := by
  refine isName_iff.mpr ⟨?_, ?_⟩
  · cases hidle : isIdle s with
    | false => rfl
    | true =>
        simp only [isIdle, Bool.or_eq_true, decide_eq_true_eq] at hidle
        rcases hidle with rfl | rfl
        · simp at h
        · simp at h
  · rintro rfl
    simp at h

theorem enter_name {p : Place} (h : fs.get? p = some .directory) {n : String}
    (hn : ProperName n) : fs.enter p n.toList = .ok (p ++ [n]) := by
  obtain ⟨hidle, hup⟩ := isName_iff.mp hn.isName.1
  rw [enter_of_directory h, if_neg (by simp [hidle]), if_neg hup, child_eq hn]

theorem child_ok {p q : Place} {s : List Char} (h : child p s = .ok q) :
    q = p ++ [String.ofList s] ∧ (String.ofList s).utf8ByteSize ≤ maxNameBytes := by
  unfold child at h
  by_cases hs : (String.ofList s).utf8ByteSize ≤ maxNameBytes
  · rw [if_pos hs] at h
    exact ⟨(Except.ok.inj h).symm, hs⟩
  · rw [if_neg hs] at h
    cases h

-- ============================================================ following

@[simp] theorem follow_nil (fs : FileSystem) (p : Place) : fs.follow p [] = .ok p := rfl

theorem follow_cons_ok {p q : Place} {s : List Char} {S : List (List Char)} :
    fs.follow p (s :: S) = .ok q ↔ ∃ r, fs.enter p s = .ok r ∧ fs.follow r S = .ok q := by
  unfold follow
  rw [List.foldlM_cons]
  cases fs.enter p s with
  | error e => simp [bind, Except.bind]
  | ok r => simp [bind, Except.bind]

theorem follow_append_ok {p q : Place} {S T : List (List Char)} :
    fs.follow p (S ++ T) = .ok q ↔ ∃ r, fs.follow p S = .ok r ∧ fs.follow r T = .ok q := by
  induction S generalizing p with
  | nil => simp
  | cons s S ih =>
      rw [List.cons_append, follow_cons_ok]
      constructor
      · intro hsome
        obtain ⟨r, hs, hrest⟩ := hsome
        obtain ⟨r', hS, hT⟩ := ih.mp hrest
        exact ⟨r', follow_cons_ok.mpr ⟨r, hs, hS⟩, hT⟩
      · intro hsome
        obtain ⟨r', hS, hT⟩ := hsome
        obtain ⟨r, hs, hrest⟩ := follow_cons_ok.mp hS
        exact ⟨r, hs, ih.mpr ⟨r', hrest, hT⟩⟩

/-- Steps that lead nowhere may be left out. -/
theorem follow_filter (keep : List Char → Bool) {p q : Place} {S : List (List Char)}
    (hkeep : ∀ s, keep s = false → isIdle s = true) (h : fs.follow p S = .ok q) :
    fs.follow p (S.filter keep) = .ok q := by
  induction S generalizing p with
  | nil => exact h
  | cons s S ih =>
      obtain ⟨r, hs, hrest⟩ := follow_cons_ok.mp h
      cases hk : keep s with
      | true =>
          rw [List.filter_cons_of_pos hk]
          exact follow_cons_ok.mpr ⟨r, hs, ih hrest⟩
      | false =>
          rw [List.filter_cons_of_neg (by simp [hk])]
          rw [enter_idle (directory_of_enter hs) (hkeep s hk)] at hs
          obtain rfl := Except.ok.inj hs
          exact ih hrest

theorem follow_dropWhile (skip : List Char → Bool) {p q : Place} {S : List (List Char)}
    (hskip : ∀ s, skip s = true → isIdle s = true) (h : fs.follow p S = .ok q) :
    fs.follow p (S.dropWhile skip) = .ok q := by
  induction S with
  | nil => exact h
  | cons s S ih =>
      cases hs : skip s with
      | true =>
          rw [List.dropWhile_cons_of_pos hs]
          obtain ⟨r, hr, hrest⟩ := follow_cons_ok.mp h
          rw [enter_idle (directory_of_enter hr) (hskip s hs)] at hr
          obtain rfl := Except.ok.inj hr
          exact ih hrest
      | false =>
          rw [List.dropWhile_cons_of_neg (by simp [hs])]
          exact h

theorem follow_idle {p : Place} (h : fs.get? p = some .directory) {T : List (List Char)}
    (hT : ∀ t ∈ T, isIdle t = true) : fs.follow p T = .ok p := by
  induction T with
  | nil => rfl
  | cons t T ih =>
      exact follow_cons_ok.mpr ⟨p, enter_idle h (hT t List.mem_cons_self),
        ih fun s hs => hT s (List.mem_cons_of_mem t hs)⟩

/-- At the end of a walk, one way of going nowhere is as good as another. -/
theorem follow_idle_tail {start p : Place} {S E T : List (List Char)}
    (hT : ∀ t ∈ T, isIdle t = true) (hE : ∀ t ∈ E, isIdle t = true)
    (hp : fs.get? p = some .directory) (h : fs.follow start (S ++ T) = .ok p) :
    fs.follow start (S ++ E) = .ok p := by
  obtain ⟨q, hS, hrest⟩ := follow_append_ok.mp h
  have hkept := follow_filter (!isIdle ·) (by simp) hrest
  rw [List.filter_eq_nil_iff.mpr (by simpa using hT)] at hkept
  obtain rfl : q = p := Except.ok.inj hkept
  exact follow_append_ok.mpr ⟨q, hS, follow_idle hp hE⟩

/-- A walk that visits the same directories ends at the same place. `V` holds of all places
that the walk comes through. -/
theorem follow_of_visits {V : Place → Prop}
    (hdirectories : ∀ p, V p → fs.get? p = some .directory → fs'.get? p = some .directory)
    (hup : ∀ p, V p → V p.dropLast) {S : List (List Char)}
    (hdown : ∀ p, ∀ s ∈ S, V p → isName s = true → V (p ++ [String.ofList s]))
    {start q : Place} (hstart : V start) (h : fs.follow start S = .ok q) :
    fs'.follow start S = .ok q ∧ V q := by
  induction S generalizing start with
  | nil =>
      obtain rfl := Except.ok.inj h
      exact ⟨rfl, hstart⟩
  | cons s S ih =>
      obtain ⟨r, hs, hrest⟩ := follow_cons_ok.mp h
      have hdirectory := directory_of_enter hs
      have hsame : fs'.enter start s = .ok r := by
        rw [enter_of_directory (hdirectories start hstart hdirectory),
          ← enter_of_directory hdirectory, hs]
      have hr : V r := by
        rw [enter_of_directory hdirectory] at hs
        by_cases hidle : isIdle s = true
        · rw [if_pos hidle] at hs
          exact Except.ok.inj hs ▸ hstart
        · rw [if_neg hidle] at hs
          by_cases hdots : s = ['.', '.']
          · rw [if_pos hdots] at hs
            exact Except.ok.inj hs ▸ hup start hstart
          · rw [if_neg hdots] at hs
            rw [(child_ok hs).1]
            exact hdown start s List.mem_cons_self hstart
              (isName_iff.mpr ⟨by simpa using hidle, hdots⟩)
      have hwalk := ih (fun p t ht => hdown p t (List.mem_cons_of_mem s ht)) hr hrest
      exact ⟨follow_cons_ok.mpr ⟨r, hsame, hwalk.1⟩, hwalk.2⟩

/-- Where a path leads does not change as long as directories stay directories. -/
theorem follow_mono (hkeeps : ∀ p, fs.get? p = some .directory → fs'.get? p = some .directory)
    {p q : Place} {S : List (List Char)} (h : fs.follow p S = .ok q) : fs'.follow p S = .ok q :=
  (follow_of_visits (V := fun _ => True) (fun p _ => hkeeps p) (fun _ _ => trivial)
    (fun _ _ _ _ _ => trivial) trivial h).1

/-- A path that never says the name of a directory does not lead into it. -/
theorem follow_avoiding {d : Place} {n : String}
    (hkeeps : ∀ p, ¬ d ++ [n] <+: p → fs.get? p = some .directory →
      fs'.get? p = some .directory)
    {p q : Place} {S : List (List Char)} (hn : n.toList ∉ S) (hp : ¬ d ++ [n] <+: p)
    (h : fs.follow p S = .ok q) : fs'.follow p S = .ok q ∧ ¬ d ++ [n] <+: q := by
  apply follow_of_visits (V := fun p => ¬ d ++ [n] <+: p) hkeeps _ _ hp h
  · intro p hp hup
    exact hp (hup.trans (List.dropLast_prefix p))
  · intro p s hs hp _ hdown
    rcases List.prefix_concat_iff.mp hdown with heq | hbelow
    · have hlast := (List.append_inj' heq rfl).2
      have hs' : n.toList = s := by
        rw [(List.cons.inj hlast).1, String.toList_ofList]
      exact hn (hs' ▸ hs)
    · exact hp hbelow

/-- A walk that never goes up comes to its names. -/
theorem eq_of_follow {p q : Place} {S : List (List Char)} (hup : ∀ s ∈ S, s ≠ ['.', '.'])
    (h : fs.follow p S = .ok q) : q = p ++ namesOf S := by
  induction S generalizing p with
  | nil =>
      obtain rfl := Except.ok.inj h
      exact (List.append_nil p).symm
  | cons s S ih =>
      obtain ⟨r, hs, hrest⟩ := follow_cons_ok.mp h
      have hq := ih (fun t ht => hup t (List.mem_cons_of_mem s ht)) hrest
      rw [enter_of_directory (directory_of_enter hs)] at hs
      have hsplit : namesOf (s :: S) = namesOf [s] ++ namesOf S := namesOf_append [s] S
      cases hidle : isIdle s with
      | true =>
          rw [if_pos hidle] at hs
          obtain rfl := Except.ok.inj hs
          rw [hq, hsplit, namesOf_idle (S := [s]) (by simpa using hidle), List.nil_append]
      | false =>
          rw [if_neg (by simp [hidle]), if_neg (hup s List.mem_cons_self)] at hs
          rw [hq, (child_ok hs).1, hsplit, List.append_assoc]
          simp [namesOf, hidle]

/-- The names on a walk are short. -/
theorem short_of_follow {p q : Place} {S : List (List Char)} (h : fs.follow p S = .ok q)
    {s : List Char} (hs : s ∈ S) (hname : isName s = true) :
    (String.ofList s).utf8ByteSize ≤ maxNameBytes := by
  induction S generalizing p with
  | nil => cases hs
  | cons t S ih =>
      obtain ⟨r, ht, hrest⟩ := follow_cons_ok.mp h
      rcases List.mem_cons.mp hs with rfl | hs
      · obtain ⟨hidle, hup⟩ := isName_iff.mp hname
        rw [enter_of_directory (directory_of_enter ht), if_neg (by simp [hidle]), if_neg hup] at ht
        exact (child_ok ht).2
      · exact ih hrest hs

theorem follow_names (h : fs.WellFormed) {p names : Place} {e : Entry}
    (hget : fs.get? (p ++ names) = some e) :
    fs.follow p (names.map String.toList) = .ok (p ++ names) := by
  induction names generalizing p with
  | nil => simp
  | cons n names ih =>
      have hdirectory := h.directory_above hget (List.cons_ne_nil n names)
      have hname : ProperName n := h.proper hget n (by simp)
      rw [List.append_cons] at hget ⊢
      rw [List.map_cons]
      exact follow_cons_ok.mpr ⟨_, enter_name hdirectory hname, ih hget⟩

-- ============================================================ whole paths

theorem checkPath_ok_iff {path : String} : checkPath path = .ok () ↔
    '\x00' ∉ path.toList ∧ path ≠ "" ∧ path.utf8ByteSize ≤ maxPathBytes := by
  unfold checkPath checkText fits
  by_cases hzero : '\x00' ∈ path.toList
  · simp [hzero, bind, Except.bind]
  · by_cases hempty : path = ""
    · simp [hempty, bind, Except.bind]
    · by_cases hfits : path.utf8ByteSize ≤ maxPathBytes
      · simp [hzero, hempty, hfits, bind, Except.bind]
      · simp [hzero, hempty, hfits, bind, Except.bind]

theorem checkPath_of_append {path rest : String} (h : checkPath (path ++ rest) = .ok ())
    (hempty : path ≠ "") : checkPath path = .ok () := by
  obtain ⟨hzero, -, hsize⟩ := checkPath_ok_iff.mp h
  rw [String.toList_append, List.mem_append, not_or] at hzero
  rw [String.utf8ByteSize_append] at hsize
  exact checkPath_ok_iff.mpr ⟨hzero.1, hempty, by omega⟩

theorem origin_eq (fs : FileSystem) {path path' : String}
    (h : isAbsolute path = isAbsolute path') : fs.origin path = fs.origin path' := by
  unfold origin
  rw [h]

theorem locate_ok_iff {path : String} {p : Place} : fs.locate path = .ok p ↔
    checkPath path = .ok () ∧ fs.follow (fs.origin path) (segments path) = .ok p := by
  unfold locate
  cases hcheck : checkPath path with
  | error e => simp [bind, Except.bind]
  | ok u => simp [bind, Except.bind]

theorem follow_stem {path : String} {p : Place} (h : fs.locate path = .ok p)
    (hp : fs.get? p = some .directory) : fs.follow (fs.origin path) (stem path) = .ok p := by
  obtain ⟨-, hfollow⟩ := locate_ok_iff.mp h
  rw [← List.append_nil (stem path)]
  rcases segments_eq_stem path with hstem | hstem
  · rw [List.append_nil, ← hstem]
    exact hfollow
  · rw [hstem] at hfollow
    exact follow_idle_tail (by decide) (by simp) hp hfollow

theorem properName_of_locate {path : String} {p : Place} (h : fs.locate path = .ok p)
    {s : List Char} (hs : s ∈ segments path) (hname : isName s = true) : ProperName (.ofList s) := by
  obtain ⟨hcheck, hfollow⟩ := locate_ok_iff.mp h
  refine ⟨⟨?_, ?_⟩, ?_, short_of_follow hfollow hs hname⟩
  · rw [String.toList_ofList]
    exact hname
  · rw [String.toList_ofList]
    exact slash_not_mem hs
  · rw [String.toList_ofList]
    intro hzero
    exact (checkPath_ok_iff.mp hcheck).1 (mem_of_mem_segments hs hzero)

theorem stat_ok_iff {path : String} {p : Place} {e : Entry} : fs.stat path = .ok (p, e) ↔
    fs.locate path = .ok p ∧ fs.get? p = some e := by
  unfold stat existing
  cases hlocate : fs.locate path with
  | error e => simp [bind, Except.bind]
  | ok q =>
      cases hget : fs.get? q with
      | none =>
          constructor
          · intro h
            simp [bind, Except.bind, hget] at h
          · intro hboth
            obtain ⟨hq, hd⟩ := hboth
            obtain rfl := Except.ok.inj hq
            rw [hget] at hd
            cases hd
      | some d =>
          constructor
          · intro h
            simp only [bind, Except.bind, hget, pure, Except.pure, Except.ok.injEq,
              Prod.mk.injEq] at h
            obtain ⟨rfl, rfl⟩ := h
            exact ⟨rfl, hget⟩
          · intro hboth
            obtain ⟨hq, hd⟩ := hboth
            obtain rfl := Except.ok.inj hq
            rw [hget] at hd
            obtain rfl := Option.some.inj hd
            simp [bind, Except.bind, hget, pure, Except.pure]

/-- A path that leads somewhere is not empty, and the character that ends paths is not in it. -/
theorem text_of_stat {path : String} {p : Place} {e : Entry} (h : fs.stat path = .ok (p, e)) :
    '\x00' ∉ path.toList ∧ path ≠ "" := by
  obtain ⟨hcheck, -⟩ := locate_ok_iff.mp (stat_ok_iff.mp h).1
  obtain ⟨hzero, hempty, -⟩ := checkPath_ok_iff.mp hcheck
  exact ⟨hzero, hempty⟩

theorem isDirectory_iff {path : String} : fs.isDirectory path = true ↔
    ∃ p, fs.locate path = .ok p ∧ fs.get? p = some .directory := by
  unfold isDirectory
  constructor
  · intro h
    cases hstat : fs.stat path with
    | error e =>
        rw [hstat] at h
        cases h
    | ok found =>
        obtain ⟨p, e⟩ := found
        rw [hstat] at h
        cases e with
        | file c => cases h
        | directory => exact ⟨p, stat_ok_iff.mp hstat⟩
  · intro hsome
    obtain ⟨p, hp⟩ := hsome
    rw [stat_ok_iff.mpr hp]

theorem read_ok {path : String} {p : Place} {c : Bytes} (hlocate : fs.locate path = .ok p)
    (hget : fs.get? p = some (.file c)) : fs.read path = .ok c := by
  unfold read
  rw [stat_ok_iff.mpr ⟨hlocate, hget⟩]

/-- Directories stay directories, and relative paths start where they did. -/
structure KeepsDirectories (fs fs' : FileSystem) : Prop where
  here : fs'.here = fs.here
  keeps : ∀ p, fs.get? p = some .directory → fs'.get? p = some .directory

theorem KeepsDirectories.refl (fs : FileSystem) : KeepsDirectories fs fs := ⟨rfl, fun _ => id⟩

theorem KeepsDirectories.trans {fs'' : FileSystem} (h : KeepsDirectories fs fs')
    (h' : KeepsDirectories fs' fs'') : KeepsDirectories fs fs'' :=
  ⟨h'.here.trans h.here, fun p hp => h'.keeps p (h.keeps p hp)⟩

theorem KeepsDirectories.locate (h : KeepsDirectories fs fs') {path : String} {p : Place}
    (hlocate : fs.locate path = .ok p) : fs'.locate path = .ok p := by
  obtain ⟨hcheck, hfollow⟩ := locate_ok_iff.mp hlocate
  have horigin : fs'.origin path = fs.origin path := by
    unfold origin
    rw [h.here]
  exact locate_ok_iff.mpr ⟨hcheck, horigin ▸ follow_mono h.keeps hfollow⟩

theorem KeepsDirectories.stat (h : KeepsDirectories fs fs') {path : String} {p : Place}
    (hstat : fs.stat path = .ok (p, .directory)) : fs'.stat path = .ok (p, .directory) := by
  obtain ⟨hlocate, hp⟩ := stat_ok_iff.mp hstat
  exact stat_ok_iff.mpr ⟨h.locate hlocate, h.keeps p hp⟩

theorem resolve_ok {path : String} {p : Place} (h : fs.resolve path = .ok p) :
    fs.follow (fs.origin path) (segments path) = .ok p ∧ ∃ e, fs.get? p = some e := by
  unfold resolve at h
  cases hcheck : checkText path with
  | error e =>
      rw [hcheck] at h
      cases h
  | ok u =>
      cases hfollow : fs.follow (fs.origin path) (segments path) with
      | error e =>
          rw [hcheck, hfollow] at h
          cases h
      | ok q =>
          simp only [hcheck, hfollow, bind, Except.bind, existing] at h
          cases hget : fs.get? q with
          | none =>
              rw [hget] at h
              cases h
          | some e =>
              rw [hget] at h
              obtain rfl := Except.ok.inj h
              exact ⟨rfl, e, hget⟩

theorem resolve_mono {path : String} {p q : Place} (hkeeps : KeepsDirectories fs fs')
    (h : fs.resolve path = .ok p) (h' : fs'.resolve path = .ok q) : q = p := by
  obtain ⟨hfollow, -⟩ := resolve_ok h
  obtain ⟨hfollow', -⟩ := resolve_ok h'
  have horigin : fs'.origin path = fs.origin path := by
    unfold origin
    rw [hkeeps.here]
  rw [horigin, follow_mono hkeeps.keeps hfollow] at hfollow'
  exact (Except.ok.inj hfollow').symm

end EventDocs.FileSystem
