import EventDocs.Proofs.FileSystem.Walks

/-
What making directories and writing files do to a file system.

A path that something can be put at leads to a name in a directory (`Site`). With that, each
of the two changes is one equation: something is put there, or the change is refused. What a
change does not touch stays as it was, so a path that leads somewhere goes on leading there,
and a site stays a site.

Making a directory with all that it needs only ever adds directories (`Grows`), whether it
comes to its end or not. It does come to its end when no file is in the way
(`makeFirst_parents`): the directory is tried first, and if what it needs is not there,
the one above it, and so on up to one that is there.
-/

namespace EventDocs

open EventDocs.Path

-- ============================================================ actions

namespace Action

variable {ε δ α β : Type} {fs fs' : FileSystem}

theorem bind_ok {a : Action ε α} {f : α → Action ε β} {x : α} (h : a fs = (.ok x, fs')) :
    (a >>= f) fs = f x fs' := by
  show ExceptT.bindCont f (a fs).1 (a fs).2 = _
  rw [h]
  rfl

theorem bind_error {a : Action ε α} {f : α → Action ε β} {e : ε} (h : a fs = (.error e, fs')) :
    (a >>= f) fs = (.error e, fs') := by
  show ExceptT.bindCont f (a fs).1 (a fs).2 = _
  rw [h]
  rfl

theorem of_bind_ok {a : Action ε α} {f : α → Action ε β} {y : β}
    (h : (a >>= f) fs = (.ok y, fs')) : ∃ x fs₁, a fs = (.ok x, fs₁) ∧ f x fs₁ = (.ok y, fs') := by
  cases ha : a fs with
  | mk result fs₁ =>
      cases result with
      | ok x =>
          rw [bind_ok ha] at h
          exact ⟨x, fs₁, rfl, h⟩
      | error e =>
          rw [bind_error ha] at h
          cases h

theorem forM_cons_ok {f : α → Action ε Unit} {x : α} {xs : List α} :
    (x :: xs).forM f fs = (.ok (), fs') ↔
      ∃ fs₁, f x fs = (.ok (), fs₁) ∧ xs.forM f fs₁ = (.ok (), fs') := by
  have hcons : (x :: xs).forM f = f x >>= fun _ => xs.forM f := rfl
  rw [hcons]
  constructor
  · intro h
    obtain ⟨u, fs₁, hx, hxs⟩ := of_bind_ok h
    exact ⟨fs₁, hx, hxs⟩
  · intro h
    obtain ⟨fs₁, hx, hxs⟩ := h
    rw [bind_ok hx]
    exact hxs

theorem mapError_ok {f : ε → δ} {a : Action ε α} {x : α} :
    a.mapError f fs = (.ok x, fs') ↔ a fs = (.ok x, fs') := by
  unfold mapError
  cases ha : a fs with
  | mk result fs₁ =>
      cases result with
      | ok y =>
          constructor
          · intro h
            cases h
            rfl
          · intro h
            cases h
            rfl
      | error e =>
          constructor
          · intro h
            cases h
          · intro h
            cases h

theorem change_eq (f : FileSystem → Except ε FileSystem) (fs : FileSystem) :
    change f fs = match f fs with
      | .ok fs₁ => (.ok (), fs₁)
      | .error e => (.error e, fs) := by
  have hget : (get : Action ε FileSystem) fs = (.ok fs, fs) := rfl
  unfold change
  rw [bind_ok hget]
  cases f fs with
  | ok fs₁ => rfl
  | error e => rfl

theorem ask_eq (f : FileSystem → Except ε α) (fs : FileSystem) : ask f fs = (f fs, fs) := by
  have hget : (get : Action ε FileSystem) fs = (.ok fs, fs) := rfl
  unfold ask
  rw [bind_ok hget]
  cases f fs with
  | ok a => rfl
  | error e => rfl

theorem change_ok {f : FileSystem → Except ε FileSystem} {x : Unit} :
    change f fs = (.ok x, fs') ↔ f fs = .ok fs' := by
  rw [change_eq]
  cases f fs with
  | ok fs₁ =>
    constructor
    · intro h
      cases h
      rfl
    · intro h
      cases h
      rfl
  | error e =>
    constructor
    · intro h
      cases h
    · intro h
      cases h

end Action

namespace FileSystem

variable {fs fs' fs'' : FileSystem} {path : String} {p : Place} {n : String}

-- ============================================================ sites

/-- A path leads to the name `n` in the directory `p`, whether there is something or not. -/
structure Site (fs : FileSystem) (path : String) (p : Place) (n : String) : Prop where
  check : checkPath path = .ok ()
  name : ProperName n
  walk : ∃ S, segments path = S ++ [n.toList] ∧ fs.follow (fs.origin path) S = .ok p
  directory : fs.get? p = some .directory

theorem Site.iff_last : fs.Site path p n ↔ checkPath path = .ok () ∧ ProperName n
    ∧ (segments path).getLast? = some n.toList
    ∧ fs.follow (fs.origin path) (segments path).dropLast = .ok p
    ∧ fs.get? p = some .directory := by
  constructor
  · intro h
    obtain ⟨S, hsegments, hfollow⟩ := h.walk
    refine ⟨h.check, h.name, ?_, ?_, h.directory⟩
    · rw [hsegments, List.getLast?_concat]
    · rw [hsegments, List.dropLast_concat]
      exact hfollow
  · intro hboth
    obtain ⟨hcheck, hname, hlast, hfollow, hdirectory⟩ := hboth
    exact ⟨hcheck, hname, ⟨_, (List.dropLast_append_getLast? _ hlast).symm, hfollow⟩, hdirectory⟩

instance : Decidable (fs.Site path p n) := decidable_of_iff _ Site.iff_last.symm

/-- The last segment that is not empty, and the directory in front of it. -/
theorem site_ok {last : List Char} (h : fs.site path = .ok (some (p, last))) :
    checkPath path = .ok () ∧ fs.get? p = some .directory
      ∧ ∃ S ys, segments path = S ++ last :: ys ∧ (∀ y ∈ ys, y = [])
        ∧ fs.follow (fs.origin path) S = .ok p := by
  unfold site at h
  cases hcheck : checkPath path with
  | error e => simp [hcheck, bind, Except.bind] at h
  | ok u =>
      simp only [hcheck, bind, Except.bind] at h
      cases hlast : (Text.dropTrailing (· = []) (segments path)).getLast? with
      | none => simp [hlast, pure, Except.pure] at h
      | some t =>
          simp only [hlast] at h
          cases hfollow : fs.follow (fs.origin path)
              (Text.dropTrailing (· = []) (segments path)).dropLast with
          | error e => simp [hfollow] at h
          | ok q =>
              simp only [hfollow, existing] at h
              cases hget : fs.get? q with
              | none => simp [hget] at h
              | some e =>
                  cases e with
                  | file c => simp [hget] at h
                  | directory =>
                      simp only [hget, pure, Except.pure, Except.ok.injEq, Option.some.injEq,
                        Prod.mk.injEq] at h
                      obtain ⟨rfl, rfl⟩ := h
                      obtain ⟨ys, hsegments, hys⟩ :=
                        dropTrailing_append (fun s : List Char => decide (s = [])) (segments path)
                      refine ⟨rfl, hget, _, ys, ?_, fun y hy => of_decide_eq_true (hys y hy), hfollow⟩
                      have hwhole := List.dropLast_append_getLast? t hlast
                      rw [List.append_cons, hwhole]
                      exact hsegments

namespace Site

theorem ne_nil (h : fs.Site path p n) : n.toList ≠ [] := by
  intro hnil
  exact h.name.isName.ne_empty (String.toList_eq_nil_iff.mp hnil)

theorem site_eq (h : fs.Site path p n) : fs.site path = .ok (some (p, n.toList)) := by
  obtain ⟨S, hsegments, hfollow⟩ := h.walk
  have hkept : Text.dropTrailing (· = []) (segments path) = S ++ [n.toList] := by
    rw [hsegments, Text.dropTrailing_append_of_not _ _ (by simpa using h.ne_nil)]
  unfold site existing
  simp only [h.check, bind, Except.bind, hkept, List.getLast?_concat, List.dropLast_concat,
    hfollow, h.directory]
  rfl

theorem locate (h : fs.Site path p n) : fs.locate path = .ok (p ++ [n]) := by
  obtain ⟨S, hsegments, hfollow⟩ := h.walk
  refine locate_ok_iff.mpr ⟨h.check, ?_⟩
  rw [hsegments]
  exact follow_append_ok.mpr ⟨p, hfollow, follow_cons_ok.mpr
    ⟨_, enter_name h.directory h.name, follow_nil _ _⟩⟩

theorem mono (h : fs.Site path p n) (hkeeps : KeepsDirectories fs fs') : fs'.Site path p n := by
  obtain ⟨S, hsegments, hfollow⟩ := h.walk
  have horigin : fs'.origin path = fs.origin path := by
    unfold origin
    rw [hkeeps.here]
  exact ⟨h.check, h.name, ⟨S, hsegments, horigin ▸ follow_mono hkeeps.keeps hfollow⟩,
    hkeeps.keeps p h.directory⟩

theorem not_slash (h : fs.Site path p n) : path.toList.getLast? ≠ some '/' := by
  intro hslash
  obtain ⟨S, hsegments, -⟩ := h.walk
  obtain ⟨cs, hcs⟩ := List.getLast?_eq_some_iff.mp hslash
  have htext : path = .ofList cs ++ "/" := by
    rw [← String.toList_inj, hcs]
    simp
  have hends := segments_slash (.ofList cs) ""
  rw [String.append_empty, ← htext, hsegments] at hends
  have hlast := (List.append_inj' (hends.trans rfl) rfl).2
  exact h.ne_nil (List.cons.inj hlast).1

/-- In front of a site there is a directory; for a name alone its path is empty. -/
theorem parent (h : fs.Site path p n) :
    ∃ holder, parent? path = some holder ∧ (holder = "" ∨ fs.isDirectory holder = true) := by
  obtain ⟨S, hsegments, hfollow⟩ := h.walk
  by_cases hS : S = []
  · subst hS
    refine ⟨"", ?_, Or.inl rfl⟩
    unfold parent?
    rw [hsegments]
    exact if_neg h.ne_nil
  · obtain ⟨holder, rest, K, E, T, hparent, htext, hempty, habsolute, hholder, hfront, hE, hT, -⟩ :=
      parent?_of_name hsegments hS h.name.isName
    refine ⟨holder, hparent, Or.inr (isDirectory_iff.mpr ⟨p, ?_, h.directory⟩)⟩
    refine locate_ok_iff.mpr ⟨checkPath_of_append (htext ▸ h.check) hempty, ?_⟩
    rw [origin_eq fs habsolute, hholder]
    rw [hfront] at hfollow
    exact follow_idle_tail hT hE h.directory hfollow

-- ============================================================ one change

theorem write_eq (h : fs.Site path p n) (hfree : fs.get? (p ++ [n]) ≠ some .directory)
    (c : Bytes) : fs.write path c = .ok (fs.put (p ++ [n]) (.file c)) := by
  unfold write
  simp only [h.site_eq, bind, Except.bind, child_eq h.name]
  rw [if_neg (by simp [h.name.isName.1, h.not_slash]), if_neg hfree]
  rfl

theorem makeDirectory_eq (h : fs.Site path p n) (hfree : fs.get? (p ++ [n]) = none) :
    fs.makeDirectory path = .ok (fs.put (p ++ [n]) .directory) := by
  unfold makeDirectory
  simp only [h.site_eq, bind, Except.bind, child_eq h.name, hfree]
  rw [if_pos h.name.isName.1]
  rfl

end Site

/-- The name at the end of a path that something was put at is proper. -/
theorem properName_of_site {last : List Char} (h : fs.site path = .ok (some (p, last)))
    (hname : isName last = true) {target : Place} (hchild : child p last = .ok target) :
    ProperName (.ofList last) ∧ target = p ++ [String.ofList last] := by
  obtain ⟨hcheck, -, S, ys, hsegments, -, -⟩ := site_ok h
  have hmem : last ∈ segments path := by
    rw [hsegments]
    simp
  obtain ⟨rfl, hshort⟩ := child_ok hchild
  refine ⟨⟨⟨?_, ?_⟩, ?_, hshort⟩, rfl⟩
  · rw [String.toList_ofList]
    exact hname
  · rw [String.toList_ofList]
    exact slash_not_mem hmem
  · rw [String.toList_ofList]
    intro hzero
    exact (checkPath_ok_iff.mp hcheck).1 (mem_of_mem_segments hmem hzero)

theorem write_ok_iff {c : Bytes} : fs.write path c = .ok fs' ↔
    ∃ p n, fs.Site path p n ∧ fs.get? (p ++ [n]) ≠ some .directory
      ∧ fs' = fs.put (p ++ [n]) (.file c) := by
  constructor
  · intro h
    unfold write at h
    cases hsite : fs.site path with
    | error e => simp [hsite, bind, Except.bind] at h
    | ok found =>
        cases found with
        | none => simp [hsite, bind, Except.bind] at h
        | some found =>
            obtain ⟨p, last⟩ := found
            simp only [hsite, bind, Except.bind] at h
            by_cases hrefuse : (!isName last || path.toList.getLast? = some '/') = true
            · rw [if_pos hrefuse] at h
              cases h
            · rw [if_neg hrefuse] at h
              simp only [Bool.or_eq_true, Bool.not_eq_true', decide_eq_true_eq, not_or,
                Bool.not_eq_false] at hrefuse
              cases hchild : child p last with
              | error e => simp [hchild] at h
              | ok target =>
                  simp only [hchild] at h
                  by_cases hdirectory : fs.get? target = some .directory
                  · rw [if_pos hdirectory] at h
                    cases h
                  · rw [if_neg hdirectory] at h
                    obtain ⟨hproper, rfl⟩ := properName_of_site hsite hrefuse.1 hchild
                    obtain ⟨hcheck, hget, S, ys, hsegments, hys, hfollow⟩ := site_ok hsite
                    refine ⟨p, .ofList last, ⟨hcheck, hproper, ⟨S, ?_, hfollow⟩, hget⟩,
                      hdirectory, (Except.ok.inj h).symm⟩
                    -- a path without a slash at its end has no empty segment there
                    rw [String.toList_ofList, hsegments]
                    cases ys using List.reverseRecOn with
                    | nil => rfl
                    | append_singleton ys y =>
                        obtain rfl := hys y (by simp)
                        have hslash := getLast?_of_segments (p := path) (S := S ++ last :: ys)
                          (by rw [hsegments]; simp) (checkPath_ok_iff.mp hcheck).2.1
                        exact absurd hslash hrefuse.2
  · intro hsome
    obtain ⟨p, n, hsite, hfree, rfl⟩ := hsome
    exact hsite.write_eq hfree c

theorem keepsDirectories_put (hfree : fs.get? (p ++ [n]) ≠ some .directory) (e : Entry) :
    KeepsDirectories fs (fs.put (p ++ [n]) e) := by
  refine ⟨rfl, ?_⟩
  intro q hq
  rw [get?_put fs (by simp), if_neg, hq]
  intro heq
  subst heq
  exact hfree hq

/-- A file is copied somewhere else. -/
theorem copy_eq {source target : String} {q : Place} {c : Bytes}
    (hsource : fs.locate source = .ok q) (hq : fs.get? q = some (.file c))
    (hsite : fs.Site target p n) (hne : q ≠ p ++ [n])
    (hfree : fs.get? (p ++ [n]) ≠ some .directory) :
    fs.copy source target = .ok (fs.put (p ++ [n]) (.file c)) := by
  unfold copy
  simp only [read_ok hsource hq, hsite.write_eq hfree, bind, Except.bind, hsource, hsite.locate]
  rw [if_neg (by simpa using hne)]

theorem site_of_copy {source target : String} (h : fs.copy source target = .ok fs') :
    ∃ p n, fs.Site target p n ∧ fs.get? (p ++ [n]) ≠ some .directory := by
  unfold copy at h
  cases hread : fs.read source with
  | error e => simp [hread, bind, Except.bind] at h
  | ok c =>
      cases hwrite : fs.write target [] with
      | error e => simp [hread, hwrite, bind, Except.bind] at h
      | ok emptied =>
          obtain ⟨p, n, hsite, hfree, -⟩ := write_ok_iff.mp hwrite
          exact ⟨p, n, hsite, hfree⟩

-- ============================================================ growing

/-- What was there is there still, and what is new is a directory. -/
structure Grows (fs fs' : FileSystem) : Prop where
  here : fs'.here = fs.here
  keeps : ∀ {p : Place} {e : Entry}, fs.get? p = some e → fs'.get? p = some e
  adds : ∀ {p : Place} {e : Entry}, fs'.get? p = some e → fs.get? p = some e ∨ e = .directory
  wellFormed : fs.WellFormed → fs'.WellFormed

namespace Grows

theorem refl (fs : FileSystem) : fs.Grows fs := ⟨rfl, id, Or.inl, id⟩

theorem trans (h : fs.Grows fs') (h' : fs'.Grows fs'') : fs.Grows fs'' := by
  refine ⟨h'.here.trans h.here, fun hp => h'.keeps (h.keeps hp), ?_, fun hwf => h'.wellFormed
    (h.wellFormed hwf)⟩
  intro p e hp
  rcases h'.adds hp with hp | hdirectory
  · exact h.adds hp
  · exact Or.inr hdirectory

theorem keepsDirectories (h : fs.Grows fs') : KeepsDirectories fs fs' :=
  ⟨h.here, fun _ hp => h.keeps hp⟩

/-- There are no new files. -/
theorem file_iff (h : fs.Grows fs') {c : Bytes} :
    fs'.get? p = some (.file c) ↔ fs.get? p = some (.file c) := by
  constructor
  · intro hp
    rcases h.adds hp with hp | hdirectory
    · exact hp
    · cases hdirectory
  · exact h.keeps

/-- Before it grew, a walk went the same way, unless something was not there yet. -/
theorem follow (h : fs.Grows fs') {start q : Place} {S : List (List Char)}
    (hfollow : fs'.follow start S = .ok q) :
    fs.follow start S = .ok q ∨ fs.follow start S = .error .notFound := by
  induction S generalizing start with
  | nil => exact Or.inl hfollow
  | cons s S ih =>
      obtain ⟨r, hs, hrest⟩ := follow_cons_ok.mp hfollow
      have hdirectory := directory_of_enter hs
      cases hget : fs.get? start with
      | none =>
          right
          simp [FileSystem.follow, enter, hget, bind, Except.bind]
      | some e =>
          have he := h.keeps hget
          rw [hdirectory] at he
          obtain rfl := Option.some.inj he
          rw [enter_of_directory hdirectory, ← enter_of_directory hget] at hs
          rcases ih hrest with hrest | hrest
          · exact Or.inl (follow_cons_ok.mpr ⟨r, hs, hrest⟩)
          · right
            unfold FileSystem.follow at hrest ⊢
            rw [List.foldlM_cons, hs]
            exact hrest

theorem site (h : fs.Grows fs') (hsite : fs'.Site path p n) :
    fs.Site path p n ∨ fs.site path = .error .notFound := by
  obtain ⟨S, hsegments, hfollow⟩ := hsite.walk
  have horigin : fs'.origin path = fs.origin path := by
    unfold origin
    rw [h.here]
  have hkept : Text.dropTrailing (· = []) (segments path) = S ++ [n.toList] := by
    rw [hsegments, Text.dropTrailing_append_of_not _ _ (by simpa using hsite.ne_nil)]
  rw [horigin] at hfollow
  rcases h.follow hfollow with hwalk | hmissing
  · cases hget : fs.get? p with
    | none =>
        right
        unfold FileSystem.site existing
        simp [hsite.check, bind, Except.bind, hkept, hwalk, hget]
    | some e =>
        have he := h.keeps hget
        rw [hsite.directory] at he
        obtain rfl := Option.some.inj he
        exact Or.inl ⟨hsite.check, hsite.name, ⟨S, hsegments, hwalk⟩, hget⟩
  · right
    unfold FileSystem.site
    simp [hsite.check, bind, Except.bind, hkept, hmissing]

/-- Growing changes nothing but by making directories. -/
theorem changed (h : fs.Grows fs') (hchanged : fs'.get? p ≠ fs.get? p) :
    fs.get? p = none ∧ fs'.get? p = some .directory := by
  cases hbefore : fs.get? p with
  | some e =>
      rw [hbefore, h.keeps hbefore] at hchanged
      exact absurd rfl hchanged
  | none =>
      rw [hbefore] at hchanged
      obtain ⟨e, he⟩ := Option.ne_none_iff_exists'.mp hchanged
      refine ⟨rfl, ?_⟩
      rcases h.adds he with hold | rfl
      · rw [hbefore] at hold
        cases hold
      · exact he

end Grows

theorem grows_put (hp : fs.get? p = some .directory) (hn : ProperName n)
    (hfree : fs.get? (p ++ [n]) = none) : fs.Grows (fs.put (p ++ [n]) .directory) := by
  have hview := get?_put fs (p := p ++ [n]) (by simp) .directory
  refine ⟨rfl, ?_, ?_, fun hwf => hwf.put hp hn fun _ => rfl⟩
  · intro q e hq
    rw [hview, if_neg, hq]
    intro hqp
    rw [hqp, hfree] at hq
    cases hq
  · intro q e hq
    rw [hview] at hq
    by_cases hqp : q = p ++ [n]
    · rw [if_pos hqp] at hq
      exact Or.inr (Option.some.inj hq).symm
    · rw [if_neg hqp] at hq
      exact Or.inl hq

-- ============================================================ making one directory

theorem makeDirectory_ok (h : fs.makeDirectory path = .ok fs') :
    ∃ p n, ProperName n ∧ fs.get? p = some .directory ∧ fs.get? (p ++ [n]) = none
      ∧ fs' = fs.put (p ++ [n]) .directory ∧ fs'.stat path = .ok (p ++ [n], .directory)
      ∧ fileName? path = some n := by
  unfold makeDirectory at h
  cases hsite : fs.site path with
  | error e => simp [hsite, bind, Except.bind] at h
  | ok found =>
      cases found with
      | none => simp [hsite, bind, Except.bind] at h
      | some found =>
          obtain ⟨p, last⟩ := found
          simp only [hsite, bind, Except.bind] at h
          by_cases hname : isName last = true
          · rw [if_pos hname] at h
            cases hchild : child p last with
            | error e => simp [hchild] at h
            | ok target =>
                simp only [hchild] at h
                by_cases hnone : (fs.get? target).isNone = true
                · rw [if_pos hnone] at h
                  obtain ⟨hproper, rfl⟩ := properName_of_site hsite hname hchild
                  obtain ⟨hcheck, hget, S, ys, hsegments, hys, hfollow⟩ := site_ok hsite
                  have hfree := Option.isNone_iff_eq_none.mp hnone
                  obtain rfl := Except.ok.inj h
                  have hidle : ∀ y ∈ ys, isIdle y = true := by
                    intro y hy
                    rw [hys y hy]
                    rfl
                  have hgrows := grows_put hget hproper hfree
                  have hthere := get?_put_self fs .directory (p := p ++ [String.ofList last]) (by simp)
                  have hstep := enter_name (hgrows.keeps hget) hproper
                  rw [String.toList_ofList] at hstep
                  refine ⟨p, .ofList last, hproper, hget, hfree, rfl, stat_ok_iff.mpr ⟨?_, hthere⟩, ?_⟩
                  · refine locate_ok_iff.mpr ⟨hcheck, ?_⟩
                    rw [hsegments]
                    exact follow_append_ok.mpr ⟨p, follow_mono (fun _ hq => hgrows.keeps hq) hfollow,
                      follow_cons_ok.mpr ⟨_, hstep, follow_idle hthere hidle⟩⟩
                  · apply fileName?_of_segments (S := S) (T := ys) _ hproper.isName hidle
                    rw [String.toList_ofList, hsegments]
                · rw [if_neg hnone] at h
                  cases h
          · rw [if_neg hname] at h
            cases h

theorem grows_of_makeDirectory (h : fs.makeDirectory path = .ok fs') : fs.Grows fs' := by
  obtain ⟨p, n, hn, hp, hfree, rfl, -⟩ := makeDirectory_ok h
  exact grows_put hp hn hfree

end FileSystem

-- ============================================================ making many directories

namespace Action

open FileSystem

variable {fs fs' fs₁ : FileSystem} {path : String} {paths : List String} {p : Place} {n : String}
  {result : Except FileError Unit}

theorem ensureDirectory_grows (h : ensureDirectory path fs = (result, fs')) : fs.Grows fs' := by
  unfold ensureDirectory at h
  cases hmake : fs.makeDirectory path with
  | ok fs₁ =>
      rw [hmake] at h
      cases h
      exact grows_of_makeDirectory hmake
  | error e =>
      simp only [hmake] at h
      by_cases hdirectory : fs.isDirectory path = true
      · rw [if_pos hdirectory] at h
        cases h
        exact Grows.refl fs
      · rw [if_neg hdirectory] at h
        cases h
        exact Grows.refl fs

theorem ensureDirectory_of_isDirectory (h : fs.isDirectory path = true) :
    ensureDirectory path fs = (.ok (), fs) := by
  unfold ensureDirectory
  cases hmake : fs.makeDirectory path with
  | ok fs₁ =>
      -- nothing can be made where something is
      obtain ⟨q, hlocate, hq⟩ := isDirectory_iff.mp h
      obtain ⟨p, n, -, -, hfree, -, hstat, -⟩ := makeDirectory_ok hmake
      have hsame := (grows_of_makeDirectory hmake).keepsDirectories.locate hlocate
      rw [(stat_ok_iff.mp hstat).1] at hsame
      rw [← Except.ok.inj hsame, hfree] at hq
      cases hq
  | error e => exact if_pos h

/-- A directory is made where there is no file, in a directory that is there. -/
theorem ensureDirectory_site (hsite : fs.Site path p n)
    (hfile : ∀ c, fs.get? (p ++ [n]) ≠ some (.file c)) :
    ∃ fs', ensureDirectory path fs = (.ok (), fs')
      ∧ fs'.stat path = .ok (p ++ [n], .directory)
      ∧ ∀ q, fs.get? q = none → fs'.get? q ≠ none → q = p ++ [n] := by
  cases hget : fs.get? (p ++ [n]) with
  | none =>
      have hmake := hsite.makeDirectory_eq hget
      refine ⟨_, by unfold ensureDirectory; rw [hmake], ?_, ?_⟩
      · exact stat_ok_iff.mpr ⟨(hsite.mono (grows_of_makeDirectory hmake).keepsDirectories).locate,
          get?_put_self fs .directory (by simp)⟩
      · intro q hq hnew
        by_cases hqp : q = p ++ [n]
        · exact hqp
        · rw [get?_put fs (by simp), if_neg hqp] at hnew
          exact absurd hq hnew
  | some e =>
      cases e with
      | file c => exact absurd hget (hfile c)
      | directory =>
          refine ⟨fs, ensureDirectory_of_isDirectory (isDirectory_iff.mpr ⟨_, hsite.locate, hget⟩),
            stat_ok_iff.mpr ⟨hsite.locate, hget⟩, fun q hq hnew => absurd hq hnew⟩

theorem makeFirst_of_done (hempty : path ≠ "") (h : ensureDirectory path fs = (result, fs'))
    (hdone : result ≠ .error .notFound) : makeFirst (path :: paths) fs = (result, fs') := by
  unfold makeFirst
  rw [if_neg hempty, h]
  cases result with
  | ok u => rfl
  | error e =>
      cases e with
      | notFound => exact absurd rfl hdone
      | alreadyExists => rfl
      | notADirectory => rfl
      | isADirectory => rfl
      | nameTooLong => rfl
      | zeroInPath => rfl

theorem makeFirst_of_missing (hempty : path ≠ "")
    (h : ensureDirectory path fs = (.error .notFound, fs')) :
    makeFirst (path :: paths) fs = (makeFirst paths >>= fun _ => ensureDirectory path) fs' := by
  rw [makeFirst]
  beta_reduce
  rw [if_neg hempty, h]

theorem makeFirst_grows (h : makeFirst paths fs = (result, fs')) : fs.Grows fs' := by
  induction paths generalizing fs fs' result with
  | nil =>
      cases h
      exact Grows.refl fs
  | cons path holders ih =>
      by_cases hempty : path = ""
      · subst hempty
        cases h
        exact Grows.refl fs
      · cases htry : ensureDirectory path fs with
        | mk tried fs₁ =>
            have hgrows := ensureDirectory_grows htry
            by_cases hmissing : tried = .error .notFound
            · rw [makeFirst_of_missing hempty (hmissing ▸ htry)] at h
              cases hholders : makeFirst holders fs₁ with
              | mk made fs₂ =>
                  have hmade := hgrows.trans (ih hholders)
                  cases made with
                  | ok u =>
                      rw [bind_ok hholders] at h
                      exact hmade.trans (ensureDirectory_grows h)
                  | error e =>
                      rw [bind_error hholders] at h
                      cases h
                      exact hmade
            · rw [makeFirst_of_done hempty htry hmissing] at h
              cases h
              exact hgrows

theorem makeFirst_of_isDirectory (h : fs.isDirectory path = true) :
    makeFirst (path :: paths) fs = (.ok (), fs) := by
  have hempty : path ≠ "" := by
    intro heq
    subst heq
    cases h
  exact makeFirst_of_done hempty (ensureDirectory_of_isDirectory h) (by simp)

/-- Once the holders of a directory are made, it is made too. -/
theorem makeFirst_next (hholders : makeFirst paths fs = (.ok (), fs₁))
    (hsite : fs₁.Site path p n) (hfile : ∀ c, fs.get? (p ++ [n]) ≠ some (.file c)) :
    ∃ fs', makeFirst (path :: paths) fs = (.ok (), fs')
      ∧ fs'.stat path = .ok (p ++ [n], .directory)
      ∧ ∀ q, fs.get? q = none → fs'.get? q ≠ none → fs₁.get? q ≠ none ∨ q = p ++ [n] := by
  have hempty : path ≠ "" := (checkPath_ok_iff.mp hsite.check).2.1
  have hgrows := makeFirst_grows hholders
  by_cases hdirectory : fs.isDirectory path = true
  · obtain ⟨q, hlocate, hq⟩ := isDirectory_iff.mp hdirectory
    have hsame := hgrows.keepsDirectories.locate hlocate
    rw [hsite.locate] at hsame
    obtain rfl := Except.ok.inj hsame
    exact ⟨fs, makeFirst_of_isDirectory hdirectory, stat_ok_iff.mpr ⟨hlocate, hq⟩,
      fun q hq hnew => absurd hq hnew⟩
  · rcases hgrows.site hsite with hbefore | hmissing
    · obtain ⟨fs', hmake, hstat, hnew⟩ := ensureDirectory_site hbefore hfile
      exact ⟨fs', makeFirst_of_done hempty hmake (by simp), hstat,
        fun q hq hq' => Or.inr (hnew q hq hq')⟩
    · have hrefused : fs.makeDirectory path = .error .notFound := by
        unfold makeDirectory
        rw [hmissing]
        rfl
      have htry : ensureDirectory path fs = (.error .notFound, fs) := by
        unfold ensureDirectory
        rw [hrefused]
        exact if_neg hdirectory
      obtain ⟨fs', hmake, hstat, hnew⟩ := ensureDirectory_site hsite
        fun c hc => hfile c (hgrows.file_iff.mp hc)
      refine ⟨fs', ?_, hstat, ?_⟩
      · rw [makeFirst_of_missing hempty htry, bind_ok hholders]
        exact hmake
      · intro q hq hq'
        cases hq₁ : fs₁.get? q with
        | none => exact Or.inr (hnew q hq₁ hq')
        | some e => exact Or.inl (by simp)

theorem makeDirectories_grows (h : makeDirectories path fs = (result, fs')) : fs.Grows fs' :=
  makeFirst_grows h

theorem makeDirectories_of_isDirectory (h : fs.isDirectory path = true) :
    makeDirectories path fs = (.ok (), fs) :=
  makeFirst_of_isDirectory h

-- ============================================================ making what a file needs

/-- The directory that a new file needs is made: `B` leads to a directory that is there, and
there are no files where the names behind it lead. The parent of the path is tried first, then
the parent of that, so the induction is on how many are tried. -/
theorem makeFirst_parents {fuel : Nat} {path n : String} {B X : List (List Char)} {d : Place}
    (hcheck : checkPath path = .ok ()) (hsegments : segments path = B ++ X ++ [n.toList])
    (hB : B ≠ []) (hX : ∀ x ∈ X, isIdle x = true ∨ ProperName (.ofList x)) (hn : ProperName n)
    (hfollow : fs.follow (fs.origin path) B = .ok d) (hd : fs.get? d = some .directory)
    (hfiles : ∀ q, q <+: namesOf X → ∀ c, fs.get? (d ++ q) ≠ some (.file c))
    (hfuel : (namesOf X).length < fuel) :
    ∃ holder fs', parent? path = some holder
      ∧ makeFirst (ancestorsWithin fuel holder) fs = (.ok (), fs')
      ∧ fs'.Site path (d ++ namesOf X) n
      ∧ ∀ q, fs.get? q = none → fs'.get? q ≠ none → q <+: d ++ namesOf X := by
  induction fuel generalizing path X n with
  | zero => cases hfuel
  | succ fuel ih =>
      obtain ⟨holder, rest, K, E, T, hparent, htext, hempty, habsolute, hholder, hfront, hE, hT,
        hlast⟩ := parent?_of_name hsegments (by simp [hB]) hn.isName
      have hcheck' := checkPath_of_append (htext ▸ hcheck) hempty
      rcases front_cases hB hholder hfront hT hlast with hidle | ⟨Y, m, hm, rfl, hholder'⟩
      · -- nothing but the directory itself is needed
        have hwalk : fs.follow (fs.origin path) (B ++ X) = .ok d :=
          follow_append_ok.mpr ⟨d, hfollow, follow_idle hd hidle⟩
        have hsite : fs.Site path d n := ⟨hcheck, hn, ⟨B ++ X, hsegments, hwalk⟩, hd⟩
        obtain ⟨holder', hparent', hdirectory⟩ := hsite.parent
        rw [hparent] at hparent'
        obtain rfl := Option.some.inj hparent'
        rw [namesOf_idle hidle, List.append_nil]
        exact ⟨holder, fs, hparent, makeFirst_of_isDirectory (hdirectory.resolve_left hempty), hsite,
          fun q hq hnew => absurd hq hnew⟩
      · have hproper : ProperName (.ofList m) := by
          rcases hX m (by simp) with hidle | hproper
          · rw [hm] at hidle
            cases hidle
          · exact hproper
        have hnames : namesOf (Y ++ m :: T) = namesOf Y ++ [.ofList m] := by
          rw [List.append_cons, namesOf_append, namesOf_idle hT, List.append_nil, namesOf_append]
          simp [namesOf, hm]
        rw [hnames] at hfiles ⊢
        have hfiles' : ∀ q, q <+: namesOf Y → ∀ c, fs.get? (d ++ q) ≠ some (.file c) :=
          fun q hq => hfiles q (hq.trans (List.prefix_append _ _))
        obtain ⟨holder₁, fs₁, hparent₁, hmake₁, hsite₁, hnew₁⟩ := @ih holder (.ofList m) Y
          hcheck' (by rw [hholder', String.toList_ofList])
          (fun x hx => hX x (List.mem_append_left _ hx)) hproper
          (by rw [origin_eq fs habsolute]; exact hfollow)
          hfiles' (by rw [hnames, List.length_append] at hfuel; simpa using hfuel)
        obtain ⟨fs', hmake, hstat, hnew⟩ := makeFirst_next hmake₁ hsite₁ (by
          rw [List.append_assoc]
          exact hfiles _ (List.prefix_refl _))
        obtain ⟨hlocate, hdirectory⟩ := stat_ok_iff.mp hstat
        obtain ⟨-, hwalk⟩ := locate_ok_iff.mp hlocate
        rw [List.append_assoc] at hdirectory hwalk
        refine ⟨holder, fs', hparent, ?_, ⟨hcheck, hn, ⟨_, hsegments, ?_⟩, hdirectory⟩, ?_⟩
        · rw [ancestorsWithin, hparent₁]
          exact hmake
        · rw [origin_eq fs' habsolute, hholder'] at hwalk
          rw [List.append_cons, ← List.append_assoc, ← List.append_assoc]
          exact follow_append_ok.mpr ⟨_, hwalk, follow_idle hdirectory hT⟩
        · intro q hq hq'
          rcases hnew q hq hq' with hq₁ | rfl
          · exact (hnew₁ q hq hq₁).trans (by simp)
          · exact ⟨[], by rw [List.append_nil, List.append_assoc]⟩

end Action

end EventDocs
