import EventDocs.Proofs.FileSystem.Changes

/-
The way of a path: the places that it comes through.

What is found on the way can only stop a walk, not turn it aside: every step goes down to a
name, up, or nowhere (`eq_arrive`). So the way of a path can be said without a file system.
Where a walk comes to its end, all places on its way are directories (`directory_of_way`), and
whoever makes a directory with all that it needs makes nothing but places on its way
(`makeFirst_way`), whether that comes to its end or not.
-/

namespace EventDocs.FileSystem

open EventDocs.Path

variable {fs fs' : FileSystem} {path : String} {p q r : Place} {S T : List (List Char)}

-- ============================================================ walks without a file system

/-- The place that one step leads to if nothing stops it. -/
def advance (p : Place) (s : List Char) : Place :=
  if isIdle s then p else if s = ['.', '.'] then p.dropLast else p ++ [String.ofList s]

/-- The place that some steps lead to if nothing stops them. -/
def arrive (p : Place) (S : List (List Char)) : Place := S.foldl advance p

/-- The place `q` is on the way that some steps take from `p`, ends included. -/
def Way (p : Place) (S : List (List Char)) (q : Place) : Prop := ∃ T, T <+: S ∧ q = arrive p T

/-- The place that a path leads to if nothing stops it. -/
def target (fs : FileSystem) (path : String) : Place := arrive (fs.origin path) (segments path)

@[simp] theorem arrive_nil (p : Place) : arrive p [] = p := rfl

@[simp] theorem arrive_cons (p : Place) (s : List Char) (S : List (List Char)) :
    arrive p (s :: S) = arrive (advance p s) S := rfl

@[simp] theorem arrive_append (p : Place) (S T : List (List Char)) :
    arrive p (S ++ T) = arrive (arrive p S) T := List.foldl_append

theorem advance_idle {s : List Char} (h : isIdle s = true) (p : Place) : advance p s = p :=
  if_pos h

theorem advance_name {s : List Char} (h : isName s = true) (p : Place) :
    advance p s = p ++ [String.ofList s] := by
  obtain ⟨hidle, hup⟩ := isName_iff.mp h
  unfold advance
  rw [if_neg (by simp [hidle]), if_neg hup]

theorem arrive_idle (h : ∀ s ∈ S, isIdle s = true) (p : Place) : arrive p S = p := by
  induction S with
  | nil => rfl
  | cons s S ih =>
      rw [arrive_cons, advance_idle (h s List.mem_cons_self)]
      exact ih fun t ht => h t (List.mem_cons_of_mem s ht)

theorem arrive_isName (h : ∀ s ∈ S, isName s = true) (p : Place) :
    arrive p S = p ++ S.map String.ofList := by
  induction S generalizing p with
  | nil => simp
  | cons s S ih =>
      rw [arrive_cons, advance_name (h s List.mem_cons_self),
        ih fun t ht => h t (List.mem_cons_of_mem s ht)]
      simp

-- ============================================================ ways

namespace Way

theorem start (p : Place) (S : List (List Char)) : Way p S p := ⟨[], List.nil_prefix, rfl⟩

theorem last (p : Place) (S : List (List Char)) : Way p S (arrive p S) :=
  ⟨S, List.prefix_refl S, rfl⟩

theorem mono (h : Way p S q) (hS : S <+: T) : Way p T q := by
  obtain ⟨U, hU, rfl⟩ := h
  exact ⟨U, hU.trans hS, rfl⟩

theorem append_iff : Way p (S ++ T) q ↔ Way p S q ∨ Way (arrive p S) T q := by
  constructor
  · intro h
    obtain ⟨U, hU, rfl⟩ := h
    rcases List.prefix_or_prefix_of_prefix hU (List.prefix_append S T) with hS | ⟨V, rfl⟩
    · exact Or.inl ⟨U, hS, rfl⟩
    · exact Or.inr ⟨V, (List.prefix_append_right_inj S).mp hU, arrive_append p S V⟩
  · intro h
    rcases h with h | ⟨V, hV, rfl⟩
    · exact h.mono (List.prefix_append S T)
    · exact ⟨S ++ V, (List.prefix_append_right_inj S).mpr hV, (arrive_append p S V).symm⟩

/-- A place on a way is at its end or on the way to the last step. -/
theorem end_or_before (h : Way p S q) : q = arrive p S ∨ Way p S.dropLast q := by
  obtain ⟨U, hU, rfl⟩ := h
  cases S using List.reverseRecOn with
  | nil => exact Or.inl (by rw [List.prefix_nil.mp hU])
  | append_singleton S s =>
      rcases List.prefix_concat_iff.mp hU with rfl | hS
      · exact Or.inl rfl
      · right
        rw [List.dropLast_concat]
        exact ⟨U, hS, rfl⟩

/-- The way of steps that lead nowhere. -/
theorem eq_of_idle (h : Way p S q) (hS : ∀ s ∈ S, isIdle s = true) : q = p := by
  obtain ⟨U, hU, rfl⟩ := h
  exact arrive_idle (fun s hs => hS s (hU.subset hs)) p

end Way

/-- Steps that never lead out of where they start. -/
def StaysBelow (S : List (List Char)) : Prop := ∀ p q, Way p S q → p <+: q

theorem staysBelow_of_no_up (h : ∀ s ∈ S, s ≠ ['.', '.']) : StaysBelow S := by
  intro p q hway
  obtain ⟨T, hT, rfl⟩ := hway
  have hsteps : ∀ s ∈ T, s ≠ ['.', '.'] := fun s hs => h s (hT.subset hs)
  clear hT
  induction T generalizing p with
  | nil => exact List.prefix_refl p
  | cons s T ih =>
      have hrest := fun p => ih p fun t ht => hsteps t (List.mem_cons_of_mem s ht)
      rw [arrive_cons]
      cases hidle : isIdle s with
      | true =>
          rw [advance_idle hidle]
          exact hrest p
      | false =>
          rw [advance_name (isName_iff.mpr ⟨hidle, hsteps s List.mem_cons_self⟩)]
          exact (List.prefix_append p _).trans (hrest _)

theorem StaysBelow.append (hS : StaysBelow S) (hT : StaysBelow T) : StaysBelow (S ++ T) := by
  intro p q hway
  rcases Way.append_iff.mp hway with hway | hway
  · exact hS p q hway
  · exact (hS p _ (Way.last p S)).trans (hT _ q hway)

-- ============================================================ walks

theorem eq_advance {s : List Char} (h : fs.enter p s = .ok q) : q = advance p s := by
  rw [enter_of_directory (directory_of_enter h)] at h
  unfold advance
  by_cases hidle : isIdle s = true
  · rw [if_pos hidle] at h ⊢
    exact (Except.ok.inj h).symm
  · rw [if_neg hidle] at h ⊢
    by_cases hup : s = ['.', '.']
    · rw [if_pos hup] at h ⊢
      exact (Except.ok.inj h).symm
    · rw [if_neg hup] at h ⊢
      exact (child_ok h).1

theorem eq_arrive (h : fs.follow p S = .ok q) : q = arrive p S := by
  induction S generalizing p with
  | nil => exact (Except.ok.inj h).symm
  | cons s S ih =>
      obtain ⟨r, hs, hrest⟩ := follow_cons_ok.mp h
      rw [arrive_cons, ← eq_advance hs]
      exact ih hrest

theorem eq_target (h : fs.locate path = .ok p) : p = fs.target path :=
  eq_arrive (locate_ok_iff.mp h).2

/-- A walk that ends in a directory comes through directories only. -/
theorem directory_of_way (h : fs.follow p S = .ok q) (hq : fs.get? q = some .directory)
    (hway : Way p S r) : fs.get? r = some .directory := by
  obtain ⟨T, ⟨U, rfl⟩, rfl⟩ := hway
  obtain ⟨r, hT, hU⟩ := follow_append_ok.mp h
  rw [← eq_arrive hT]
  cases U with
  | nil =>
      obtain rfl := Except.ok.inj hU
      exact hq
  | cons u U =>
      obtain ⟨r', hu, -⟩ := follow_cons_ok.mp hU
      exact directory_of_enter hu

theorem origin_of_here (h : fs'.here = fs.here) (path : String) :
    fs'.origin path = fs.origin path := by
  unfold origin
  rw [h]

theorem target_of_here (h : fs'.here = fs.here) (path : String) :
    fs'.target path = fs.target path := by
  unfold target
  rw [origin_of_here h]

/-- A site is where its path leads, and the way to it is made of directories. -/
theorem Site.eq_target {n : String} (h : fs.Site path p n) : p ++ [n] = fs.target path :=
  FileSystem.eq_target h.locate

theorem Site.directory_of_way {n : String} (h : fs.Site path p n)
    (hway : Way (fs.origin path) (segments path).dropLast q) : fs.get? q = some .directory := by
  obtain ⟨S, hsegments, hfollow⟩ := h.walk
  rw [hsegments, List.dropLast_concat] at hway
  exact FileSystem.directory_of_way hfollow h.directory hway

-- ============================================================ parents

/-- A path has its parent on its way. The empty path is the parent of a single name. -/
theorem way_of_parent? {holder : String} (h : parent? path = some holder) (hempty : holder ≠ "") :
    isAbsolute holder = isAbsolute path
      ∧ ∀ p q, Way p (segments holder) q → Way p (segments path) q := by
  unfold parent? at h
  cases hsegments : segments path with
  | nil => exact absurd hsegments (segments_ne_nil path)
  | cons first rest =>
      simp only [hsegments] at h
      cases hkept : Text.dropTrailing isIdle rest with
      | nil =>
          rw [hkept] at h
          simp only at h
          split at h
          · cases h
          · exact absurd (Option.some.inj h).symm hempty
      | cons k K =>
          have hrest : rest ≠ [] := by
            intro hnil
            rw [hnil] at hkept
            cases hkept
          have habsolute := isAbsolute_of_segments hsegments hrest
          have hslash : ∀ s ∈ first :: rest, '/' ∉ s := fun s hs =>
            slash_not_mem (hsegments ▸ hs)
          have hkeptOf : Text.dropTrailing isIdle (k :: K).dropLast <+: rest :=
            (Text.dropTrailing_isPrefix _ _).trans ((List.dropLast_prefix _).trans
              (hkept ▸ Text.dropTrailing_isPrefix isIdle rest))
          simp only [hkept] at h
          cases hholder : Text.dropTrailing isIdle (k :: K).dropLast with
          | nil =>
              simp only [hholder, Option.some.injEq] at h
              by_cases hfirst : first = []
              · -- the root, whose path has an empty segment more
                subst hfirst
                rw [if_pos rfl] at h
                subst h
                refine ⟨by rw [habsolute]; decide, ?_⟩
                intro p q hway
                rw [hway.eq_of_idle (by decide)]
                exact Way.start p _
              · rw [if_neg hfirst] at h
                subst h
                have hone := segments_of_not_mem (hslash first List.mem_cons_self)
                refine ⟨?_, ?_⟩
                · rw [habsolute, decide_eq_false hfirst]
                  exact isAbsolute_of_singleton hone
                · intro p q hway
                  rw [hone] at hway
                  exact hway.mono ⟨rest, rfl⟩
          | cons m M =>
              rw [hholder] at hkeptOf
              simp only [hholder, Option.some.injEq] at h
              subst h
              have hmany : segments (ofSegments (first :: m :: M)) = first :: m :: M := by
                apply segments_ofSegments _ (by simp)
                intro s hs
                rcases List.mem_cons.mp hs with rfl | hs
                · exact hslash s List.mem_cons_self
                · exact hslash s (List.mem_cons_of_mem first (hkeptOf.subset hs))
              refine ⟨?_, ?_⟩
              · rw [habsolute]
                exact isAbsolute_of_segments hmany (by simp)
              · intro p q hway
                rw [hmany] at hway
                exact hway.mono (List.cons_prefix_cons.mpr ⟨rfl, hkeptOf⟩)

/-- What is on the way to the parent of a path is on the way of the path. -/
theorem way_of_holder {holder : String} (h : parent? path = some holder) (hempty : holder ≠ "")
    (hway : Way (fs.origin holder) (segments holder) q) :
    Way (fs.origin path) (segments path) q := by
  obtain ⟨habsolute, hup⟩ := way_of_parent? h hempty
  rw [origin_eq fs habsolute] at hway
  exact hup _ _ hway

-- ============================================================ making directories

/-- What was not there before. -/
def New (fs fs' : FileSystem) (q : Place) : Prop := fs.get? q = none ∧ fs'.get? q ≠ none

theorem new_of_makeDirectory (h : fs.makeDirectory path = .ok fs') (hnew : New fs fs' q) :
    q = fs.target path := by
  obtain ⟨p, n, -, -, -, rfl, hstat, -⟩ := makeDirectory_ok h
  have hsame : (fs.put (p ++ [n]) .directory).target path = fs.target path :=
    target_of_here rfl path
  by_cases hq : q = p ++ [n]
  · rw [hq, ← hsame]
    exact eq_target (stat_ok_iff.mp hstat).1
  · obtain ⟨hnone, hsome⟩ := hnew
    rw [get?_put fs (by simp), if_neg hq] at hsome
    exact absurd hnone hsome

/-- What is new is new before or after what came between. -/
theorem New.between (hnew : New fs fs' q) (fs₁ : FileSystem) :
    New fs fs₁ q ∨ New fs₁ fs' q := by
  cases hget : fs₁.get? q with
  | none => exact Or.inr ⟨hget, hnew.2⟩
  | some e => exact Or.inl ⟨hnew.1, by rw [hget]; simp⟩

end EventDocs.FileSystem

namespace EventDocs

namespace Action

open FileSystem EventDocs.Path

variable {fs fs' : FileSystem} {path : String} {q : Place} {result : Except FileError Unit}

theorem new_of_ensureDirectory (h : ensureDirectory path fs = (result, fs'))
    (hnew : New fs fs' q) : q = fs.target path := by
  unfold ensureDirectory at h
  cases hmake : fs.makeDirectory path with
  | ok fs₁ =>
      rw [hmake] at h
      cases h
      exact new_of_makeDirectory hmake hnew
  | error e =>
      simp only [hmake] at h
      have hsame : fs' = fs := by
        split at h
        · exact (Prod.mk.inj h).2.symm
        · exact (Prod.mk.inj h).2.symm
      rw [hsame] at hnew
      exact absurd hnew.1 hnew.2

theorem makeFirst_empty (fuel : Nat) (fs : FileSystem) :
    makeFirst (ancestorsWithin fuel "") fs = (.ok (), fs) := by
  cases fuel with
  | zero => rfl
  | succ fuel => rfl

/-- What is made once the holders of a directory have been tried. -/
theorem holders_way {fuel : Nat}
    (hholders : ∀ {holder : String}, parent? path = some holder → holder ≠ "" →
      ∀ {made : Except FileError Unit} {fs₁ : FileSystem} {r : Place},
        makeFirst (ancestorsWithin fuel holder) fs = (made, fs₁) → New fs fs₁ r →
        Way (fs.origin holder) (segments holder) r)
    (h : (makeFirst (match parent? path with
      | some holder => ancestorsWithin fuel holder
      | none => []) >>= fun _ => ensureDirectory path) fs = (result, fs'))
    (hnew : New fs fs' q) : Way (fs.origin path) (segments path) q := by
  cases hmade : makeFirst (match parent? path with
      | some holder => ancestorsWithin fuel holder
      | none => []) fs with
  | mk made fs₁ =>
      have hway : ∀ {r : Place}, New fs fs₁ r → Way (fs.origin path) (segments path) r := by
        intro r hr
        cases hparent : parent? path with
        | none =>
            rw [hparent] at hmade
            cases hmade
            exact absurd hr.1 hr.2
        | some holder =>
            rw [hparent] at hmade
            by_cases hempty : holder = ""
            · rw [hempty, makeFirst_empty] at hmade
              cases hmade
              exact absurd hr.1 hr.2
            · exact way_of_holder hparent hempty (hholders hparent hempty hmade hr)
      cases made with
      | error e =>
          rw [bind_error hmade] at h
          cases h
          exact hway hnew
      | ok u =>
          rw [bind_ok hmade] at h
          rcases hnew.between fs₁ with hr | hr
          · exact hway hr
          · rw [new_of_ensureDirectory h hr, target_of_here (makeFirst_grows hmade).here]
            exact Way.last _ _

/-- The directories that are made are on the way of the first one. It is tried first, then its
parent and so on, so the induction is on how many are tried. -/
theorem makeFirst_way {fuel : Nat} (h : makeFirst (ancestorsWithin fuel path) fs = (result, fs'))
    (hnew : New fs fs' q) : Way (fs.origin path) (segments path) q := by
  induction fuel generalizing path fs fs' result q with
  | zero =>
      cases h
      exact absurd hnew.1 hnew.2
  | succ fuel ih =>
      rw [ancestorsWithin] at h
      by_cases hempty : path = ""
      · subst hempty
        cases h
        exact absurd hnew.1 hnew.2
      · cases htry : ensureDirectory path fs with
        | mk tried fs₁ =>
            have hhere := (ensureDirectory_grows htry).here
            have hown : New fs fs₁ q → Way (fs.origin path) (segments path) q := by
              intro hq
              rw [new_of_ensureDirectory htry hq]
              exact Way.last _ _
            by_cases hmissing : tried = .error .notFound
            · rw [makeFirst_of_missing hempty (hmissing ▸ htry)] at h
              rcases hnew.between fs₁ with hq | hnew
              · exact hown hq
              · rw [← origin_of_here hhere]
                exact holders_way (fun _ _ _ _ _ hmade hq => ih hmade hq) h hnew
            · rw [makeFirst_of_done hempty htry hmissing] at h
              cases h
              exact hown hnew

theorem makeDirectories_way (h : makeDirectories path fs = (result, fs')) (hnew : New fs fs' q) :
    Way (fs.origin path) (segments path) q :=
  makeFirst_way h hnew

end Action

end EventDocs
