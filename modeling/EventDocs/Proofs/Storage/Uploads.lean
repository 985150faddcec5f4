import EventDocs.Proofs.FileSystem.Changes
import EventDocs.Storage

/-
Storing texts.

An upload first makes the directories that its file needs, and then writes the file. Seen from
outside, a file system grows and something is put at a site; if everything that is needed is
there, nothing but the file changes (`upload_of_site`).
-/

namespace EventDocs

theorem Action.fileStep_ok {α : Type} {activity : Activity} {a : Action FileError α} {x : α}
    {fs fs' : FileSystem} : a.fileStep activity fs = (.ok x, fs') ↔ a fs = (.ok x, fs') :=
  mapError_ok

theorem Action.during_ok {α : Type} {activity : Activity} {a : Action Failure α} {x : α}
    {fs fs' : FileSystem} : a.during activity fs = (.ok x, fs') ↔ a fs = (.ok x, fs') :=
  mapError_ok

namespace Storage

open EventDocs.Path FileSystem EventDocs.Action

variable {fs fs' : FileSystem} {path root key n : String} {p : Place} {body : Bytes}

-- ============================================================ the directory of a file

theorem makeParent_grows {result : Except Failure Unit} (h : makeParent path fs = (result, fs')) :
    fs.Grows fs' := by
  unfold makeParent at h
  cases hparent : parent? path with
  | none =>
      rw [hparent] at h
      cases h
      exact Grows.refl fs
  | some holder =>
      rw [hparent] at h
      cases hmake : makeDirectories holder fs with
      | mk made fs₁ =>
          have hgrows := makeDirectories_grows hmake
          have hsame : fs' = fs₁ := by
            unfold fileStep mapError at h
            simp only [hmake] at h
            cases made with
            | ok u =>
                cases h
                rfl
            | error e =>
                cases h
                rfl
          rw [hsame]
          exact hgrows

theorem makeParent_of_parent {holder : String} (hparent : parent? path = some holder)
    (h : makeDirectories holder fs = (.ok (), fs')) : makeParent path fs = (.ok (), fs') := by
  unfold makeParent
  rw [hparent]
  exact fileStep_ok.mpr h

/-- What a file at a site needs is there already. -/
theorem makeParent_of_site (hsite : fs.Site path p n) : makeParent path fs = (.ok (), fs) := by
  obtain ⟨holder, hparent, rfl | hdirectory⟩ := hsite.parent
  · exact makeParent_of_parent hparent rfl
  · exact makeParent_of_parent hparent (makeDirectories_of_isDirectory hdirectory)

/-- What a file needs below a directory is made, if no file is in the way. -/
theorem makeParent_below {B X : List (List Char)} {d : Place} (hcheck : checkPath path = .ok ())
    (hsegments : segments path = B ++ X ++ [n.toList]) (hB : B ≠ [])
    (hX : ∀ x ∈ X, isIdle x = true ∨ ProperName (.ofList x)) (hn : ProperName n)
    (hfollow : fs.follow (fs.origin path) B = .ok d) (hd : fs.get? d = some .directory)
    (hfiles : ∀ q, q <+: namesOf X → ∀ c, fs.get? (d ++ q) ≠ some (.file c)) :
    ∃ fs', makeParent path fs = (.ok (), fs') ∧ fs'.Site path (d ++ namesOf X) n
      ∧ ∀ q, fs.get? q = none → fs'.get? q ≠ none → q <+: d ++ namesOf X := by
  obtain ⟨holder, rest, K, E, T, hparent, -, -, -, hholder, hfront, -, hT, hlast⟩ :=
    parent?_of_name hsegments (by simp [hB]) hn.isName
  have hK : K ≠ [] := by
    rcases hlast with hone | ⟨-, K', m, rfl, -⟩
    · intro hnil
      rw [hnil] at hone
      cases hone
    · simp
  have hfuel := length_namesOf_le hB hholder hfront hT hK
  obtain ⟨holder', fs', hparent', hmake, hsite, hnew⟩ := makeFirst_parents hcheck hsegments hB hX hn
    hfollow hd hfiles (Nat.lt_succ_of_le hfuel)
  rw [hparent] at hparent'
  obtain rfl := Option.some.inj hparent'
  exact ⟨fs', makeParent_of_parent hparent hmake, hsite, hnew⟩

-- ============================================================ uploads

theorem upload_ok (h : upload ⟨root⟩ key body fs = (.ok (), fs')) :
    ∃ fs₁ p n, fs.Grows fs₁ ∧ fs₁.Site (join root key) p n
      ∧ fs₁.get? (p ++ [n]) ≠ some .directory ∧ fs' = fs₁.put (p ++ [n]) (.file body) := by
  obtain ⟨u, fs₁, hparent, hwrite⟩ := of_bind_ok h
  obtain ⟨p, n, hsite, hfree, hput⟩ := write_ok_iff.mp (change_ok.mp (fileStep_ok.mp hwrite))
  exact ⟨fs₁, p, n, makeParent_grows hparent, hsite, hfree, hput⟩

theorem upload_of_site (body : Bytes) (hsite : fs.Site (join root key) p n)
    (hfree : fs.get? (p ++ [n]) ≠ some .directory) :
    upload ⟨root⟩ key body fs = (.ok (), fs.put (p ++ [n]) (.file body)) := by
  refine (bind_ok (makeParent_of_site hsite)).trans ?_
  exact fileStep_ok.mpr (change_ok.mpr (hsite.write_eq hfree body))

end Storage

end EventDocs
