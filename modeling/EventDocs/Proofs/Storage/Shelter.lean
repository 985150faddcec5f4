import EventDocs.Proofs.FileSystem.Ways
import EventDocs.Proofs.Storage.Copies

/-
What copying a storage and storing texts may touch, whether they come to their end or not.

Both follow the way of a path: the directories on it are made, and the file at its end is put.
So whatever is new lies on a way. The way of a copy leads through the private directory, and as
long as the path of the storage does not lead out of it again, everything outside stays as it was
(`fetch_sheltered`). This is kept step by step, so it holds of a copying that failed halfway.
-/

namespace EventDocs

open EventDocs.Path FileSystem

-- ============================================================ what actions keep

namespace Action

variable {ε δ α β : Type} {P : FileSystem → Prop} {fs fs' : FileSystem}

/-- However an action ends, it keeps what holds of the file system. -/
def Keeps (P : FileSystem → Prop) (a : Action ε α) : Prop :=
  ∀ (fs fs' : FileSystem) (result : Except ε α), P fs → a fs = (result, fs') → P fs'

theorem Keeps.bind {a : Action ε α} {f : α → Action ε β} (ha : Keeps P a)
    (hf : ∀ x, Keeps P (f x)) : Keeps P (a >>= f) := by
  intro fs fs' result hfs hrun
  cases hfirst : a fs with
  | mk made fs₁ =>
      cases made with
      | error e =>
          rw [bind_error hfirst] at hrun
          cases hrun
          exact ha _ _ _ hfs hfirst
      | ok x =>
          rw [bind_ok hfirst] at hrun
          exact hf x _ _ _ (ha _ _ _ hfs hfirst) hrun

theorem Keeps.forM {f : α → Action ε Unit} {xs : List α} (hf : ∀ x ∈ xs, Keeps P (f x)) :
    Keeps P (xs.forM f) := by
  induction xs with
  | nil =>
      intro fs fs' result hfs hrun
      cases hrun
      exact hfs
  | cons x xs ih =>
      exact (hf x List.mem_cons_self).bind fun _ => ih fun y hy => hf y (List.mem_cons_of_mem x hy)

theorem Keeps.change {f : FileSystem → Except ε FileSystem}
    (h : ∀ {fs fs'}, P fs → f fs = .ok fs' → P fs') : Keeps P (change f) := by
  intro fs fs' result hfs hrun
  rw [change_eq] at hrun
  cases hf : f fs with
  | ok fs₁ =>
      rw [hf] at hrun
      cases hrun
      exact h hfs hf
  | error e =>
      rw [hf] at hrun
      cases hrun
      exact hfs

/-- Saying more about a failure changes nothing. -/
theorem of_mapError {f : ε → δ} {a : Action ε α} {result : Except δ α}
    (h : a.mapError f fs = (result, fs')) : ∃ made, a fs = (made, fs') := by
  unfold mapError at h
  cases hrun : a fs with
  | mk made fs₁ =>
      rw [hrun] at h
      cases made with
      | ok x =>
          cases h
          exact ⟨_, rfl⟩
      | error e =>
          cases h
          exact ⟨_, rfl⟩

theorem Keeps.mapError {a : Action ε α} (ha : Keeps P a) (f : ε → δ) : Keeps P (a.mapError f) := by
  intro fs fs' result hfs hrun
  obtain ⟨made, hmade⟩ := of_mapError hrun
  exact ha _ _ _ hfs hmade

end Action

namespace FileSystem

variable {fs fs' : FileSystem} {p : Place} {n : String}

/-- A copy puts a file where its path leads. -/
theorem copy_ok {source target : String} (h : fs.copy source target = .ok fs') :
    ∃ p n c, fs.Site target p n ∧ fs.get? (p ++ [n]) ≠ some .directory
      ∧ fs' = fs.put (p ++ [n]) (.file c) := by
  unfold copy at h
  cases hread : fs.read source with
  | error e => simp [hread, bind, Except.bind] at h
  | ok c =>
      cases hwrite : fs.write target [] with
      | error e => simp [hread, hwrite, bind, Except.bind] at h
      | ok emptied =>
          simp only [hread, hwrite, bind, Except.bind] at h
          obtain ⟨p, n, hsite, hfree, hemptied⟩ := write_ok_iff.mp hwrite
          rcases ite_eq_iff.mp h with ⟨-, h⟩ | ⟨-, h⟩
          · obtain rfl := Except.ok.inj h
            exact ⟨p, n, [], hsite, hfree, hemptied⟩
          · obtain ⟨p, n, hsite, hfree, hput⟩ := write_ok_iff.mp h
            exact ⟨p, n, c, hsite, hfree, hput⟩

end FileSystem

namespace Storage

open Listing EventDocs.Action

variable {fs₀ fs fs₁ fs' : FileSystem} {root into path key n : String} {d p q names : Place}
  {body : Bytes} {result : Except Failure Unit}

-- ============================================================ the directory of a file

theorem makeParent_way (h : makeParent path fs = (result, fs')) (hnew : New fs fs' q) :
    Way (fs.origin path) (segments path) q := by
  unfold makeParent at h
  cases hparent : parent? path with
  | none =>
      rw [hparent] at h
      cases h
      exact absurd hnew.1 hnew.2
  | some holder =>
      rw [hparent] at h
      obtain ⟨made, hmade⟩ := of_mapError h
      by_cases hempty : holder = ""
      · subst hempty
        obtain ⟨-, rfl⟩ := Prod.mk.inj ((makeFirst_empty _ fs).symm.trans hmade)
        exact absurd hnew.1 hnew.2
      · exact way_of_holder hparent hempty (makeDirectories_way hmade hnew)

-- ============================================================ shelter

/-- Nothing has changed outside of a directory. -/
structure Sheltered (fs₀ fs : FileSystem) (d : Place) : Prop where
  keeps : KeepsDirectories fs₀ fs
  wellFormed : fs₀.WellFormed → fs.WellFormed
  outside : ∀ {p : Place}, ¬ d <+: p → fs.get? p = fs₀.get? p

namespace Sheltered

theorem refl (fs : FileSystem) (d : Place) : Sheltered fs fs d :=
  ⟨KeepsDirectories.refl fs, id, fun _ => rfl⟩

theorem trans (h : Sheltered fs₀ fs₁ d) (h' : Sheltered fs₁ fs d) : Sheltered fs₀ fs d :=
  ⟨h.keeps.trans h'.keeps, fun hfs => h'.wellFormed (h.wellFormed hfs),
    fun hp => (h'.outside hp).trans (h.outside hp)⟩

theorem of_grows (h : fs.Grows fs') (hnew : ∀ q, New fs fs' q → d <+: q) : Sheltered fs fs' d := by
  refine ⟨h.keepsDirectories, h.wellFormed, ?_⟩
  intro p hp
  by_contra hchanged
  obtain ⟨hbefore, hafter⟩ := h.changed hchanged
  exact hp (hnew p ⟨hbefore, by simp [hafter]⟩)

theorem of_write {c : Bytes} (hsite : fs.Site path p n)
    (hfree : fs.get? (p ++ [n]) ≠ some .directory) (hbelow : d <+: p ++ [n]) :
    Sheltered fs (fs.put (p ++ [n]) (.file c)) d := by
  refine ⟨keepsDirectories_put hfree _, ?_, ?_⟩
  · exact fun hfs => hfs.put hsite.directory hsite.name fun h => absurd h hfree
  intro q hq
  rw [get?_put fs (by simp), if_neg]
  intro heq
  exact hq (heq ▸ hbelow)

end Sheltered

-- ============================================================ copies

/-- The way of a copy leads to the private directory and stays there, if the path of the storage
never leads out of where it starts. -/
theorem below_of_copy_way (hinto : fs.stat into = .ok (d, .directory))
    (hroot : StaysBelow (inner root)) (hnames : ∀ n ∈ names, IsName n) (hne : names ≠ [])
    (hsearch : (searchPath? root).isSome = true)
    (hway : Way (fs.origin (copyPath root into names)) (segments (copyPath root into names)) q) :
    fs.get? q = some .directory ∨ d <+: q := by
  obtain ⟨hlocate, hd⟩ := stat_ok_iff.mp hinto
  have hempty : into ≠ "" := (text_of_stat hinto).2
  have hstem := follow_stem hlocate hd
  rw [segments_copyPath hempty hnames hne hsearch,
    origin_eq fs (isAbsolute_copyPath hempty hnames hne hsearch)] at hway
  rcases Way.append_iff.mp hway with hway | hway
  · exact Or.inl (directory_of_way hstem hd hway)
  · right
    rw [← eq_arrive hstem] at hway
    refine hroot.append (staysBelow_of_no_up ?_) d q hway
    intro t ht
    obtain ⟨m, hm, rfl⟩ := List.mem_map.mp ht
    exact (isName_iff.mp (hnames m hm).1).2

/-- One more copy, made or not, leaves everything outside of the private directory as it was. -/
theorem keeps_fetchFile (hinto : fs₀.stat into = .ok (d, .directory))
    (hroot : StaysBelow (inner root)) (hnames : ∀ n ∈ names, IsName n) (hne : names ≠ [])
    (hsearch : (searchPath? root).isSome = true) :
    Keeps (Sheltered fs₀ · d) (fetchFile ⟨root⟩ into (listed (found root names))) := by
  have hbelow : ∀ {fs : FileSystem}, Sheltered fs₀ fs d → ∀ {q : Place},
      Way (fs.origin (copyPath root into names)) (segments (copyPath root into names)) q →
      fs.get? q = some .directory ∨ d <+: q :=
    fun h _ hway => below_of_copy_way (h.keeps.stat hinto) hroot hnames hne hsearch hway
  refine Keeps.bind ?_ fun _ => Keeps.mapError (Keeps.change ?_) _
  · intro fs fs' result hfs hparent
    refine hfs.trans (Sheltered.of_grows (makeParent_grows hparent) ?_)
    intro q hnew
    rcases hbelow hfs (makeParent_way hparent hnew) with hdirectory | hq
    · rw [hnew.1] at hdirectory
      cases hdirectory
    · exact hq
  · intro fs fs' hfs hcopy
    obtain ⟨p, m, c, hsite, hfree, rfl⟩ := copy_ok hcopy
    refine hfs.trans (Sheltered.of_write hsite hfree ?_)
    have hend : p ++ [m] = fs.target (copyPath root into names) := hsite.eq_target
    rcases hbelow hfs (Way.last _ _) with hdirectory | hq
    · exact absurd (hend ▸ hdirectory) hfree
    · exact hend ▸ hq

/-- Copying a storage leaves everything outside of the private directory as it was. -/
theorem fetch_sheltered (hfs : fs.WellFormed) (hinto : fs.stat into = .ok (d, .directory))
    (hroot : StaysBelow (inner root)) (h : fetch ⟨root⟩ into fs = (result, fs')) :
    Sheltered fs fs' d := by
  have hask := ask_eq (·.list root) fs
  unfold fetch at h
  cases hlist : fs.list? root with
  | none =>
      have hfailed : ((Action.ask (·.list root)).during (.listing root)) fs
          = (.error (.during (.listing root) (.notADirectory root)), fs) := by
        unfold during mapError
        rw [hask, FileSystem.list, hlist]
      rw [bind_error hfailed] at h
      cases h
      exact Sheltered.refl fs d
  | some files =>
      obtain ⟨s, hstat⟩ := stat_of_list? hlist
      rw [list?_eq hfs hstat] at hlist
      obtain rfl := Option.some.inj hlist
      have hlisted : ((Action.ask (·.list root)).during (.listing root)) fs
          = (.ok ((shown fs root s).map fun names => listed (found root names)), fs) := by
        apply during_ok.mpr
        rw [hask, FileSystem.list, list?_eq hfs hstat]
      rw [bind_ok hlisted] at h
      have hkeeps : Keeps (Sheltered fs · d) (((shown fs root s).map fun names =>
          listed (found root names)).forM (fetchFile ⟨root⟩ into)) := by
        apply Keeps.forM
        intro f hf
        obtain ⟨names, hmem, rfl⟩ := List.mem_map.mp hf
        obtain ⟨hbelow, hshows⟩ := List.mem_filter.mp hmem
        exact keeps_fetchFile hinto hroot (isName_of_filesBelow hfs hbelow)
          (mem_filesBelow.mp hbelow).1 (searchPath?_of_shows hshows)
      exact hkeeps _ _ _ (Sheltered.refl fs d) h

-- ============================================================ uploads

/-- What an upload touches lies on the way of its path: the directories that it needs, and at its
end the file. -/
theorem upload_way (h : upload ⟨root⟩ key body fs = (.ok (), fs')) (hnew : New fs fs' q) :
    Way (fs.origin (join root key)) (segments (join root key)) q := by
  obtain ⟨u, fs₁, hparent, hwrite⟩ := of_bind_ok h
  obtain ⟨p, n, hsite, -, rfl⟩ := write_ok_iff.mp (change_ok.mp (fileStep_ok.mp hwrite))
  rcases hnew.between fs₁ with hq | hq
  · exact makeParent_way hparent hq
  · have hplace : q = p ++ [n] := by
      by_contra hne
      obtain ⟨hnone, hsome⟩ := hq
      rw [get?_put fs₁ (by simp), if_neg hne] at hsome
      exact hsome hnone
    rw [hplace, hsite.eq_target, target_of_here (makeParent_grows hparent).here]
    exact Way.last _ _

end Storage

end EventDocs
