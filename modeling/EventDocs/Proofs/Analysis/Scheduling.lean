import EventDocs.Proofs.Analysis.Parts
import Mathlib.Data.List.Nodup
import Mathlib.Logic.Relation

/-
The result of an analysis does not depend on the order in which its files happen to be done.

A batch is worked off by tasks, one for each file. A task is started when a permit is free,
in the order of the files; it gives the permit back when its file is analysed; and its
findings are put into the slot that has the number of the file when somebody asks for them.
Tasks may be done, and asked, in any order (`Step`).

Nothing is lost on the way and nothing is there twice: the files that wait, those that are
being analysed, the findings that nobody has asked for and the filled slots make up, at any
moment, the findings of the whole batch (`Accounted`). So a slot is empty when its findings
come, and at the end every slot holds the findings of its own file. Every step takes one off
the work that is left, and as there is at least one permit, some step can be taken as long
as anything is left; so every run ends.
-/

namespace EventDocs

-- ============================================================ statement vocabulary

/-- What comes of one file: its blocks and its problems. -/
abbrev Findings := List Block × List LocatedProblem

def Input.findings (r : Repository) (env : Environment) (i : Input) : Findings :=
  (Outcome.blocks (i.outcomes r env), Outcome.problems (i.outcomes r env))

namespace Schedule

/-- A batch under analysis. Files and findings go with the number of the file. -/
structure State where
  waiting : List (Input × Nat)
  /-- Each of these holds a permit. -/
  running : List (Input × Nat)
  /-- Nobody has asked for these yet. -/
  finished : List (Findings × Nat)
  /-- Those that are free. -/
  permits : Nat
  slots : List (Option Findings)

/-- Nothing is done yet; there is one permit at least. -/
def start (concurrency : Nat) (inputs : List Input) : State where
  waiting := inputs.zipIdx
  running := []
  finished := []
  permits := max concurrency 1
  slots := List.replicate inputs.length none

/-- What may happen next. -/
inductive Step (r : Repository) (env : Environment) : State → State → Prop where
  | spawn {s : State} {task : Input × Nat} {rest : List (Input × Nat)} {n : Nat} :
      s.waiting = task :: rest → s.permits = n + 1 →
      Step r env s { s with waiting := rest, running := s.running ++ [task], permits := n }
  | finish {s : State} {task : Input × Nat} {before after : List (Input × Nat)} :
      s.running = before ++ task :: after →
      Step r env s { s with
        running := before ++ after
        finished := s.finished ++ [(task.1.findings r env, task.2)]
        permits := s.permits + 1 }
  | join {s : State} {done : Findings × Nat} {before after : List (Findings × Nat)} :
      s.finished = before ++ done :: after →
      Step r env s { s with
        finished := before ++ after
        slots := s.slots.set done.2 (some done.1) }

/-- Some number of steps. -/
abbrev Reaches (r : Repository) (env : Environment) : State → State → Prop :=
  Relation.ReflTransGen (Step r env)

namespace State

def IsOver (s : State) : Prop := s.waiting = [] ∧ s.running = [] ∧ s.finished = []

/-- What is made of the slots: the problems of all files if there are any, and otherwise
their blocks. -/
def result (s : State) : Except AnalysisFailure (List Block) :=
  match (s.slots.filterMap id).flatMap Prod.snd with
  | [] => .ok (Block.sorted ((s.slots.filterMap id).flatMap Prod.fst))
  | problems => .error (.problems problems)

/-- How many steps are left: three for a file that waits, two for one that is being
analysed, one for findings that nobody has asked for. -/
def work (s : State) : Nat := 3 * s.waiting.length + 2 * s.running.length + s.finished.length

/-- The filled slots with their numbers. -/
def filled (slots : List (Option Findings)) (first : Nat) : List (Findings × Nat) :=
  (slots.zipIdx first).filterMap fun slot => slot.1.map (·, slot.2)

end State

open State

/-- The findings of a task with its number. -/
def done (r : Repository) (env : Environment) (task : Input × Nat) : Findings × Nat :=
  (task.1.findings r env, task.2)

/-- All findings of the batch, wherever they stand or are still to come from. -/
def account (r : Repository) (env : Environment) (s : State) : List (Findings × Nat) :=
  s.waiting.map (done r env) ++ s.running.map (done r env) ++ s.finished ++ filled s.slots 0

structure Accounted (r : Repository) (env : Environment) (concurrency : Nat)
    (inputs : List Input) (s : State) : Prop where
  permits : s.permits + s.running.length = max concurrency 1
  slots : s.slots.length = inputs.length
  complete : (account r env s).Perm (inputs.map (Input.findings r env)).zipIdx

variable {r : Repository} {env : Environment} {concurrency : Nat} {inputs : List Input}
  {s t : State}

-- ============================================================ slots

theorem mem_filled {slots : List (Option Findings)} {f : Findings} {k : Nat} :
    (f, k) ∈ filled slots 0 ↔ slots[k]? = some (some f) := by
  unfold filled
  rw [List.mem_filterMap]
  constructor
  · intro hsome
    obtain ⟨⟨slot, i⟩, hmem, hslot⟩ := hsome
    obtain ⟨g, rfl, hg⟩ := Option.map_eq_some_iff.mp hslot
    obtain ⟨rfl, rfl⟩ := Prod.mk.inj hg
    exact List.mem_zipIdx_iff_getElem?.mp hmem
  · intro hget
    exact ⟨(some f, k), List.mem_zipIdx_iff_getElem?.mpr hget, rfl⟩

/-- Filling an empty slot adds its findings and nothing else. -/
theorem filled_set {slots : List (Option Findings)} {k : Nat} (f : Findings)
    (hempty : slots[k]? = some none) (first : Nat) :
    (filled (slots.set k (some f)) first).Perm ((f, first + k) :: filled slots first) := by
  induction slots generalizing k first with
  | nil => simp at hempty
  | cons slot slots ih =>
      cases k with
      | zero =>
          simp only [List.getElem?_cons_zero, Option.some.injEq] at hempty
          subst hempty
          exact .refl _
      | succ k =>
          rw [List.getElem?_cons_succ] at hempty
          have hrest := ih hempty (first + 1)
          rw [show first + 1 + k = first + (k + 1) by omega] at hrest
          cases slot with
          | none => exact hrest
          | some g => exact (hrest.cons (g, first)).trans (.swap _ _ _)

/-- When all findings have been asked for, each slot holds those of its file. -/
theorem slots_eq_of_filled {findings : List Findings} {slots : List (Option Findings)}
    (hlength : slots.length = findings.length)
    (hfilled : (filled slots 0).Perm findings.zipIdx) : slots = findings.map some := by
  apply List.ext_getElem?
  intro k
  rw [List.getElem?_map]
  cases hk : findings[k]? with
  | none =>
      rw [List.getElem?_eq_none_iff] at hk
      exact List.getElem?_eq_none (by omega)
  | some f =>
      have hmem : (f, k) ∈ findings.zipIdx := List.mem_zipIdx_iff_getElem?.mpr hk
      exact mem_filled.mp (hfilled.mem_iff.mpr hmem)

-- ============================================================ one step

theorem accounted_start (r : Repository) (env : Environment) (concurrency : Nat)
    (inputs : List Input) : Accounted r env concurrency inputs (start concurrency inputs) where
  permits := rfl
  slots := List.length_replicate
  complete := by
    have hfilled : filled (List.replicate inputs.length none) 0 = [] := by
      apply List.eq_nil_iff_forall_not_mem.mpr
      rintro ⟨f, k⟩ hmem
      rw [mem_filled, List.getElem?_replicate] at hmem
      split at hmem <;> cases hmem
    show (inputs.zipIdx.map (done r env) ++ [] ++ []
      ++ filled (List.replicate inputs.length none) 0).Perm _
    rw [hfilled, List.append_nil, List.append_nil, List.append_nil, List.zipIdx_map]
    exact .refl _

namespace Accounted

/-- No number is there twice. -/
theorem nodup (h : Accounted r env concurrency inputs s) :
    ((account r env s).map Prod.snd).Nodup := by
  have hnumbers := h.complete.map Prod.snd
  rw [List.zipIdx_map_snd] at hnumbers
  exact hnumbers.nodup_iff.mpr List.nodup_range'

/-- The slot of findings that nobody has asked for is empty. -/
theorem slot_empty (h : Accounted r env concurrency inputs s) {d : Findings × Nat}
    (hd : d ∈ s.finished) : s.slots[d.2]? = some none := by
  have hall : d ∈ account r env s := by
    unfold account
    simp [hd]
  have hlt : d.2 < s.slots.length := by
    have hzip := h.complete.mem_iff.mp hall
    have hget := List.mem_zipIdx_iff_getElem?.mp hzip
    obtain ⟨hk, -⟩ := List.getElem?_eq_some_iff.mp hget
    rw [List.length_map] at hk
    rw [h.slots]
    exact hk
  rw [List.getElem?_eq_getElem hlt]
  cases hslot : s.slots[d.2] with
  | none => rfl
  | some f =>
      -- findings in the slot and findings on the way to it would have the same number
      have hfilled : (f, d.2) ∈ filled s.slots 0 := by
        rw [mem_filled, List.getElem?_eq_getElem hlt, hslot]
      have hnodup := h.nodup
      unfold account at hnodup
      rw [List.map_append, List.nodup_append] at hnodup
      exact absurd rfl (hnodup.2.2 d.2 (List.mem_map.mpr ⟨d, by simp [hd], rfl⟩) d.2
        (List.mem_map.mpr ⟨_, hfilled, rfl⟩))

theorem step (h : Accounted r env concurrency inputs s) (hstep : Step r env s t) :
    Accounted r env concurrency inputs t := by
  cases hstep with
  | spawn hwaiting hpermits =>
      refine ⟨?_, h.slots, List.Perm.trans ?_ h.complete⟩
      · have := h.permits
        simp only [List.length_append, List.length_singleton]
        omega
      · apply List.perm_iff_count.mpr
        intro x
        simp only [account, hwaiting, List.map_append, List.map_cons, List.map_nil,
          List.count_append, List.count_cons, List.count_nil]
        omega
  | finish hrunning =>
      refine ⟨?_, h.slots, List.Perm.trans ?_ h.complete⟩
      · have := h.permits
        rw [hrunning, List.length_append, List.length_cons] at this
        simp only [List.length_append]
        omega
      · apply List.perm_iff_count.mpr
        intro x
        simp only [account, hrunning, done, List.map_append, List.map_cons,
          List.count_append, List.count_cons, List.count_nil]
        omega
  | @join d before after hfinished =>
      have hempty := h.slot_empty (d := d) (by simp [hfinished])
      refine ⟨h.permits, (List.length_set ..).trans h.slots, List.Perm.trans ?_ h.complete⟩
      apply List.perm_iff_count.mpr
      intro x
      have hset := List.perm_iff_count.mp (filled_set d.1 hempty 0) x
      rw [Nat.zero_add, Prod.eta, List.count_cons] at hset
      simp only [account, hfinished, List.count_append, List.count_cons, hset]
      omega

-- ============================================================ whole runs

theorem reaches (h : Reaches r env (start concurrency inputs) s) :
    Accounted r env concurrency inputs s := by
  induction h with
  | refl => exact accounted_start r env concurrency inputs
  | tail _ hstep ih => exact ih.step hstep

/-- As long as anything is left, there is a step. -/
theorem exists_step (h : Accounted r env concurrency inputs s) (hleft : ¬ s.IsOver) :
    ∃ t, Step r env s t := by
  cases hfinished : s.finished with
  | cons d rest => exact ⟨_, .join (show s.finished = [] ++ d :: rest from hfinished)⟩
  | nil =>
      cases hrunning : s.running with
      | cons task rest => exact ⟨_, .finish (show s.running = [] ++ task :: rest from hrunning)⟩
      | nil =>
          cases hwaiting : s.waiting with
          | nil => exact absurd ⟨hwaiting, hrunning, hfinished⟩ hleft
          | cons task rest =>
              -- nobody holds a permit, so all of them are free
              have hpermits := h.permits
              rw [hrunning, List.length_nil] at hpermits
              have hone : s.permits = (s.permits - 1) + 1 := by omega
              exact ⟨_, .spawn hwaiting hone⟩

end Accounted

/-- Every step takes one off the work that is left. -/
theorem work_step (hstep : Step r env s t) : s.work = t.work + 1 := by
  cases hstep with
  | spawn hwaiting _ =>
      simp only [work, hwaiting, List.length_append, List.length_cons, List.length_nil]
      omega
  | finish hrunning =>
      simp only [work, hrunning, List.length_append, List.length_cons, List.length_nil]
      omega
  | join hfinished =>
      simp only [work, hfinished, List.length_append, List.length_cons]
      omega

/-- Every run can be brought to its end. -/
theorem Accounted.exists_end (h : Accounted r env concurrency inputs s) :
    ∃ t, Reaches r env s t ∧ t.IsOver := by
  induction hwork : s.work generalizing s with
  | zero =>
      refine ⟨s, .refl, ?_⟩
      unfold work at hwork
      exact ⟨List.eq_nil_of_length_eq_zero (by omega), List.eq_nil_of_length_eq_zero (by omega),
        List.eq_nil_of_length_eq_zero (by omega)⟩
  | succ n ih =>
      have hleft : ¬ s.IsOver := by
        intro hboth
        obtain ⟨hwaiting, hrunning, hfinished⟩ := hboth
        simp [work, hwaiting, hrunning, hfinished] at hwork
      obtain ⟨u, hstep⟩ := h.exists_step hleft
      have hone := work_step hstep
      obtain ⟨t, hreach, hover⟩ := ih (h.step hstep) (by omega)
      exact ⟨t, .head hstep hreach, hover⟩

theorem Accounted.slots_eq (h : Accounted r env concurrency inputs s) (hover : s.IsOver) :
    s.slots = (inputs.map (Input.findings r env)).map some := by
  obtain ⟨hwaiting, hrunning, hfinished⟩ := hover
  have hfilled := h.complete
  unfold account at hfilled
  rw [hwaiting, hrunning, hfinished, List.map_nil, List.nil_append, List.nil_append] at hfilled
  apply slots_eq_of_filled _ hfilled
  rw [h.slots, List.length_map]

-- ============================================================ the result

theorem flatMap_blocks (r : Repository) (env : Environment) (inputs : List Input) :
    inputs.flatMap (fun i => (i.findings r env).1)
      = Outcome.blocks (inputs.flatMap (Input.outcomes r env)) := by
  unfold Outcome.blocks
  rw [List.filterMap_flatMap]
  rfl

theorem flatMap_problems (r : Repository) (env : Environment) (inputs : List Input) :
    inputs.flatMap (fun i => (i.findings r env).2)
      = Outcome.problems (inputs.flatMap (Input.outcomes r env)) := by
  unfold Outcome.problems
  rw [List.filterMap_flatMap]
  rfl

theorem result_of_slots (hslots : s.slots = (inputs.map (Input.findings r env)).map some) :
    s.result = analyze r env inputs := by
  have hfound : s.slots.filterMap id = inputs.map (Input.findings r env) := by
    rw [hslots, List.filterMap_map, Function.id_comp, List.filterMap_some]
  have hproblems : (s.slots.filterMap id).flatMap Prod.snd
      = Outcome.problems (inputs.flatMap (Input.outcomes r env)) := by
    rw [hfound, List.flatMap_map]
    exact flatMap_problems r env inputs
  have hblocks : (s.slots.filterMap id).flatMap Prod.fst
      = Outcome.blocks (inputs.flatMap (Input.outcomes r env)) := by
    rw [hfound, List.flatMap_map]
    exact flatMap_blocks r env inputs
  unfold result analyze
  cases hfirst : Outcome.problems (inputs.flatMap (Input.outcomes r env)) with
  | nil => simp only [hproblems, hblocks, hfirst]
  | cons problem rest => simp only [hproblems, hfirst]

theorem analyze_of_problems (hnone : inputs.flatMap (fun i => (i.findings r env).2) = []) :
    analyze r env inputs = .ok (Block.sorted (inputs.flatMap fun i => (i.findings r env).1)) := by
  rw [flatMap_problems] at hnone
  exact analyze_eq_ok_iff.mpr ⟨hnone, by rw [flatMap_blocks]⟩

theorem analyze_error {problems : List LocatedProblem}
    (hsome : inputs.flatMap (fun i => (i.findings r env).2) = problems) (hne : problems ≠ []) :
    analyze r env inputs = .error (.problems problems) := by
  rw [flatMap_problems] at hsome
  unfold analyze
  simp only [hsome]

/-- However the tasks of a batch take turns, no more of them run than there are permits, the
batch comes to an end, a slot is empty when its findings come, and the result is that of the
files taken one after the other: their blocks, stably sorted, or, if there is a problem
anywhere, one failure that lists all problems and no blocks. -/
theorem result_of_interleaving {concurrency : Nat} (hlimit : concurrency ≤ maxConcurrency)
    (r : Repository) (env : Environment) (inputs : List Input) {s : State}
    (hrun : Reaches r env (start concurrency inputs) s) :
    s.running.length ≤ max concurrency 1
      ∧ (∃ t, Reaches r env s t ∧ t.IsOver)
      ∧ (∀ t, Step r env s t → s.work = t.work + 1)
      ∧ (∀ d ∈ s.finished, s.slots[d.2]? = some none)
      ∧ (s.IsOver →
          s.slots = inputs.map (fun i => some (i.findings r env))
          ∧ s.result = analyzeConcurrently concurrency r env inputs
          ∧ (inputs.flatMap (fun i => (i.findings r env).2) = [] →
              ∃ blocks, s.result = .ok blocks
                ∧ StableSort (inputs.flatMap fun i => (i.findings r env).1) blocks)
          ∧ (inputs.flatMap (fun i => (i.findings r env).2) ≠ [] →
              ∃ failure, s.result = .error failure
                ∧ failure.message = "\n".intercalate
                    ((inputs.flatMap fun i => (i.findings r env).2).map fun p =>
                      " - " ++ p.message)
                    ++ "\nanalysis failed: not all documents could be parsed")) := by
  have haccounted := Accounted.reaches hrun
  refine ⟨?_, haccounted.exists_end, fun t => work_step, fun d => haccounted.slot_empty, ?_⟩
  · have := haccounted.permits
    omega
  · intro hover
    have hslots := haccounted.slots_eq hover
    have hresult := result_of_slots hslots
    refine ⟨?_, ?_, ?_, ?_⟩
    · rw [hslots, List.map_map]
      rfl
    · rw [hresult, analyzeConcurrently, if_neg (Nat.not_lt.mpr hlimit)]
    · intro hnone
      exact ⟨_, hresult.trans (analyze_of_problems hnone), stableSort_sorted _⟩
    · intro hsome
      exact ⟨_, hresult.trans (analyze_error rfl hsome), rfl⟩

/-- Two files at a time, of which the second is done and asked first. -/
theorem result_of_interleaving_second_first :
    let schema : Input := ⟨"Paid.schema.json", "src/Paid.schema.json", "true"⟩
    let sample : Input := ⟨"Paid.sample.json", "src/Paid.sample.json", "1"⟩
    2 ≤ maxConcurrency
      ∧ ∃ s, Reaches {} [] (start 2 [schema, sample]) s ∧ s.IsOver
        ∧ s.result = analyzeConcurrently 2 {} [] [schema, sample] := by
  intro schema sample
  have hlimit : 2 ≤ maxConcurrency := by decide
  refine ⟨hlimit, ?_⟩
  have h₀ : Reaches {} [] (start 2 [schema, sample]) _ := .refl
  have h₁ := h₀.tail (.spawn (n := 1) rfl rfl)
  have h₂ := h₁.tail (.spawn (n := 0) rfl rfl)
  have h₃ := h₂.tail (.finish (show _ = [(schema, 0)] ++ (sample, 1) :: [] from rfl))
  have h₄ := h₃.tail (.finish (show _ = [] ++ (schema, 0) :: [] from rfl))
  have h₅ := h₄.tail (.join (show _ = [] ++ (sample.findings {} [], 1) :: [_] from rfl))
  have h₆ := h₅.tail (.join (show _ = [] ++ (schema.findings {} [], 0) :: [] from rfl))
  have hend := (result_of_interleaving hlimit {} [] _ h₆).2.2.2.2 ⟨rfl, rfl, rfl⟩
  exact ⟨_, h₆, ⟨rfl, rfl, rfl⟩, hend.2.1⟩

end Schedule

end EventDocs
