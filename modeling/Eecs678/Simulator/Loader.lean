import Eecs678.Lib.Machine
import Eecs678.Lib.Scanf
import Eecs678.Lib.Stdio
import Eecs678.Simulator.Runs

/-!
# Workloads as they are loaded

The loader of `simulator.c` (`loadFile`) takes every number that `atoi` gives. A file that it accepts
runs safely to the end exactly if each job runs for at least one unit and arrives at time 0 or later
(`safeRun_iff`). A job without running time is finished before it has a core (`runTime_ne_zero`); a job
whose running time is negative, or that is due before time 0, never leaves the array (`step_endless`).
-/

namespace Eecs678.Simulator.Loader

open Eecs678.Lib.Machine Eecs678.Lib.Scanf Eecs678.Lib.Stdio Eecs678.Scheduler.Model
open Eecs678.Simulator.Model Eecs678.Simulator.Jobs Eecs678.Simulator.Lockstep

/-! ### The loader -/

/-- `strtok` with one delimiter: the token, and where `strtok(NULL, ..)` goes on. -/
def strtok (delim : Char) (str : List Char) : Option (List Char × List Char) :=
  let str := str.dropWhile (· = delim)
  if str = [] then none
  else some (str.takeWhile (· ≠ delim), (str.dropWhile (· ≠ delim)).tail)

/-- The job of a line, with `none` for "Illegal file format." -/
def loadLine (line : List Char) : Option Line := do
  let (arrivalTime, rest) ← strtok ',' (cString line)
  let (runTime, rest) ← strtok ',' rest
  let (priority, _) ← strtok ',' rest
  return ⟨atoi arrivalTime, atoi runTime, atoi priority⟩

/-- The loop over the lines. -/
def loadLines : Stream → Option (List Line)
  | [] => some []
  | (line, _) :: file => do
    let job ← loadLine line
    let jobs ← loadLines file
    return job :: jobs

/-- The jobs of a file; the first line is ignored. -/
def loadFile (text : List Char) : Option (List Line) := loadLines (calls 1024 text).tail

/-- A header and two jobs. -/
example : loadFile "Arrival time,Run time,Priority\n0,8,4\n4, -6,1".toList =
    some [⟨0, 8, 4⟩, ⟨4, -6, 1⟩] := rfl

/-! ### What is asked of a run -/

/-- Every call of `scheduler_job_finished` is for a core with a job on it. -/
def CallsInRange (opts : Options) (lines : List Line) : Prop :=
  ∀ n i j, (stateAt opts lines n).pc = .finish i → (stateAt opts lines n).jobs[i]? = some j →
    j.runTime = 0 → 0 ≤ j.coreId ∧ j.coreId < opts.cores ∧
      (jobOn j.coreId (stateAt opts lines n).sched).isSome

/-- The main loop comes to its end. -/
def RunsToEnd (opts : Options) (lines : List Line) : Prop :=
  ∃ n, (stateAt opts lines n).pc = .stop .done

/-- If the loader accepts the file, it runs safely to the end. -/
def SafeRun (opts : Options) (text : List Char) : Prop :=
  ∀ lines, loadFile text = some lines → CallsInRange opts lines ∧ RunsToEnd opts lines

section Workloads
variable {opts : Options} {lines : List Line}

/-- **A workload runs safely to the end.** -/
theorem safe_of_workload (hcores : 0 < opts.cores) (h : Workload lines) :
    CallsInRange opts lines ∧ RunsToEnd opts lines := by
  refine ⟨fun n i j hpc hi h0 => ?_, Runs.halts hcores h⟩
  have hinv := stateAt_inv hcores h n
  have hj := List.mem_of_getElem? hi
  have hc := ((hinv.good i j hi).ended h0).1
  obtain ⟨p, -, hp, -⟩ := hinv.jobOn_core hj hc
  obtain ⟨h0, hlt⟩ := (hinv.range hj).resolve_left hc
  exact ⟨h0, hlt, by rw [hp]; rfl⟩

/-! ### A job without running time -/

theorem load_getElem {k : ℕ} {l : Line} (hk : lines[k]? = some l) :
    (load lines)[k]? = some ⟨k, l.arrivalTime, l.runTime, l.priority, -1, false⟩ := by
  rw [load, List.getElem?_mapIdx, hk, Option.map_some]

/-- At time 0 the first loop visits the jobs as they were loaded: none of them has a core, so none of
them has ended. -/
theorem stateAt_finish (hcalls : CallsInRange opts lines) : ∀ k < lines.length,
    stateAt opts lines (k + 1) = { start opts lines with pc := .finish k }
  | 0, hk => by
    have hlen : 0 < (start opts lines).jobs.length := by simpa [start, load] using hk
    exact if_pos hlen
  | k + 1, hk => by
    have ih := stateAt_finish hcalls k (by omega)
    have hl : lines[k]? = some lines[k] := List.getElem?_eq_getElem (by omega)
    have hj := load_getElem hl
    have h0 : lines[k].runTime ≠ 0 := fun h0 => by
      have hcore := (hcalls (k + 1) k _ (by rw [ih]) (by rw [ih]; exact hj) h0).1
      simp at hcore
    rw [stateAt, Function.iterate_succ_apply', ← stateAt, ih]
    simp only [step, finishStep, start, hj, if_neg h0]

/-- **No job may be without running time.** -/
theorem runTime_ne_zero (hcalls : CallsInRange opts lines) {l : Line} (hl : l ∈ lines) :
    l.runTime ≠ 0 := by
  obtain ⟨k, hk⟩ := List.mem_iff_getElem?.mp hl
  have hstate := stateAt_finish hcalls k (List.getElem?_eq_some_iff.mp hk).1
  intro h0
  have hcore := (hcalls (k + 1) k _ (by rw [hstate])
    (by rw [hstate]; exact load_getElem hk) h0).1
  simp at hcore

end Workloads

/-! ### Jobs that do not end -/

/-- A job that will never be found with nothing left: its time is negative, or it is not going to
arrive. -/
def Endless (j : SimulatorJob) : Prop :=
  j.runTime < 0 ∨ (j.runTime ≠ 0 ∧ j.arrivalTime < 0 ∧ j.arrived = false ∧ j.coreId = -1)

theorem Endless.runTime {j : SimulatorJob} (h : Endless j) : j.runTime ≠ 0 := by
  rcases h with h | ⟨h, -⟩
  · exact h.ne
  · exact h

/-- A job keeps a negative time on any core. -/
theorem Endless.setCore {j : SimulatorJob} (h : Endless j) {c : ℤ}
    (hc : j.arrived = true ∨ j.coreId ≠ -1) : Endless { j with coreId := c } := by
  rcases h with h | ⟨-, -, ha, hid⟩
  · exact Or.inl h
  · rw [ha, hid] at hc
    simp at hc

theorem Endless.clearCore {j : SimulatorJob} (h : Endless j) (c : ℤ) : Endless (clearCore c j) := by
  unfold Model.clearCore
  split_ifs
  · rcases h with h | ⟨h1, h2, h3, -⟩
    · exact Or.inl h
    · exact Or.inr ⟨h1, h2, h3, rfl⟩
  · exact h

theorem Endless.runJob {j : SimulatorJob} (h : Endless j) : Endless (runJob j) := by
  unfold Jobs.runJob
  split_ifs with hc
  · exact h
  · rcases h with h | ⟨-, -, -, hid⟩
    · exact Or.inl (by simp only; omega)
    · exact absurd hid hc

/-- Some job does not end. -/
def SomeEndless (jobs : List SimulatorJob) : Prop := ∃ j ∈ jobs, Endless j

namespace SomeEndless

variable {jobs jobs' : List SimulatorJob}

theorem map {f : SimulatorJob → SimulatorJob} (hf : ∀ j, Endless j → Endless (f j))
    (h : SomeEndless jobs) : SomeEndless (jobs.map f) := by
  obtain ⟨j, hj, he⟩ := h
  exact ⟨f j, List.mem_map_of_mem hj, hf j he⟩

theorem modify {f : SimulatorJob → SimulatorJob} {k : ℕ}
    (hf : ∀ j, jobs[k]? = some j → Endless j → Endless (f j)) (h : SomeEndless jobs) :
    SomeEndless (jobs.modify k f) := by
  obtain ⟨j, hj, he⟩ := h
  obtain ⟨k', hk'⟩ := List.mem_iff_getElem?.mp hj
  by_cases hk : k = k'
  · subst hk
    refine ⟨f j, List.mem_of_getElem? (i := k) ?_, hf j hk' he⟩
    simp [hk']
  · refine ⟨j, List.mem_of_getElem? (i := k') ?_, he⟩
    simp [hk', hk]

theorem setActiveJob {r c : ℤ} : ∀ {jobs jobs' : List SimulatorJob},
    setActiveJob r c jobs = some jobs' → SomeEndless jobs → SomeEndless jobs'
  | [], _, hset, _ => by cases hset
  | a :: jobs, jobs', hset, ⟨j, hj, he⟩ => by
    unfold Model.setActiveJob at hset
    split_ifs at hset with ha
    · rw [Option.some.injEq] at hset
      subst hset
      rcases List.mem_cons.mp hj with rfl | hj
      · exact ⟨_, List.mem_cons_self .., he.setCore (Or.inl ha.2)⟩
      · exact ⟨j, List.mem_cons_of_mem _ hj, he⟩
    · obtain ⟨rest, hrest, rfl⟩ := Option.map_eq_some_iff.mp hset
      rcases List.mem_cons.mp hj with rfl | hj
      · exact ⟨j, List.mem_cons_self .., he⟩
      · obtain ⟨j', hj', he'⟩ := SomeEndless.setActiveJob hrest ⟨j, hj, he⟩
        exact ⟨j', List.mem_cons_of_mem _ hj', he'⟩

theorem setNewJob {r c : ℤ} (hset : setNewJob r c jobs = some jobs') (h : SomeEndless jobs) :
    SomeEndless jobs' := by
  unfold Model.setNewJob at hset
  split_ifs at hset
  · exact Option.some.inj hset ▸ h
  · exact h.setActiveJob hset

/-- The job that is deleted had ended. -/
theorem deleteJob {i : ℕ} {j : SimulatorJob} (hi : jobs[i]? = some j) (h0 : j.runTime = 0)
    (h : SomeEndless jobs) : SomeEndless (deleteJob i jobs) := by
  obtain ⟨a, ha, he⟩ := h
  rcases List.mem_cons.mp ((deleteJob_spec hi).1.mem_iff.mpr ha) with rfl | ha'
  · exact absurd h0 he.runTime
  · exact ⟨a, ha', he⟩

end SomeEndless

theorem runJobs_ne_done : ∀ {jobs : List SimulatorJob} {clock : List ℤ} {strings : List String}
    {working : ℕ}, runJobs jobs clock strings working ≠ .error .done
  | [], clock, strings, working => fun h => by cases h
  | j :: jobs, clock, strings, working => by
    have key : ∀ (f : RunPhase → RunPhase) (clock : List ℤ) (strings : List String) (working : ℕ),
        (runJobs jobs clock strings working).map f ≠ .error .done := fun f clock strings working h => by
      cases hrun : runJobs jobs clock strings working with
      | error why =>
        rw [hrun] at h
        cases h
        exact runJobs_ne_done hrun
      | ok v =>
        rw [hrun] at h
        cases h
    unfold runJobs
    split_ifs
    · exact key _ _ _ _
    · exact fun h => by cases h
    · split
      · split_ifs
        · exact fun h => by cases h
        · exact key _ _ _ _
      · exact fun h => by cases h

/-- **A job that does not end keeps the loop from its end**, whatever the other jobs do. -/
structure NeverDone (s : Sim) : Prop where
  time : 0 ≤ s.time
  jobs : SomeEndless s.jobs
  pc : s.pc ≠ .stop .done

namespace NeverDone

variable {opts : Options} {s : Sim}

theorem length (h : NeverDone s) : 0 < s.jobs.length := by
  obtain ⟨j, hj, -⟩ := h.jobs
  exact List.length_pos_of_mem hj

theorem finish {i : ℕ} (h : NeverDone s) : NeverDone (finishStep opts i s) := by
  unfold finishStep
  cases hi : s.jobs[i]? with
  | none =>
    simp only
    rw [if_neg h.length.ne']
    split_ifs
    · exact ⟨h.time, h.jobs, nofun⟩
    · exact ⟨h.time, h.jobs, nofun⟩
  | some j =>
    simp only
    split_ifs with h0
    · have hdel := h.jobs.deleteJob hi h0
      cases schedulerJobFinished j.coreId j.jobId s.time s.sched with
      | none => exact ⟨h.time, h.jobs, nofun⟩
      | some res =>
        simp only
        cases hset : setNewJob res.1 j.coreId (deleteJob i s.jobs) with
        | none => exact ⟨h.time, hdel, nofun⟩
        | some jobs => exact ⟨h.time, hdel.setNewJob hset, nofun⟩
    · exact ⟨h.time, h.jobs, nofun⟩

theorem quantum {i : ℕ} (h : NeverDone s) : NeverDone (quantumStep opts i s) := by
  unfold quantumStep
  split_ifs
  · cases hk : s.jobs.findIdx? (fun j => j.coreId = (i : ℤ)) with
    | none => exact ⟨h.time, h.jobs, nofun⟩
    | some k =>
      have hmod : SomeEndless (s.jobs.modify k fun j => { j with coreId := -1 }) := by
        refine h.jobs.modify fun j hj he => he.setCore (Or.inr ?_)
        obtain ⟨hlt, hcore, -⟩ := List.findIdx?_eq_some_iff_getElem.mp hk
        rw [List.getElem?_eq_getElem hlt, Option.some.injEq] at hj
        have hid : s.jobs[k].coreId = i := by simpa using hcore
        rw [← hj]
        omega
      simp only
      cases schedulerQuantumExpired i s.time s.sched with
      | none => exact ⟨h.time, h.jobs, nofun⟩
      | some res =>
        simp only
        cases hset : setNewJob res.1 i (s.jobs.modify k fun j => { j with coreId := -1 }) with
        | none => exact ⟨h.time, hmod, nofun⟩
        | some jobs => exact ⟨h.time, hmod.setNewJob hset, nofun⟩
  · exact ⟨h.time, h.jobs, nofun⟩
  · exact ⟨h.time, h.jobs, nofun⟩

/-- The job that arrives is due now, so it is not one that was due before time 0. -/
theorem arrive {i : ℕ} (h : NeverDone s) : NeverDone (arriveStep opts i s) := by
  unfold arriveStep
  cases hi : s.jobs[i]? with
  | none => exact ⟨h.time, h.jobs, by simp⟩
  | some j =>
    simp only
    by_cases ht : j.arrivalTime = s.time
    · rw [if_pos ht]
      have hkeep : ∀ a : SimulatorJob, a.arrivalTime = s.time → Endless a → a.runTime < 0 :=
        fun a ha he => by
          have htime := h.time
          rcases he with he | ⟨-, hlt, -⟩
          · exact he
          · omega
      have harr : SomeEndless (s.jobs.modify i fun j => { j with arrived := true }) :=
        h.jobs.modify fun a ha he => by
          rw [hi, Option.some.injEq] at ha
          exact Or.inl (hkeep a (ha ▸ ht) he)
      split_ifs
      · refine ⟨h.time, (harr.map fun a ha => ha.clearCore _).modify fun a ha he => ?_, by simp⟩
        refine Or.inl (hkeep a ?_ he)
        simp only [List.getElem?_map, List.getElem?_modify, hi, Option.map_eq_map, if_true,
          Option.map_some, Option.some.injEq] at ha
        rw [← ha, clearCore]
        split_ifs <;> exact ht
      · exact ⟨h.time, harr, by simp⟩
      · exact ⟨h.time, harr, by simp⟩
    · rw [if_neg ht]
      exact ⟨h.time, h.jobs, by simp⟩

theorem run (h : NeverDone s) : NeverDone (runStep opts s) := by
  have htime := h.time
  unfold runStep
  cases hrun : runJobs s.jobs s.quantumClock (List.replicate opts.cores "") 0 with
  | error why =>
    refine ⟨h.time, h.jobs, fun hdone => ?_⟩
    obtain rfl : why = .done := by simpa using hdone
    exact runJobs_ne_done hrun
  | ok u =>
    have hjobs : SomeEndless u.jobs := runJobs_jobs hrun ▸ h.jobs.map fun j hj => hj.runJob
    simp only
    split_ifs
    · exact ⟨h.time, hjobs, nofun⟩
    · exact ⟨by simp only; omega, hjobs, nofun⟩

/-- **Every iteration keeps it.** -/
theorem step_endless (h : NeverDone s) : NeverDone (step opts s) := by
  unfold step
  cases hpc : s.pc with
  | top =>
    simp only
    rw [if_pos h.length]
    exact ⟨h.time, h.jobs, nofun⟩
  | finish i => exact h.finish
  | quantum i => exact h.quantum
  | arrive i => exact h.arrive
  | run => exact h.run
  | stop why => exact h

end NeverDone

section Accepted
variable {opts : Options} {lines : List Line}

/-- **Every job runs for a unit and arrives**, if the run is safe and comes to its end. -/
theorem workload_of_safe (hcalls : CallsInRange opts lines) (hend : RunsToEnd opts lines) :
    Workload lines := by
  intro l hl
  by_contra hbad
  have hne := runTime_ne_zero hcalls hl
  obtain ⟨k, hk⟩ := List.mem_iff_getElem?.mp hl
  have hj := List.mem_of_getElem? (load_getElem hk)
  have hstart : NeverDone (start opts lines) := by
    refine ⟨le_refl _, ⟨_, hj, ?_⟩, nofun⟩
    by_cases hneg : l.runTime < 0
    · exact Or.inl hneg
    · exact Or.inr ⟨hne, by simp only; omega, rfl, rfl⟩
  exact not_eventually NeverDone (fun s hs => hs.step_endless) (fun s hs => hs.pc) hstart hend

/-- **An accepted file runs safely to the end exactly if** every job has a running time of 1 or more
and an arrival time of 0 or more. -/
theorem safeRun_iff (hcores : 0 < opts.cores) (text : List Char) :
    SafeRun opts text ↔ ∀ lines, loadFile text = some lines → Workload lines := by
  constructor
  · intro h lines hload
    obtain ⟨hcalls, hend⟩ := h lines hload
    exact workload_of_safe hcalls hend
  · intro h lines hload
    exact safe_of_workload hcores (h lines hload)

/-- Two jobs with a unit or more to run, on two cores. -/
theorem safeRun_two : SafeRun ⟨2, .fcfs, 0⟩ "h\n0,2,1\n1,1,1\n".toList := by
  refine (safeRun_iff (by decide) _).mpr fun lines hload => ?_
  obtain rfl : [⟨0, 2, 1⟩, ⟨1, 1, 1⟩] = lines := Option.some.inj hload
  simp [Workload]

/-- A job without running time is finished on core -1. -/
theorem safeRun_zero : ¬ SafeRun ⟨1, .fcfs, 0⟩ "h\n0,0,1\n".toList := by
  intro h
  have hcore := ((h [⟨0, 0, 1⟩] rfl).1 1 0 ⟨0, 0, 0, 1, -1, false⟩ rfl rfl rfl).1
  simp at hcore

end Accepted

end Eecs678.Simulator.Loader
