import Eecs678.Simulator.Lockstep
import Eecs678.Lib.Machine
import Mathlib.Algebra.Order.BigOperators.Group.List
import Mathlib.Algebra.Order.Ring.Nat

/-!
# Runs of the simulator

The main loop ends: a step takes from the work left (`work`), the phases of the time unit left
(`phase`) or the indices left in the loop (`ahead`). `lockstep` and `remaining_exact` are what holds
in every state of a run.
-/

namespace Eecs678.Simulator.Runs

open Eecs678.Lib.Machine Eecs678.Scheduler.Model Eecs678.Scheduler.Places
open Eecs678.Scheduler.Table Eecs678.Simulator.Model Eecs678.Simulator.Jobs
open Eecs678.Simulator.Lockstep

/-! ### What is left to do -/

/-- The time units a job still runs, and those before it arrives. -/
def jobWork (time : ℤ) (j : SimulatorJob) : ℕ :=
  j.runTime.toNat + if j.arrived then 0 else (j.arrivalTime + 1 - time).toNat

/-- The work left in all jobs. -/
def work (s : Sim) : ℕ := (s.jobs.map (jobWork s.time)).sum

/-- The phases left before the next time unit. -/
def phase (s : Sim) : ℕ :=
  match s.pc with
  | .top => if s.jobs.length = 0 then 1 else 6
  | .finish _ => 5
  | .quantum _ => 4
  | .arrive _ => 3
  | .run => 2
  | .stop _ => 0

/-- The indices left in the loop of the phase. -/
def ahead (opts : Options) (s : Sim) : ℕ :=
  match s.pc with
  | .finish i => s.jobs.length - i
  | .quantum i => opts.cores - i
  | .arrive i => s.jobs.length - i
  | _ => 0

/-- What falls with every step. -/
def left (opts : Options) (s : Sim) : ℕ ×ₗ ℕ ×ₗ ℕ := toLex (work s, toLex (phase s, ahead opts s))

section Steps
variable {opts : Options} {s : Sim}

theorem setActiveJob_work {n c time : ℤ} : ∀ {jobs jobs' : List SimulatorJob},
    setActiveJob n c jobs = some jobs' → jobs'.map (jobWork time) = jobs.map (jobWork time)
  | [], jobs', h => by simp [setActiveJob] at h
  | j :: jobs, jobs', h => by
    unfold setActiveJob at h
    split_ifs at h
    · rw [Option.some.injEq] at h
      rw [← h]
      rfl
    · obtain ⟨l, hl, rfl⟩ := Option.map_eq_some_iff.mp h
      rw [List.map_cons, List.map_cons, setActiveJob_work hl]

theorem setNewJob_work {n c t : ℤ} {jobs jobs' : List SimulatorJob}
    (h : setNewJob n c jobs = some jobs') : jobs'.map (jobWork t) = jobs.map (jobWork t) := by
  unfold setNewJob at h
  split_ifs at h
  · rw [Option.some.inj h]
  · exact setActiveJob_work h

theorem setNewJob_length {n c : ℤ} {jobs jobs' : List SimulatorJob}
    (h : setNewJob n c jobs = some jobs') : jobs'.length = jobs.length := by
  simpa using congrArg List.length (setNewJob_work (t := 0) h)

theorem finish_left {i : ℕ} (hpc : s.pc = .finish i) : left opts (finishStep opts i s) < left opts s := by
  unfold finishStep
  cases hi : s.jobs[i]? with
  | none =>
    simp only
    split_ifs <;> exact lex_lt (le_refl _) (Or.inr (Or.inl (by simp [phase, hpc])))
  | some j =>
    have hlt := (List.getElem?_eq_some_iff.mp hi).1
    have hdel := (deleteJob_spec hi).1
    have hwork : (((deleteJob i s.jobs).map (jobWork s.time)).sum) ≤ work s := by
      have := (hdel.map (jobWork s.time)).sum_eq
      rw [List.map_cons, List.sum_cons] at this
      rw [work]
      omega
    have hlen := hdel.length_eq
    rw [List.length_cons] at hlen
    simp only
    split_ifs
    · cases schedulerJobFinished j.coreId j.jobId s.time s.sched with
      | none => exact lex_lt (le_refl _) (Or.inr (Or.inl (by simp [phase, hpc])))
      | some res =>
        simp only
        cases hset : setNewJob res.1 j.coreId (deleteJob i s.jobs) with
        | none => exact lex_lt hwork (Or.inr (Or.inl (by simp [phase, hpc])))
        | some jobs =>
          have hsum : (jobs.map (jobWork s.time)).sum ≤ work s := (setNewJob_work hset) ▸ hwork
          have hlen' := setNewJob_length hset
          refine lex_lt hsum (Or.inr (Or.inr ⟨by simp [phase, hpc], ?_⟩))
          simp only [ahead, hpc]
          omega
    · refine lex_lt (le_refl _) (Or.inr (Or.inr ⟨by simp [phase, hpc], ?_⟩))
      simp only [ahead, hpc]
      omega

theorem quantum_left {i : ℕ} (hpc : s.pc = .quantum i) :
    left opts (quantumStep opts i s) < left opts s := by
  unfold quantumStep
  split_ifs with hi h0
  · have hmod : ∀ k, ((s.jobs.modify k fun j => { j with coreId := -1 }).map (jobWork s.time)) =
        s.jobs.map (jobWork s.time) := fun k => by
      refine List.ext_getElem? fun k' => ?_
      simp only [List.getElem?_map, List.getElem?_modify]
      cases s.jobs[k']? with
      | none => rfl
      | some j => by_cases h : k = k' <;> simp [h, jobWork]
    cases s.jobs.findIdx? (fun j => j.coreId = (i : ℤ)) with
    | none =>
      refine lex_lt (le_refl _) (Or.inr (Or.inr ⟨by simp [phase, hpc], ?_⟩))
      simp only [ahead, hpc]
      omega
    | some k =>
      simp only
      cases schedulerQuantumExpired i s.time s.sched with
      | none => exact lex_lt (le_refl _) (Or.inr (Or.inl (by simp [phase, hpc])))
      | some res =>
        simp only
        cases hset : setNewJob res.1 i (s.jobs.modify k fun j => { j with coreId := -1 }) with
        | none =>
          refine lex_lt ?_ (Or.inr (Or.inl (by simp [phase, hpc])))
          simp only [work, hmod, le_refl]
        | some jobs =>
          refine lex_lt ?_ (Or.inr (Or.inr ⟨by simp [phase, hpc], ?_⟩))
          · simp only [work, setNewJob_work hset, hmod, le_refl]
          · simp only [ahead, hpc]
            omega
  · refine lex_lt (le_refl _) (Or.inr (Or.inr ⟨by simp [phase, hpc], ?_⟩))
    simp only [ahead, hpc]
    omega
  · exact lex_lt (le_refl _) (Or.inr (Or.inl (by simp [phase, hpc])))

theorem modify_work_le {time : ℤ} {f : SimulatorJob → SimulatorJob}
    (hf : ∀ j, jobWork time (f j) ≤ jobWork time j) (i : ℕ) (jobs : List SimulatorJob) :
    ((jobs.modify i f).map (jobWork time)).sum ≤ (jobs.map (jobWork time)).sum := by
  cases hi : jobs[i]? with
  | none => rw [List.modify_eq_self (List.getElem?_eq_none_iff.mp hi)]
  | some j =>
    obtain ⟨l₁, l₂, rfl, rfl⟩ := split_at hi
    rw [modify_append]
    simp only [List.map_append, List.map_cons, List.sum_append, List.sum_cons]
    have := hf j
    omega

theorem arrive_left {i : ℕ} (hpc : s.pc = .arrive i) :
    left opts (arriveStep opts i s) < left opts s := by
  have harr : ∀ j : SimulatorJob, jobWork s.time { j with arrived := true } ≤ jobWork s.time j :=
    fun j => by simp [jobWork]
  have hcore : ∀ (c : ℤ) (j : SimulatorJob), jobWork s.time { j with coreId := c } ≤ jobWork s.time j :=
    fun c j => le_refl _
  have hclear : ∀ (c : ℤ) (jobs : List SimulatorJob),
      (jobs.map (clearCore c)).map (jobWork s.time) = jobs.map (jobWork s.time) := fun c jobs => by
    rw [List.map_map]
    refine List.map_congr_left fun j _ => ?_
    simp only [Function.comp_apply, clearCore]
    split_ifs <;> rfl
  have hwork := modify_work_le harr i s.jobs
  unfold arriveStep
  cases hi : s.jobs[i]? with
  | none => exact lex_lt (le_refl _) (Or.inr (Or.inl (by simp [phase, hpc])))
  | some j =>
    have hlt := (List.getElem?_eq_some_iff.mp hi).1
    simp only
    split_ifs
    · refine lex_lt ?_ (Or.inr (Or.inr ⟨by simp [phase, hpc], ?_⟩))
      · refine le_trans (modify_work_le (hcore _) i _) ?_
        rw [hclear]
        exact hwork
      · simp only [ahead, hpc, List.length_modify, List.length_map]
        omega
    · refine lex_lt hwork (Or.inr (Or.inr ⟨by simp [phase, hpc], ?_⟩))
      simp only [ahead, hpc, List.length_modify]
      omega
    · exact lex_lt hwork (Or.inr (Or.inl (by simp [phase, hpc])))
    · refine lex_lt (le_refl _) (Or.inr (Or.inr ⟨by simp [phase, hpc], ?_⟩))
      simp only [ahead, hpc]
      omega

theorem runJob_work_le (time : ℤ) (j : SimulatorJob) :
    jobWork (time + 1) (runJob j) ≤ jobWork time j := by
  by_cases hc : j.coreId = -1
  · rw [runJob, if_pos hc, jobWork, jobWork]
    split_ifs <;> omega
  · rw [runJob, if_neg hc, jobWork, jobWork]
    simp only
    split_ifs <;> omega

/-- **A time unit takes work away** as long as there are jobs. -/
theorem run_work {total : ℕ} (h : Inv opts total s) (hcores : 0 < opts.cores) (hpc : s.pc = .run)
    (hne : s.jobs ≠ []) :
    ((s.jobs.map runJob).map (jobWork (s.time + 1))).sum < work s := by
  rw [List.map_map]
  refine List.sum_lt_sum _ _ (fun j _ => runJob_work_le s.time j) ?_
  · by_cases hrun : ∃ p, p ∈ places s.sched
    · obtain ⟨p, hp⟩ := hrun
      obtain ⟨j, hj, hc⟩ := h.exists_running hcores hp
      obtain ⟨k, -, hg⟩ := h.good_mem hj
      rw [hpc] at hg
      have h0 : j.runTime ≠ 0 := fun h0 => (hg.ended h0).2
      have hleft := hg.left
      refine ⟨j, hj, ?_⟩
      simp only [Function.comp_apply, runJob, jobWork, if_neg hc, h.idle hj hc, if_true]
      omega
    · -- no job has arrived, so each of them comes nearer
      obtain ⟨j, hj⟩ := List.exists_mem_of_ne_nil _ hne
      obtain ⟨k, -, hg⟩ := h.good_mem hj
      rw [hpc] at hg
      have hna : j.arrived = false := by
        by_contra ha
        obtain ⟨p, hp, -⟩ := h.exists_place hj (by simpa using ha)
        exact hrun ⟨p, hp⟩
      have hdue := hg.due
      rw [hna, cutoff] at hdue
      have hlate : ¬ j.arrivalTime < s.time + 1 := by simpa using hdue
      refine ⟨j, hj, ?_⟩
      simp only [Function.comp_apply, runJob, jobWork, if_pos (hg.idle hna), hna]
      simp only [Bool.false_eq_true, if_false]
      omega

theorem run_left {total : ℕ} (h : Inv opts total s) (hcores : 0 < opts.cores) (hpc : s.pc = .run) :
    left opts (runStep opts s) < left opts s := by
  have hinv := run_inv h hcores hpc
  obtain ⟨clock, strings, hrun, -⟩ := run_ok h
  unfold runStep at hinv ⊢
  rw [hrun] at hinv ⊢
  simp only at hinv ⊢
  split_ifs at hinv ⊢ with hidle
  · exact absurd (hinv.out .allIdle rfl).1 (by simp)
  · by_cases hne : s.jobs = []
    · refine lex_lt (by simp [work, hne]) (Or.inr (Or.inl ?_))
      simp [phase, hpc, hne]
    · have hlt := run_work h hcores hpc hne
      exact lex_lt hlt.le (Or.inl hlt)

/-- **Every step leaves less to do.** -/
theorem step_left {total : ℕ} (h : Inv opts total s) (hcores : 0 < opts.cores)
    (hstop : ¬ ∃ why, s.pc = .stop why) : left opts (step opts s) < left opts s := by
  unfold step
  cases hpc : s.pc with
  | top =>
    simp only
    split_ifs with hlen
    · refine lex_lt (le_refl _) (Or.inr (Or.inl ?_))
      simp only [phase, hpc, if_neg (Nat.pos_iff_ne_zero.mp hlen)]
      omega
    · refine lex_lt (le_refl _) (Or.inr (Or.inl ?_))
      simp only [phase, hpc, if_pos (Nat.eq_zero_of_not_pos hlen)]
      omega
  | finish i => exact finish_left hpc
  | quantum i => exact quantum_left hpc
  | arrive i => exact arrive_left hpc
  | run => exact run_left h hcores hpc
  | stop why => exact absurd ⟨why, hpc⟩ hstop

/-- **The main loop ends.** -/
theorem halts {lines : List Line} (hcores : 0 < opts.cores) (h : Workload lines) :
    ∃ n, (stateAt opts lines n).pc = .stop .done := by
  obtain ⟨n, why, hn⟩ := exists_halt (left opts) (Inv opts lines.length)
    (fun s => ∃ why, s.pc = .stop why) (fun s hs => step_inv hs hcores)
    (fun s hs hstop => step_left hs hcores hstop) (start_inv opts h)
  have hdone := (stateAt_inv hcores h n).out why hn
  exact ⟨n, hdone.1 ▸ hn⟩

end Steps

/-! ### Every state of a run -/

section Statements
variable {opts : Options} {lines : List Line}

/-- The scheduler has job number `n` on core `c`. -/
def RunsOn (s : Sched) (c : ℕ) (n : ℤ) : Prop :=
  ∃ p, s.coreJobPtrs[c]? = some (some p) ∧ (s.heap p).jobNumber = n

theorem runsOn_iff {total : ℕ} {s : Sim} (h : Inv opts total s) {j : SimulatorJob}
    (hj : j ∈ s.jobs) (c : ℕ) : j.coreId = c ↔ RunsOn s.sched c j.jobId := by
  refine ⟨fun hc => ?_, fun ⟨p, hp, hn⟩ => ?_⟩
  · obtain ⟨p, hp, -, he⟩ := h.jobOn_core hj (by omega)
    have hid : (s.sched.heap p).coreId = c := (congrArg Entry.coreId he).trans hc
    exact ⟨p, (coreId_iff h.lock.wf.toHeld hp c).mp hid, congrArg Entry.jobNumber he⟩
  · -- the job of the simulator with that number is `j`
    obtain ⟨j', hj', -, he⟩ := h.exists_job (mem_places_slot hp)
    have hid : j'.jobId = j.jobId := (congrArg Entry.jobNumber he).trans hn
    have hjj : j' = j := List.inj_on_of_nodup_map h.lock.ids hj' hj hid
    have hc : j'.coreId = (s.sched.heap p).coreId := congrArg Entry.coreId he
    rw [← hjj, hc, h.lock.wf.core_id c p hp]

/-- In state `s` the next step calls `scheduler_job_finished` or `scheduler_quantum_expired` for job
`n` on core `core`. -/
def Calls (opts : Options) (s : Sim) (core n : ℤ) : Prop :=
  (∃ i j, s.pc = .finish i ∧ s.jobs[i]? = some j ∧ j.runTime = 0 ∧ core = j.coreId ∧ n = j.jobId) ∨
    ∃ (i k : ℕ) (j : SimulatorJob), s.pc = .quantum i ∧ i < opts.cores ∧
      s.quantumClock[i]? = some 0 ∧ s.jobs.findIdx? (fun j => j.coreId = (i : ℤ)) = some k ∧
        s.jobs[k]? = some j ∧ core = i ∧ n = j.jobId

theorem calls_runsOn {total : ℕ} {s : Sim} (h : Inv opts total s) {core n : ℤ}
    (hcall : Calls opts s core n) :
    ∃ j ∈ s.jobs, j.jobId = n ∧ j.coreId = core ∧ 0 ≤ core ∧ RunsOn s.sched core.toNat n := by
  suffices hj : ∃ j ∈ s.jobs, j.jobId = n ∧ j.coreId = core ∧ core ≠ -1 by
    obtain ⟨j, hj, rfl, rfl, hc⟩ := hj
    have hr := (h.range hj).resolve_left hc
    exact ⟨j, hj, rfl, rfl, hr.1, (runsOn_iff h hj _).mp (by omega)⟩
  rcases hcall with ⟨i, j, -, hi, h0, rfl, rfl⟩ | ⟨i, k, j, -, -, -, hk, hkj, rfl, rfl⟩
  · exact ⟨j, List.mem_of_getElem? hi, rfl, rfl, ((h.good i j hi).ended h0).1⟩
  · obtain ⟨hlt, hcore, -⟩ := List.findIdx?_eq_some_iff_getElem.mp hk
    rw [List.getElem?_eq_getElem hlt, Option.some.injEq] at hkj
    subst hkj
    exact ⟨_, List.getElem_mem hlt, rfl, by simpa using hcore, by omega⟩

/-- **Simulator and scheduler stay in lockstep and the simulation ends.** The main loop ends with
every job finished; in each of its states the simulator has a job on a core if and only if the
scheduler has it there, the next call is for the job on that core, and `main` has not left by an
exit or an assertion. -/
theorem lockstep (hcores : 0 < opts.cores) (h : Workload lines) :
    (∃ n, (stateAt opts lines n).pc = .stop .done ∧ (stateAt opts lines n).jobs = [] ∧
      (stateAt opts lines n).sched.totalJobsFinished = lines.length) ∧
    ∀ n,
      (∀ j ∈ (stateAt opts lines n).jobs, (j.coreId = -1 ∨ 0 ≤ j.coreId) ∧
        ∀ c : ℕ, j.coreId = c ↔ RunsOn (stateAt opts lines n).sched c j.jobId) ∧
      (stateAt opts lines n).jobs.Pairwise Apart ∧
      (∀ core m, Calls opts (stateAt opts lines n) core m →
        0 ≤ core ∧ RunsOn (stateAt opts lines n).sched core.toNat m) ∧
      ∀ why, (stateAt opts lines n).pc = .stop why → why = .done := by
  refine ⟨?_, fun n => ?_⟩
  · obtain ⟨n, hn⟩ := halts hcores h
    have hinv := stateAt_inv hcores h n
    have hnil := (hinv.out _ hn).2
    have hcount := hinv.lock.count
    rw [hnil] at hcount
    exact ⟨n, hn, hnil, hcount⟩
  · have hinv := stateAt_inv hcores h n
    refine ⟨fun j hj => ⟨(hinv.range hj).imp_right fun hr => hr.1, runsOn_iff hinv hj⟩, hinv.apart,
      fun core m hcall => ?_, fun why hw => (hinv.out why hw).1⟩
    obtain ⟨j, -, -, -, h0, hon⟩ := calls_runsOn hinv hcall
    exact ⟨h0, hon⟩

/-- Two jobs on one core. -/
theorem lockstep_two : ∃ n, (stateAt ⟨1, .rr, 2⟩ [⟨0, 5, 1⟩, ⟨1, 3, 1⟩] n).pc = .stop .done ∧
    (stateAt ⟨1, .rr, 2⟩ [⟨0, 5, 1⟩, ⟨1, 3, 1⟩] n).jobs = [] ∧
    (stateAt ⟨1, .rr, 2⟩ [⟨0, 5, 1⟩, ⟨1, 3, 1⟩] n).sched.totalJobsFinished = 2 :=
  (lockstep (by decide) (by simp [Workload])).1

theorem finishStep_sched (opts : Options) (i : ℕ) (s : Sim) :
    (finishStep opts i s).sched = s.sched ∨
    ∃ core n r s', schedulerJobFinished core n s.time s.sched = some (r, s') ∧
      (finishStep opts i s).sched = s' := by
  unfold finishStep
  cases s.jobs[i]? with
  | none => exact Or.inl (by simp only; split_ifs <;> rfl)
  | some j =>
    simp only
    split_ifs
    · cases hcall : schedulerJobFinished j.coreId j.jobId s.time s.sched with
      | none => exact Or.inl rfl
      | some res =>
        refine Or.inr ⟨_, _, res.1, res.2, hcall, ?_⟩
        simp only
        cases setNewJob res.1 j.coreId (deleteJob i s.jobs) <;> rfl
    · exact Or.inl rfl

theorem quantumStep_sched (opts : Options) (i : ℕ) (s : Sim) :
    (quantumStep opts i s).sched = s.sched ∨
    ∃ core r s', schedulerQuantumExpired core s.time s.sched = some (r, s') ∧
      (quantumStep opts i s).sched = s' := by
  unfold quantumStep
  split_ifs
  · cases s.jobs.findIdx? (fun j => j.coreId = (i : ℤ)) with
    | none => exact Or.inl rfl
    | some k =>
      simp only
      cases hcall : schedulerQuantumExpired i s.time s.sched with
      | none => exact Or.inl rfl
      | some res =>
        refine Or.inr ⟨_, res.1, res.2, hcall, ?_⟩
        simp only
        cases setNewJob res.1 i (s.jobs.modify k fun j => { j with coreId := -1 }) <;> rfl
  · exact Or.inl rfl
  · exact Or.inl rfl

theorem arriveStep_sched (opts : Options) (i : ℕ) (s : Sim) :
    (arriveStep opts i s).sched = s.sched ∨
    ∃ n r pr, (arriveStep opts i s).sched = (schedulerNewJob n s.time r pr s.sched).2 := by
  unfold arriveStep
  cases s.jobs[i]? with
  | none => exact Or.inl rfl
  | some j =>
    simp only
    split_ifs
    · exact Or.inr ⟨j.jobId, j.runTime, j.priority, rfl⟩
    · exact Or.inr ⟨j.jobId, j.runTime, j.priority, rfl⟩
    · exact Or.inr ⟨j.jobId, j.runTime, j.priority, rfl⟩
    · exact Or.inl rfl

theorem runStep_sched (opts : Options) (s : Sim) : (runStep opts s).sched = s.sched := by
  unfold runStep
  cases runJobs s.jobs s.quantumClock (List.replicate opts.cores "") 0 with
  | error why => rfl
  | ok u => simp only; split_ifs <;> rfl

/-- What a step does to the scheduler. -/
theorem step_sched (opts : Options) (s : Sim) :
    (step opts s).sched = s.sched ∨
    (∃ core n r s', schedulerJobFinished core n s.time s.sched = some (r, s') ∧
      (step opts s).sched = s') ∨
    (∃ core r s', schedulerQuantumExpired core s.time s.sched = some (r, s') ∧
      (step opts s).sched = s') ∨
    ∃ n r pr, (step opts s).sched = (schedulerNewJob n s.time r pr s.sched).2 := by
  unfold step
  cases s.pc with
  | top => exact Or.inl (by simp only; split_ifs <;> rfl)
  | finish i => exact (finishStep_sched opts i s).imp_right Or.inl
  | quantum i => exact (quantumStep_sched opts i s).imp_right fun h => Or.inr (Or.inl h)
  | arrive i => exact (arriveStep_sched opts i s).imp_right fun h => Or.inr (Or.inr h)
  | run => exact Or.inl (runStep_sched opts s)
  | stop why => exact Or.inl rfl

/-- **A job that waits keeps its record.** -/
theorem step_queued {total : ℕ} {s : Sim} (hcores : 0 < opts.cores) (h : Inv opts total s) {q : ℕ}
    (hq : q ∈ s.sched.jobQueue) (hq' : q ∈ (step opts s).sched.jobQueue) :
    (step opts s).sched.heap q = s.sched.heap q := by
  have hw : Wf (step opts s).sched := (step_inv h hcores).lock.wf
  rcases step_sched opts s with he | ⟨core, n, r, s', hcall, he⟩ | ⟨core, r, s', hcall, he⟩ |
    ⟨n, r, pr, he⟩
  · rw [he]
  · obtain ⟨p, hp⟩ := finished_jobOn hcall
    rw [he] at hw hq' ⊢
    exact finished_queued h.lock.wf hp hcall hw hq hq'
  · obtain ⟨p, hp⟩ := expired_jobOn hcall
    rw [he] at hw hq' ⊢
    exact expired_queued h.lock.wf hp hcall hw hq hq'
  · rw [he]
    exact newJob_queued h.lock.wf _ _ _ _ hq

/-- The record of a finished job has nothing left. -/
theorem finish_remaining {total : ℕ} {s : Sim} (h : Inv opts total s) {i : ℕ} {j : SimulatorJob}
    (hpc : s.pc = .finish i) (hi : s.jobs[i]? = some j) (h0 : j.runTime = 0) :
    ∃ p, jobOn j.coreId s.sched = some p ∧ (s.sched.heap p).jobNumber = j.jobId ∧
      ((step opts s).sched.heap p).remainingTime = 0 := by
  obtain ⟨p, -, hp, he⟩ := h.jobOn_core (List.mem_of_getElem? hi) ((h.good i j hi).ended h0).1
  obtain ⟨r, s', hcall, -⟩ := finished_spec h.lock.wf hp j.jobId s.time
  have hrem : trueRemaining s.time s.sched p = 0 := (congrArg Entry.remaining he).trans h0
  refine ⟨p, hp, congrArg Entry.jobNumber he, ?_⟩
  have hstep : (step opts s).sched = s' := by
    simp only [step, hpc, finishStep, hi, if_pos h0, hcall]
    cases setNewJob r j.coreId (deleteJob i s.jobs) <;> rfl
  rw [hstep, finished_remaining h.lock.wf hp hcall, hrem]

/-- **Remaining time is exact.** In every state of the main loop, so at every callback, each arrived
and unfinished job has in the scheduler the remaining time that the simulator has; the callback for
a finished job leaves 0 in its record; the record of a job does not change while it is queued. -/
theorem remaining_exact (hcores : 0 < opts.cores) (h : Workload lines) (n : ℕ) :
    (∀ j ∈ (stateAt opts lines n).jobs, j.arrived = true →
      ∃ p ∈ places (stateAt opts lines n).sched,
        ((stateAt opts lines n).sched.heap p).jobNumber = j.jobId ∧
        trueRemaining (stateAt opts lines n).time (stateAt opts lines n).sched p = j.runTime) ∧
    (∀ p ∈ places (stateAt opts lines n).sched, ∃ j ∈ (stateAt opts lines n).jobs,
      j.arrived = true ∧ j.jobId = ((stateAt opts lines n).sched.heap p).jobNumber ∧
        j.runTime = trueRemaining (stateAt opts lines n).time (stateAt opts lines n).sched p) ∧
    (∀ i j, (stateAt opts lines n).pc = .finish i → (stateAt opts lines n).jobs[i]? = some j →
      j.runTime = 0 → ∃ p, jobOn j.coreId (stateAt opts lines n).sched = some p ∧
        ((stateAt opts lines n).sched.heap p).jobNumber = j.jobId ∧
        ((stateAt opts lines (n + 1)).sched.heap p).remainingTime = 0) ∧
    ∀ q ∈ (stateAt opts lines n).sched.jobQueue,
      q ∈ (stateAt opts lines (n + 1)).sched.jobQueue →
        (stateAt opts lines (n + 1)).sched.heap q = (stateAt opts lines n).sched.heap q := by
  have hinv := stateAt_inv hcores h n
  have hsucc : stateAt opts lines (n + 1) = step opts (stateAt opts lines n) := by
    rw [stateAt, Function.iterate_succ_apply', ← stateAt]
  refine ⟨fun j hj ha => ?_, fun p hp => ?_, fun i j hpc hi h0 => ?_, fun q hq hq' => ?_⟩
  · obtain ⟨p, hp, he⟩ := hinv.exists_place hj ha
    exact ⟨p, hp, congrArg Entry.jobNumber he, congrArg Entry.remaining he⟩
  · obtain ⟨j, hj, ha, he⟩ := hinv.exists_job hp
    exact ⟨j, hj, ha, congrArg Entry.jobNumber he, congrArg Entry.remaining he⟩
  · rw [hsucc]
    exact finish_remaining hinv hpc hi h0
  · rw [hsucc] at hq' ⊢
    exact step_queued hcores hinv hq hq'

/-- At time 1 the shorter job preempts the longer one, whose record says 2 and stays as it is in the queue;
at time 2 the shorter one finishes with nothing left. -/
theorem remaining_exact_two :
    (∃ p ∈ places (stateAt ⟨1, .psjf, 1⟩ [⟨0, 3, 1⟩, ⟨1, 1, 1⟩] 15).sched,
      ((stateAt ⟨1, .psjf, 1⟩ [⟨0, 3, 1⟩, ⟨1, 1, 1⟩] 15).sched.heap p).jobNumber = 0 ∧
      trueRemaining 1 (stateAt ⟨1, .psjf, 1⟩ [⟨0, 3, 1⟩, ⟨1, 1, 1⟩] 15).sched p = 2) ∧
    (stateAt ⟨1, .psjf, 1⟩ [⟨0, 3, 1⟩, ⟨1, 1, 1⟩] 16).sched.heap 0 =
      (stateAt ⟨1, .psjf, 1⟩ [⟨0, 3, 1⟩, ⟨1, 1, 1⟩] 15).sched.heap 0 ∧
    ∃ p, jobOn 0 (stateAt ⟨1, .psjf, 1⟩ [⟨0, 3, 1⟩, ⟨1, 1, 1⟩] 18).sched = some p ∧
      ((stateAt ⟨1, .psjf, 1⟩ [⟨0, 3, 1⟩, ⟨1, 1, 1⟩] 18).sched.heap p).jobNumber = 1 ∧
      ((stateAt ⟨1, .psjf, 1⟩ [⟨0, 3, 1⟩, ⟨1, 1, 1⟩] 19).sched.heap p).remainingTime = 0 := by
  have hcores : 0 < (⟨1, .psjf, 1⟩ : Options).cores := by decide
  have h : Workload [⟨0, 3, 1⟩, ⟨1, 1, 1⟩] := by simp [Workload]
  refine ⟨?_, ?_, ?_⟩
  · exact (remaining_exact hcores h 15).1 ⟨0, 0, 2, 1, -1, true⟩ (List.mem_of_getElem? (i := 0) rfl) rfl
  · exact (remaining_exact hcores h 15).2.2.2 0 (by decide) (by decide)
  · exact (remaining_exact hcores h 18).2.2.1 1 ⟨1, 1, 0, 1, 0, true⟩ rfl rfl rfl

end Statements

end Eecs678.Simulator.Runs
