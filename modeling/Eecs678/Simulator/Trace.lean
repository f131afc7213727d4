import Eecs678.Simulator.Runs

/-!
# The trace of a simulation

What a simulation does for its jobs, in order: the time units in which it executes them and the calls of
`scheduler_job_finished` (`Event`, `trace`). `step_move` says once what an iteration of the main loop can
do to the job array, the scheduler and the clock; the invariants of whole runs go by cases on it.
-/

namespace Eecs678.Simulator.Trace

open Eecs678.Scheduler.Model Eecs678.Scheduler.Places Eecs678.Scheduler.Runs
open Eecs678.Scheduler.Table Eecs678.Simulator.Model Eecs678.Simulator.Jobs
open Eecs678.Simulator.Lockstep Eecs678.Simulator.Runs

/-- Job `job` runs on core `core` in the unit that begins at `time`, or it finished at `time`. -/
inductive Event
  | ran (job core time : ℤ)
  | finished (job time : ℤ)
deriving DecidableEq, Repr

/-- What an iteration does for the jobs. -/
def events (s : Sim) : List Event :=
  match s.pc with
  | .finish i =>
    match s.jobs[i]? with
    | some j => if j.runTime = 0 then [.finished j.jobId s.time] else []
    | none => []
  | .run => (s.jobs.filter fun j => j.coreId ≠ -1).map fun j => .ran j.jobId j.coreId s.time
  | _ => []

/-- What the first `n` iterations do for the jobs. -/
def trace (opts : Options) (lines : List Line) (n : ℕ) : List Event :=
  (List.range n).flatMap fun m => events (stateAt opts lines m)

/-- The jobs that finished, with the time. -/
def finishes (tr : List Event) : List (ℤ × ℤ) :=
  tr.filterMap fun
    | .finished job time => some (job, time)
    | .ran _ _ _ => none

theorem stateAt_succ (opts : Options) (lines : List Line) (n : ℕ) :
    stateAt opts lines (n + 1) = step opts (stateAt opts lines n) := by
  rw [stateAt, Function.iterate_succ_apply', ← stateAt]

theorem trace_succ (opts : Options) (lines : List Line) (n : ℕ) :
    trace opts lines (n + 1) = trace opts lines n ++ events (stateAt opts lines n) := by
  rw [trace, List.range_succ, List.flatMap_append, List.flatMap_singleton, ← trace]

theorem mem_finishes {tr : List Event} {job time : ℤ} :
    (job, time) ∈ finishes tr ↔ .finished job time ∈ tr := by
  refine List.mem_filterMap.trans ⟨fun ⟨e, he, h⟩ => ?_, fun h => ⟨_, h, rfl⟩⟩
  cases e with
  | ran => simp at h
  | finished job' time' =>
    simp only [Option.some.injEq, Prod.mk.injEq] at h
    rwa [h.1, h.2] at he

theorem finishes_append (tr tr' : List Event) :
    finishes (tr ++ tr') = finishes tr ++ finishes tr' := List.filterMap_append ..

/-! ### The moves -/

/-- What an iteration from `s` to `s'` can do. -/
inductive Move (opts : Options) (s s' : Sim) : Prop
  | quiet (hev : events s = []) (hjobs : s'.jobs = s.jobs) (hsched : s'.sched = s.sched)
      (htime : s'.time = s.time) (hpc : s.pc ≠ .run)
  | finish (i : ℕ) (j : SimulatorJob) (r : ℤ) (hpc : s.pc = .finish i) (hi : s.jobs[i]? = some j)
      (h0 : j.runTime = 0) (hcore : j.coreId ≠ -1)
      (hcall : schedulerJobFinished j.coreId j.jobId s.time s.sched = some (r, s'.sched))
      (hjobs : s'.jobs = (deleteJob i s.jobs).map (activateJob r j.coreId)) (htime : s'.time = s.time)
  | expire (i : ℕ) (r : ℤ) (hpc : s.pc = .quantum i)
      (hcall : schedulerQuantumExpired i s.time s.sched = some (r, s'.sched))
      (hjobs : s'.jobs = (s.jobs.map (clearCore i)).map (activateJob r i)) (htime : s'.time = s.time)
  | arrive (i : ℕ) (j : SimulatorJob) (c : ℤ) (hpc : s.pc = .arrive i) (hi : s.jobs[i]? = some j)
      (hnew : j.arrived = false) (hdue : j.arrivalTime = s.time)
      (hcall : schedulerNewJob j.jobId s.time j.runTime j.priority s.sched = (c, s'.sched))
      (hjobs : s'.jobs = (s.jobs.map (clearCore c)).modify i (settle c)) (htime : s'.time = s.time)
  | run (hpc : s.pc = .run) (hjobs : s'.jobs = s.jobs.map runJob) (hsched : s'.sched = s.sched)
      (htime : s'.time = s.time + 1)

theorem setActiveJob_found {n c : ℤ} : ∀ {jobs jobs' : List SimulatorJob},
    setActiveJob n c jobs = some jobs' → ∃ j ∈ jobs, j.jobId = n ∧ j.arrived = true
  | [], jobs', h => by simp [setActiveJob] at h
  | j :: jobs, jobs', h => by
    unfold setActiveJob at h
    split_ifs at h with hj
    · exact ⟨j, List.mem_cons_self .., hj⟩
    · obtain ⟨l, hl, -⟩ := Option.map_eq_some_iff.mp h
      obtain ⟨j', hj', h'⟩ := setActiveJob_found hl
      exact ⟨j', List.mem_cons_of_mem _ hj', h'⟩

/-- If the job is found, it is set to run. -/
theorem setNewJob_eq {r c : ℤ} {jobs jobs' : List SimulatorJob}
    (hnd : (jobs.map SimulatorJob.jobId).Nodup) (hid : ∀ j ∈ jobs, 0 ≤ j.jobId)
    (h : setNewJob r c jobs = some jobs') : jobs' = jobs.map (activateJob r c) := by
  unfold setNewJob at h
  split_ifs at h with hr
  · have hne : ∀ j ∈ jobs, j.jobId ≠ r := fun j hj => by
      have := hid j hj
      omega
    rw [map_activateJob_of_ne hne, ← Option.some.inj h]
  · rw [setActiveJob_eq hnd (setActiveJob_found h)] at h
    exact (Option.some.inj h).symm

section Moves
variable {opts : Options} {total : ℕ} {s : Sim}

theorem mem_deleteJob {i : ℕ} {jobs : List SimulatorJob} {j j' : SimulatorJob}
    (hi : jobs[i]? = some j) (h : j' ∈ deleteJob i jobs) : j' ∈ jobs :=
  (deleteJob_spec hi).1.mem_iff.mp (List.mem_cons_of_mem _ h)

theorem jobId_nonneg (h : Inv opts total s) {j : SimulatorJob} (hj : j ∈ s.jobs) : 0 ≤ j.jobId := by
  obtain ⟨_, -, hg⟩ := h.good_mem hj
  exact hg.id

theorem deleteJob_ids (h : Inv opts total s) {i : ℕ} {j : SimulatorJob} (hi : s.jobs[i]? = some j) :
    (j.jobId :: (deleteJob i s.jobs).map SimulatorJob.jobId).Nodup :=
  ((deleteJob_spec hi).1.map SimulatorJob.jobId).nodup_iff.mpr h.lock.ids

theorem finish_move (h : Inv opts total s) {i : ℕ} (hpc : s.pc = .finish i) :
    Move opts s (finishStep opts i s) := by
  have hout := (finish_inv h hpc).out
  unfold finishStep at hout ⊢
  cases hi : s.jobs[i]? with
  | none =>
    have hev : events s = [] := by simp [events, hpc, hi]
    simp only
    split_ifs <;> exact .quiet hev rfl rfl rfl (by simp [hpc])
  | some j =>
    rw [hi] at hout
    simp only at hout ⊢
    split_ifs at hout ⊢ with h0
    · have hcore := ((h.good i j hi).ended h0).1
      cases hcall : schedulerJobFinished j.coreId j.jobId s.time s.sched with
      | none =>
        rw [hcall] at hout
        simpa using (hout .fault rfl).1
      | some res =>
        obtain ⟨r, sched⟩ := res
        rw [hcall] at hout
        simp only at hout ⊢
        cases hset : setNewJob r j.coreId (deleteJob i s.jobs) with
        | none =>
          rw [hset] at hout
          simpa using (hout .invalidJob rfl).1
        | some jobs =>
          refine .finish i j r hpc hi h0 hcore hcall ?_ rfl
          exact setNewJob_eq (List.nodup_cons.mp (deleteJob_ids h hi)).2
            (fun j' hj' => jobId_nonneg h (mem_deleteJob hi hj')) hset
    · exact .quiet (by simp [events, hpc, hi, h0]) rfl rfl rfl (by simp [hpc])

theorem setNewJob_cleared (h : Inv opts total s) {r c c' : ℤ} {jobs : List SimulatorJob}
    (hset : setNewJob r c (s.jobs.map (clearCore c')) = some jobs) :
    jobs = (s.jobs.map (clearCore c')).map (activateJob r c) := by
  refine setNewJob_eq ?_ (fun j' hj' => ?_) hset
  · rw [List.map_map]
    simpa [Function.comp_def] using h.lock.ids
  · obtain ⟨a, ha, rfl⟩ := List.mem_map.mp hj'
    rw [clearCore_jobId]
    exact jobId_nonneg h ha

theorem quantum_move (h : Inv opts total s) {i : ℕ} (hpc : s.pc = .quantum i) :
    Move opts s (quantumStep opts i s) := by
  have hev : events s = [] := by simp [events, hpc]
  have hout := (quantum_inv h hpc).out
  unfold quantumStep at hout ⊢
  split_ifs at hout ⊢ with hi h0
  · cases hk : s.jobs.findIdx? (fun j => j.coreId = (i : ℤ)) with
    | none => exact .quiet hev rfl rfl rfl (by simp [hpc])
    | some k =>
      obtain ⟨hlt, hcore, -⟩ := List.findIdx?_eq_some_iff_getElem.mp hk
      have hkj : s.jobs[k]? = some s.jobs[k] := List.getElem?_eq_getElem hlt
      have hc : s.jobs[k].coreId = i := by simpa using hcore
      rw [hk] at hout
      simp only [modify_clearCore (c := i) h.apart (by omega) hkj hc] at hout ⊢
      cases hcall : schedulerQuantumExpired i s.time s.sched with
      | none =>
        rw [hcall] at hout
        simpa using (hout .fault rfl).1
      | some res =>
        obtain ⟨r, sched⟩ := res
        rw [hcall] at hout
        simp only at hout ⊢
        cases hset : setNewJob r i (s.jobs.map (clearCore i)) with
        | none =>
          rw [hset] at hout
          simpa using (hout .invalidJob rfl).1
        | some jobs =>
          exact .expire i r hpc hcall (setNewJob_cleared h hset) rfl
  · exact .quiet hev rfl rfl rfl (by simp [hpc])
  · exact .quiet hev rfl rfl rfl (by simp [hpc])

/-- A job whose time has come when the loop is at it has not arrived. -/
theorem not_arrived (h : Inv opts total s) {i : ℕ} {j : SimulatorJob} (hpc : s.pc = .arrive i)
    (hi : s.jobs[i]? = some j) (ht : j.arrivalTime = s.time) : j.arrived = false := by
  have hdue := (h.good i j hi).due
  rw [hpc, cutoff, if_neg (lt_irrefl i), ht] at hdue
  simpa using hdue

theorem arrive_move (h : Inv opts total s) {i : ℕ} (hpc : s.pc = .arrive i) :
    Move opts s (arriveStep opts i s) := by
  have hev : events s = [] := by simp [events, hpc]
  have hout := (arrive_inv h hpc).out
  unfold arriveStep at hout ⊢
  cases hi : s.jobs[i]? with
  | none => exact .quiet hev rfl rfl rfl (by simp [hpc])
  | some j =>
    rw [hi] at hout
    simp only at hout ⊢
    split_ifs at hout ⊢ with ht hc hneg
    · exact .arrive i j _ hpc hi (not_arrived h hpc hi ht) ht rfl (arrive_onCore _ i s.jobs) rfl
    · have hnew := not_arrived h hpc hi ht
      refine .arrive i j (-1) hpc hi hnew ht (Prod.ext hneg rfl) ?_ rfl
      exact arrive_waits hi ((h.good i j hi).idle hnew)
    · simpa using (hout .invalidCore rfl).1
    · exact .quiet hev rfl rfl rfl (by simp [hpc])

theorem run_move (h : Inv opts total s) (hcores : 0 < opts.cores) (hpc : s.pc = .run) :
    Move opts s (runStep opts s) := by
  have hout := (run_inv h hcores hpc).out
  obtain ⟨clock, strings, hrun, -⟩ := run_ok h
  unfold runStep at hout ⊢
  rw [hrun] at hout ⊢
  simp only at hout ⊢
  split_ifs at hout ⊢
  · simpa using (hout .allIdle rfl).1
  · exact .run hpc rfl rfl rfl

/-- **What an iteration does.** -/
theorem step_move (h : Inv opts total s) (hcores : 0 < opts.cores) : Move opts s (step opts s) := by
  unfold step
  cases hpc : s.pc with
  | top =>
    have hev : events s = [] := by simp [events, hpc]
    simp only
    split_ifs <;> exact .quiet hev rfl rfl rfl (by simp [hpc])
  | finish i => exact finish_move h hpc
  | quantum i => exact quantum_move h hpc
  | arrive i => exact arrive_move h hpc
  | run => exact run_move h hcores hpc
  | stop why => exact .quiet (by simp [events, hpc]) rfl rfl rfl (by simp [hpc])

end Moves

variable {opts : Options} {lines : List Line}

theorem stateAt_move (hcores : 0 < opts.cores) (h : Workload lines) (n : ℕ) :
    Move opts (stateAt opts lines n) (stateAt opts lines (n + 1)) := by
  rw [stateAt_succ]
  exact step_move (stateAt_inv hcores h n) hcores

/-- The loop over the cores is for `RR` only. -/
theorem quantum_rr (n : ℕ) {i : ℕ} : (stateAt opts lines n).pc = .quantum i → opts.scheme = .rr := by
  induction n generalizing i with
  | zero => intro hpc; simp [stateAt, start] at hpc
  | succ n ih =>
    rw [stateAt_succ]
    intro hpc
    by_contra hrr
    unfold step at hpc
    cases hp : (stateAt opts lines n).pc with
    | top => simp only [hp] at hpc; split_ifs at hpc
    | finish k =>
      simp only [hp, finishStep, if_neg hrr] at hpc
      split at hpc
      · split_ifs at hpc
      · split_ifs at hpc
        · split at hpc
          · simp at hpc
          · split at hpc <;> simp at hpc
    | quantum k => exact hrr (ih hp)
    | arrive k =>
      simp only [hp, arriveStep] at hpc
      split at hpc
      · simp at hpc
      · split_ifs at hpc
    | run =>
      simp only [hp, runStep] at hpc
      split at hpc
      · simp at hpc
      · split_ifs at hpc
    | stop why => simp [hp] at hpc

/-- **A move keeps the records** as each callback does. -/
theorem move_keeps {total : ℕ} {s s' : Sim} (h : Inv opts total s) (hm : Move opts s s') :
    Keeps s.time s.sched s'.sched := by
  cases hm with
  | quiet _ _ hsched => exact hsched ▸ Keeps.refl
  | finish i j r _ _ _ _ hcall =>
    obtain ⟨p, hp⟩ := finished_jobOn hcall
    exact (finished_call h.lock.wf hp hcall).2.2
  | expire i r _ hcall =>
    obtain ⟨p, hp⟩ := expired_jobOn hcall
    exact (expired_call h.lock.wf hp hcall).2.2
  | arrive i j c _ _ _ _ hcall =>
    have hk := newJob_keeps h.lock.wf j.jobId s.time j.runTime j.priority
    rwa [hcall] at hk
  | run _ _ hsched => exact hsched ▸ Keeps.refl

/-- **The run phase** executes the jobs, and the scheduler is not called. -/
theorem Move.of_run {s s' : Sim} (hm : Move opts s s') (hpc : s.pc = .run) :
    s'.jobs = s.jobs.map runJob ∧ s'.sched = s.sched ∧ s'.time = s.time + 1 := by
  cases hm with
  | quiet _ _ _ _ hpc' => exact absurd hpc hpc'
  | finish i j r hpc' => simp [hpc] at hpc'
  | expire i r hpc' => simp [hpc] at hpc'
  | arrive i j c hpc' => simp [hpc] at hpc'
  | run _ hjobs hsched htime => exact ⟨hjobs, hsched, htime⟩

theorem stateAt_scheme (hcores : 0 < opts.cores) (h : Workload lines) (n : ℕ) :
    (stateAt opts lines n).sched.currentScheme = opts.scheme := by
  induction n with
  | zero => rfl
  | succ n ih => exact (move_keeps (stateAt_inv hcores h n) (stateAt_move hcores h n)).scheme.trans ih

/-- Two jobs on one core are one job. -/
theorem same_core {total : ℕ} {s : Sim} (h : Inv opts total s) {j j' : SimulatorJob}
    (hj : j ∈ s.jobs) (hc : j.coreId ≠ -1) (hj' : j' ∈ s.jobs) (he : j'.coreId = j.coreId) :
    j.jobId = j'.jobId := by
  obtain ⟨p, -, hp, hentry⟩ := h.jobOn_core hj hc
  obtain ⟨p', -, hp', hentry'⟩ := h.jobOn_core hj' (he ▸ hc)
  rw [he, hp, Option.some.injEq] at hp'
  subst hp'
  exact congrArg Entry.jobNumber (hentry.symm.trans hentry')

/-- Job number `k` is on core `c`. -/
def OnCore (s : Sim) (c : ℕ) (k : ℤ) : Prop := ∃ j ∈ s.jobs, j.jobId = k ∧ j.coreId = c

/-- At most one job is on a core. -/
theorem OnCore.unique {total : ℕ} {s : Sim} (h : Inv opts total s) {c : ℕ} {k k' : ℤ}
    (hk : OnCore s c k) (hk' : OnCore s c k') : k = k' := by
  obtain ⟨j, hj, rfl, hc⟩ := hk
  obtain ⟨j', hj', rfl, hc'⟩ := hk'
  exact same_core h hj (by omega) hj' (hc'.trans hc.symm)

theorem OnCore.lt {total : ℕ} {s : Sim} (h : Inv opts total s) {c : ℕ} {k : ℤ}
    (hk : OnCore s c k) : c < opts.cores := by
  obtain ⟨j, hj, -, hc⟩ := hk
  have := h.range hj
  omega

/-- A job is on at most one core. -/
theorem OnCore.core {total : ℕ} {s : Sim} (h : Inv opts total s) {c c' : ℕ} {k : ℤ}
    (hk : OnCore s c k) (hk' : OnCore s c' k) : c = c' := by
  obtain ⟨j, hj, rfl, hc⟩ := hk
  obtain ⟨j', hj', hid, hc'⟩ := hk'
  rw [List.inj_on_of_nodup_map h.lock.ids hj' hj hid] at hc'
  omega

/-! ### Time -/

/-- Time goes on in the run phase only. -/
theorem time_same (hcores : 0 < opts.cores) (h : Workload lines) {n : ℕ}
    (hpc : (stateAt opts lines n).pc ≠ .run) :
    (stateAt opts lines (n + 1)).time = (stateAt opts lines n).time := by
  cases stateAt_move hcores h n with
  | quiet _ _ _ htime => exact htime
  | finish i j r _ _ _ _ _ _ htime => exact htime
  | expire i r _ _ _ htime => exact htime
  | arrive i j c _ _ _ _ _ _ htime => exact htime
  | run hpc' => exact absurd hpc' hpc

theorem time_run (hcores : 0 < opts.cores) (h : Workload lines) {n : ℕ}
    (hpc : (stateAt opts lines n).pc = .run) :
    (stateAt opts lines (n + 1)).time = (stateAt opts lines n).time + 1 :=
  ((stateAt_move hcores h n).of_run hpc).2.2

theorem time_le (hcores : 0 < opts.cores) (h : Workload lines) (n : ℕ) :
    (stateAt opts lines n).time ≤ (stateAt opts lines (n + 1)).time := by
  by_cases hpc : (stateAt opts lines n).pc = .run
  · rw [time_run hcores h hpc]
    omega
  · rw [time_same hcores h hpc]

theorem time_mono (hcores : 0 < opts.cores) (h : Workload lines) {m n : ℕ} (hmn : m ≤ n) :
    (stateAt opts lines m).time ≤ (stateAt opts lines n).time :=
  monotone_nat_of_le_succ (f := fun n => (stateAt opts lines n).time) (time_le hcores h) hmn

theorem time_nonneg (hcores : 0 < opts.cores) (h : Workload lines) (n : ℕ) :
    0 ≤ (stateAt opts lines n).time := time_mono hcores h (Nat.zero_le n)

/-! ### Where the jobs come from -/

/-- Job `j` comes from line `k`, which is `l`. -/
structure Origin (k : ℕ) (l : Line) (j : SimulatorJob) : Prop where
  jobId : j.jobId = k
  arrivalTime : j.arrivalTime = l.arrivalTime
  priority : j.priority = l.priority
  runTime : j.runTime ≤ l.runTime
  whole : j.arrived = false → j.runTime = l.runTime

/-- `j'` is job `j` later on. -/
structure Later (j j' : SimulatorJob) : Prop where
  jobId : j'.jobId = j.jobId
  arrivalTime : j'.arrivalTime = j.arrivalTime
  priority : j'.priority = j.priority
  runTime : j'.runTime ≤ j.runTime
  whole : j'.arrived = false → j.arrived = false ∧ j'.runTime = j.runTime

theorem Later.trans {j j' j'' : SimulatorJob} (h : Later j j') (h' : Later j' j'') : Later j j'' :=
  ⟨h'.jobId.trans h.jobId, h'.arrivalTime.trans h.arrivalTime, h'.priority.trans h.priority,
    h'.runTime.trans h.runTime, fun ha => ⟨(h.whole (h'.whole ha).1).1,
      (h'.whole ha).2.trans (h.whole (h'.whole ha).1).2⟩⟩

theorem Later.refl (j : SimulatorJob) : Later j j := ⟨rfl, rfl, rfl, le_refl _, fun ha => ⟨ha, rfl⟩⟩

theorem later_activateJob (r c : ℤ) (j : SimulatorJob) : Later j (activateJob r c j) := by
  unfold activateJob
  split_ifs
  · exact ⟨rfl, rfl, rfl, le_refl _, fun ha => ⟨ha, rfl⟩⟩
  · exact Later.refl j

theorem later_clearCore (c : ℤ) (j : SimulatorJob) : Later j (clearCore c j) := by
  unfold clearCore
  split_ifs
  · exact ⟨rfl, rfl, rfl, le_refl _, fun ha => ⟨ha, rfl⟩⟩
  · exact Later.refl j

theorem later_settle (c : ℤ) (j : SimulatorJob) : Later j (settle c j) :=
  ⟨rfl, rfl, rfl, le_refl _, fun ha => by simp [settle] at ha⟩

theorem later_runJob {j : SimulatorJob} (h : j.arrived = false → j.coreId = -1) :
    Later j (runJob j) := by
  unfold runJob
  split_ifs with hc
  · exact Later.refl j
  · exact ⟨rfl, rfl, rfl, by simp only; omega, fun ha => absurd (h ha) hc⟩

theorem mem_modify {α : Type} {f : α → α} {l : List α} {i : ℕ} {a : α} (h : a ∈ l.modify i f) :
    ∃ b ∈ l, a = b ∨ a = f b := by
  obtain ⟨k, hk⟩ := List.mem_iff_getElem?.mp h
  rw [List.getElem?_modify] at hk
  obtain ⟨b, hb, rfl⟩ := Option.map_eq_some_iff.mp hk
  refine ⟨b, List.mem_of_getElem? hb, ?_⟩
  split_ifs
  · exact Or.inr rfl
  · exact Or.inl rfl

/-- Changing one entry of an array. -/
theorem modify_perm {α : Type} {l : List α} {i : ℕ} {a : α} (h : l[i]? = some a) (f : α → α) :
    ∃ rest, l.Perm (a :: rest) ∧ (l.modify i f).Perm (f a :: rest) := by
  obtain ⟨l₁, l₂, rfl, rfl⟩ := split_at h
  rw [modify_append]
  exact ⟨l₁ ++ l₂, List.perm_middle, List.perm_middle⟩

/-- **No iteration brings a job into the array.** -/
theorem Move.later {total : ℕ} {s s' : Sim} (h : Inv opts total s) (hm : Move opts s s') :
    ∀ j' ∈ s'.jobs, ∃ j ∈ s.jobs, Later j j' := by
  intro j' hj'
  cases hm with
  | quiet _ hjobs => exact ⟨j', hjobs ▸ hj', Later.refl j'⟩
  | finish i j r _ hi _ _ _ hjobs =>
    rw [hjobs] at hj'
    obtain ⟨a, ha, rfl⟩ := List.mem_map.mp hj'
    exact ⟨a, mem_deleteJob hi ha, later_activateJob ..⟩
  | expire i r _ _ hjobs =>
    rw [hjobs, List.map_map] at hj'
    obtain ⟨a, ha, rfl⟩ := List.mem_map.mp hj'
    exact ⟨a, ha, (later_clearCore ..).trans (later_activateJob ..)⟩
  | arrive i j c _ _ _ _ _ hjobs =>
    rw [hjobs] at hj'
    obtain ⟨b, hb, hb'⟩ := mem_modify hj'
    obtain ⟨a, ha, rfl⟩ := List.mem_map.mp hb
    refine ⟨a, ha, (later_clearCore c a).trans ?_⟩
    rcases hb' with rfl | rfl
    · exact Later.refl _
    · exact later_settle ..
  | run _ hjobs =>
    rw [hjobs] at hj'
    obtain ⟨a, ha, rfl⟩ := List.mem_map.mp hj'
    obtain ⟨_, -, hg⟩ := h.good_mem ha
    exact ⟨a, ha, later_runJob hg.idle⟩

/-- **Every job of the array comes from its line.** -/
theorem origin (hcores : 0 < opts.cores) (h : Workload lines) (n : ℕ) :
    ∀ j ∈ (stateAt opts lines n).jobs, ∃ (k : ℕ) (l : Line), lines[k]? = some l ∧ Origin k l j := by
  induction n with
  | zero =>
    intro j hj
    obtain ⟨k, hk⟩ := List.mem_iff_getElem?.mp hj
    have hk' : (load lines)[k]? = some j := hk
    rw [load, List.getElem?_mapIdx, Option.map_eq_some_iff] at hk'
    obtain ⟨l, hl, rfl⟩ := hk'
    exact ⟨k, l, hl, rfl, rfl, rfl, le_refl _, fun _ => rfl⟩
  | succ n ih =>
    intro j' hj'
    obtain ⟨j, hj, hl⟩ := (stateAt_move hcores h n).later (stateAt_inv hcores h n) j' hj'
    obtain ⟨k, l, hk, ho⟩ := ih j hj
    exact ⟨k, l, hk, hl.jobId.trans ho.jobId, hl.arrivalTime.trans ho.arrivalTime,
      hl.priority.trans ho.priority, hl.runTime.trans ho.runTime, fun ha =>
        (hl.whole ha).2.trans (ho.whole (hl.whole ha).1)⟩

/-- What the scheduler is told of line `k`, which is `l`: number, arrival, running time, priority. -/
def told (k : ℕ) (l : Line) : ℤ × ℤ × ℤ × ℤ := (k, l.arrivalTime, l.runTime, l.priority)

theorem finished_statics {total : ℕ} {s s' : Sim} (h : Inv opts total s) {j : SimulatorJob} {n t r : ℤ}
    (hj : j ∈ s.jobs) (hcore : j.coreId ≠ -1)
    (hcall : schedulerJobFinished j.coreId n t s.sched = some (r, s'.sched)) :
    ∃ p ∈ places s.sched, jobOn j.coreId s.sched = some p ∧
      entry s.time s.sched p = toEntry j ∧
        (static (s.sched.heap p) :: statics s'.sched).Perm (statics s.sched) := by
  obtain ⟨p, hp, hon, he⟩ := h.jobOn_core hj hcore
  obtain ⟨-, hperm, hk⟩ := finished_call h.lock.wf hon hcall
  exact ⟨p, hp, hon, he, statics_finished h.lock.wf hk hperm⟩

/-- **Every record of the scheduler comes from a line.** -/
theorem record_origin (hcores : 0 < opts.cores) (h : Workload lines) (n : ℕ) :
    ∀ x ∈ statics (stateAt opts lines n).sched, ∃ (k : ℕ) (l : Line), lines[k]? = some l ∧
      x = told k l := by
  induction n with
  | zero =>
    intro x hx
    simp [statics, places, stateAt, start, schedulerStartUp, List.reduceOption_replicate_none] at hx
  | succ n ih =>
    have hinv := stateAt_inv hcores h n
    intro x hx
    cases stateAt_move hcores h n with
    | quiet _ _ hsched => exact ih x (hsched ▸ hx)
    | finish i j r _ hi _ hcore hcall =>
      obtain ⟨p, -, -, -, hst⟩ := finished_statics hinv (List.mem_of_getElem? hi) hcore hcall
      exact ih x (hst.mem_iff.mp (List.mem_cons_of_mem _ hx))
    | expire i r _ hcall =>
      obtain ⟨p, hp⟩ := expired_jobOn hcall
      obtain ⟨-, hperm, hk⟩ := expired_call hinv.lock.wf hp hcall
      exact ih x ((statics_expired hinv.lock.wf hk hperm).mem_iff.mp hx)
    | arrive i j c _ hi hnew hdue hcall =>
      have hst := statics_newJob hinv.lock.wf j.jobId (stateAt opts lines n).time j.runTime j.priority
      rw [hcall] at hst
      rcases List.mem_cons.mp (hst.mem_iff.mp hx) with rfl | hx
      · obtain ⟨k, l, hk, ho⟩ := origin hcores h n j (List.mem_of_getElem? hi)
        refine ⟨k, l, hk, ?_⟩
        rw [told, ← ho.jobId, ← ho.arrivalTime, ← ho.whole hnew, ← ho.priority, hdue]
      · exact ih x hx
    | run _ _ hsched => exact ih x (hsched ▸ hx)

/-- **The record of a job is from the same line.** -/
theorem record_of_job (hcores : 0 < opts.cores) (h : Workload lines) {n : ℕ} {j : SimulatorJob}
    {k : ℕ} {l : Line} (hk : lines[k]? = some l)
    (ho : Origin k l j) {p : ℕ} (hp : p ∈ places (stateAt opts lines n).sched)
    (he : entry (stateAt opts lines n).time (stateAt opts lines n).sched p = toEntry j) :
    static ((stateAt opts lines n).sched.heap p) = told k l := by
  obtain ⟨k', l', hk', hst⟩ := record_origin hcores h n _ (List.mem_map_of_mem hp)
  have hn : ((stateAt opts lines n).sched.heap p).jobNumber = k :=
    (congrArg Entry.jobNumber he).trans ho.jobId
  have hkk : (k' : ℤ) = k := (congrArg Prod.fst hst).symm.trans hn
  obtain rfl : k' = k := by omega
  rw [hk, Option.some.injEq] at hk'
  rw [hst, hk']

/-- The numbers of the lines are `int`s, as `atoi` returns them. -/
def Ints (lines : List Line) : Prop :=
  ∀ l ∈ lines, l.arrivalTime < 2 ^ 31 ∧ l.runTime < 2 ^ 31

/-- Two numbers that the scheduler can compare. -/
def Short (r t : ℤ) : Prop := (0 ≤ r ∧ r < 2 ^ 31) ∧ 0 ≤ t ∧ t < 2 ^ 31

/-- What is left of a job, and its arrival, can be compared. -/
theorem job_short (hcores : 0 < opts.cores) (h : Workload lines) (hint : Ints lines) {n : ℕ}
    {j : SimulatorJob} (hj : j ∈ (stateAt opts lines n).jobs) : Short j.runTime j.arrivalTime := by
  obtain ⟨k, l, hk, ho⟩ := origin hcores h n j hj
  obtain ⟨_, -, hg⟩ := (stateAt_inv hcores h n).good_mem hj
  have hl := List.mem_of_getElem? hk
  have h1 := hg.left
  have h2 := ho.runTime
  have h3 := hint l hl
  have h4 := h l hl
  rw [ho.arrivalTime, Short]
  omega

theorem place_short (hcores : 0 < opts.cores) (h : Workload lines) (hint : Ints lines) {n p : ℕ}
    (hp : p ∈ places (stateAt opts lines n).sched) :
    Short (trueRemaining (stateAt opts lines n).time (stateAt opts lines n).sched p)
      ((stateAt opts lines n).sched.heap p).arrivalTime := by
  obtain ⟨j, hj, -, he⟩ := (stateAt_inv hcores h n).exists_job hp
  obtain ⟨k, l, hk, ho⟩ := origin hcores h n j hj
  have hst := record_of_job hcores h hk ho hp he.symm
  have hrem : trueRemaining (stateAt opts lines n).time (stateAt opts lines n).sched p = j.runTime :=
    (congrArg Entry.remaining he).symm
  have harr : ((stateAt opts lines n).sched.heap p).arrivalTime = l.arrivalTime :=
    static_arrivalTime hst
  rw [hrem, harr, ← ho.arrivalTime]
  exact job_short hcores h hint hj

/-! ### The jobs that finished -/

theorem finishes_run {s : Sim} (hpc : s.pc = .run) : finishes (events s) = [] := by
  simp [events, hpc, finishes, List.filterMap_map]

theorem finishes_quiet {s : Sim} (h : events s = []) : finishes (events s) = [] := by
  rw [h]
  rfl

theorem events_finish {s : Sim} {i : ℕ} {j : SimulatorJob} (hpc : s.pc = .finish i)
    (hi : s.jobs[i]? = some j) (h0 : j.runTime = 0) : events s = [.finished j.jobId s.time] := by
  simp [events, hpc, hi, h0]

/-- **Each job is in the array, or it finished once.** -/
theorem finishes_ids (hcores : 0 < opts.cores) (h : Workload lines) (n : ℕ) :
    ((finishes (trace opts lines n)).map Prod.fst ++
      (stateAt opts lines n).jobs.map SimulatorJob.jobId).Perm
        ((List.range lines.length).map fun k : ℕ => (k : ℤ)) := by
  induction n with
  | zero =>
    refine List.Perm.of_eq (List.ext_getElem (by simp [stateAt, start, load, trace, finishes])
      fun k h1 h2 => ?_)
    simp [stateAt, start, load, trace, finishes]
  | succ n ih =>
    rw [trace_succ, finishes_append, List.map_append]
    cases stateAt_move hcores h n with
    | quiet hev hjobs =>
      rw [finishes_quiet hev, hjobs]
      simpa using ih
    | finish i j r hpc hi h0 _ _ hjobs =>
      have hdel := (deleteJob_spec hi).1.map SimulatorJob.jobId
      rw [events_finish hpc hi h0, hjobs, List.map_map]
      refine List.Perm.trans ?_ ih
      rw [List.append_assoc]
      refine List.Perm.append_left _ ?_
      simpa [finishes, Function.comp_def] using hdel
    | expire i r hpc _ hjobs =>
      rw [finishes_quiet (by simp [events, hpc]), hjobs]
      simpa [Function.comp_def] using ih
    | arrive i j c hpc _ _ _ _ hjobs =>
      rw [finishes_quiet (by simp [events, hpc]), hjobs, jobIds_settle]
      simpa using ih
    | run hpc hjobs =>
      rw [finishes_run hpc, hjobs, jobIds_runJob]
      simpa using ih

/-- **No job finishes twice**, and none that finished is in the array. -/
theorem finishes_nodup (hcores : 0 < opts.cores) (h : Workload lines) (n : ℕ) :
    ((finishes (trace opts lines n)).map Prod.fst ++
      (stateAt opts lines n).jobs.map SimulatorJob.jobId).Nodup :=
  (finishes_ids hcores h n).nodup_iff.mpr (ids_nodup lines.length)

/-- At the end all jobs have finished. -/
theorem finishes_done (hcores : 0 < opts.cores) (h : Workload lines) {n : ℕ}
    (hnil : (stateAt opts lines n).jobs = []) : ((finishes (trace opts lines n)).map Prod.fst).Perm
      ((List.range lines.length).map fun k : ℕ => (k : ℤ)) := by
  have hids := finishes_ids hcores h n
  rwa [hnil, List.map_nil, List.append_nil] at hids

/-! ### The units in which jobs run -/

theorem mem_events_ran {s : Sim} {k c u : ℤ} : .ran k c u ∈ events s ↔
    s.pc = .run ∧ u = s.time ∧ ∃ j ∈ s.jobs, j.coreId ≠ -1 ∧ j.jobId = k ∧ j.coreId = c := by
  unfold events
  cases hpc : s.pc with
  | finish i =>
    cases hi : s.jobs[i]? with
    | none => simp [hi]
    | some j =>
      simp only [hi]
      split_ifs <;> simp
  | run =>
    simp only [List.mem_map, List.mem_filter, decide_eq_true_eq, Event.ran.injEq, true_and]
    exact ⟨fun ⟨j, ⟨hj, hc⟩, h1, h2, h3⟩ => ⟨h3.symm, j, hj, hc, h1, h2⟩,
      fun ⟨h3, j, hj, hc, h1, h2⟩ => ⟨j, ⟨hj, hc⟩, h1, h2, h3.symm⟩⟩
  | top => simp
  | quantum i => simp
  | arrive i => simp
  | stop why => simp

theorem mem_events_finished {s : Sim} {k t : ℤ} : .finished k t ∈ events s ↔
    ∃ (i : ℕ) (j : SimulatorJob), s.pc = .finish i ∧ s.jobs[i]? = some j ∧ j.runTime = 0 ∧
      k = j.jobId ∧ t = s.time := by
  unfold events
  cases hpc : s.pc with
  | finish i =>
    cases hi : s.jobs[i]? with
    | none => simp [hi]
    | some j =>
      simp only [hi]
      split_ifs with h0 <;> simp [hi, h0]
  | run => simp
  | top => simp
  | quantum i => simp
  | arrive i => simp
  | stop why => simp

/-- **A unit of a job** is one of the past, or the one that is run now. -/
theorem ran_succ (n : ℕ) {k c u : ℤ} : .ran k c u ∈ trace opts lines (n + 1) ↔
    .ran k c u ∈ trace opts lines n ∨ (stateAt opts lines n).pc = .run ∧
      u = (stateAt opts lines n).time ∧ ∃ j ∈ (stateAt opts lines n).jobs,
        j.coreId ≠ -1 ∧ j.jobId = k ∧ j.coreId = c := by
  rw [trace_succ, List.mem_append, mem_events_ran]

theorem ran_mono {m n : ℕ} (hmn : m ≤ n) {k c u : ℤ} (hr : .ran k c u ∈ trace opts lines m) :
    .ran k c u ∈ trace opts lines n := by
  induction hmn with
  | refl => exact hr
  | step _ ih => exact (ran_succ _).mpr (Or.inl ih)

/-- The units of the trace are past. -/
theorem ran_past (hcores : 0 < opts.cores) (h : Workload lines) {n : ℕ} {k c u : ℤ}
    (hr : .ran k c u ∈ trace opts lines n) : u < (stateAt opts lines n).time := by
  induction n with
  | zero => simp [trace] at hr
  | succ n ih =>
    rcases (ran_succ n).mp hr with hr | ⟨hpc, rfl, -⟩
    · exact (ih hr).trans_le (time_le hcores h n)
    · rw [time_run hcores h hpc]
      omega

/-- **Two jobs never run on one core in one unit.** -/
theorem ran_inj (hcores : 0 < opts.cores) (h : Workload lines) {n : ℕ} {k k' c u : ℤ}
    (hr : .ran k c u ∈ trace opts lines n) (hr' : .ran k' c u ∈ trace opts lines n) : k = k' := by
  induction n with
  | zero => simp [trace] at hr
  | succ n ih =>
    rcases (ran_succ n).mp hr with hr | ⟨hpc, hu, j, hj, hc, rfl, rfl⟩
    · rcases (ran_succ n).mp hr' with hr' | ⟨-, hu, -⟩
      · exact ih hr hr'
      · exact absurd (ran_past hcores h hr) (by omega)
    · rcases (ran_succ n).mp hr' with hr' | ⟨-, -, j', hj', hc', rfl, hcc⟩
      · exact absurd (ran_past hcores h hr') (by omega)
      · exact same_core (stateAt_inv hcores h n) hj hc hj' hcc

/-- Only jobs of the workload run. -/
theorem ran_line (hcores : 0 < opts.cores) (h : Workload lines) {n : ℕ} {k c u : ℤ}
    (hr : .ran k c u ∈ trace opts lines n) : ∃ i < lines.length, k = (i : ℤ) := by
  induction n with
  | zero => simp [trace] at hr
  | succ n ih =>
    rcases (ran_succ n).mp hr with hr | ⟨-, -, j, hj, -, rfl, -⟩
    · exact ih hr
    · obtain ⟨i, l, hl, ho⟩ := origin hcores h n j hj
      exact ⟨i, (List.getElem?_eq_some_iff.mp hl).1, ho.jobId⟩

/-- Outside of the run phase no unit is run. -/
theorem ran_same {n : ℕ} (hpc : (stateAt opts lines n).pc ≠ .run) (k c u : ℤ) :
    Event.ran k c u ∈ trace opts lines (n + 1) ↔ Event.ran k c u ∈ trace opts lines n :=
  (ran_succ n).trans (or_iff_left fun hr => hpc hr.1)

theorem finished_same {n : ℕ} (hev : finishes (events (stateAt opts lines n)) = []) (k t : ℤ) :
    Event.finished k t ∈ trace opts lines (n + 1) ↔ Event.finished k t ∈ trace opts lines n := by
  rw [← mem_finishes, ← mem_finishes, trace_succ, finishes_append, hev, List.append_nil]

/-- A job that finished is not in the array. -/
theorem finished_gone (hcores : 0 < opts.cores) (h : Workload lines) {n : ℕ} {k t : ℤ}
    (hf : .finished k t ∈ trace opts lines n) : ∀ j ∈ (stateAt opts lines n).jobs, j.jobId ≠ k := by
  intro j hj he
  have hnd := List.nodup_append.mp (finishes_nodup hcores h n)
  have hmem : k ∈ (finishes (trace opts lines n)).map Prod.fst :=
    List.mem_map.mpr ⟨(k, t), mem_finishes.mpr hf, rfl⟩
  exact hnd.2.2 k hmem j.jobId (List.mem_map_of_mem hj) he.symm

/-- What the run phase adds for a job of the array. -/
theorem ran_job (hcores : 0 < opts.cores) (h : Workload lines) {n : ℕ}
    (hpc : (stateAt opts lines n).pc = .run) {j : SimulatorJob}
    (hj : j ∈ (stateAt opts lines n).jobs) (c u : ℤ) :
    Event.ran j.jobId c u ∈ trace opts lines (n + 1) ↔ Event.ran j.jobId c u ∈ trace opts lines n ∨
      u = (stateAt opts lines n).time ∧ j.coreId ≠ -1 ∧ c = j.coreId := by
  rw [ran_succ]
  refine or_congr_right ⟨fun ⟨_, hu, j', hj', hc, hid, hcc⟩ => ?_, fun ⟨hu, hc, hcc⟩ =>
    ⟨hpc, hu, j, hj, hc, rfl, hcc.symm⟩⟩
  obtain rfl := List.inj_on_of_nodup_map (stateAt_inv hcores h n).lock.ids hj' hj hid
  exact ⟨hu, hc, hcc.symm⟩

theorem finished_inj (hcores : 0 < opts.cores) (h : Workload lines) {n : ℕ} {k t t' : ℤ}
    (hf : .finished k t ∈ trace opts lines n) (hf' : .finished k t' ∈ trace opts lines n) : t = t' := by
  have hnd := (List.nodup_append.mp (finishes_nodup hcores h n)).1
  have heq := List.inj_on_of_nodup_map hnd (mem_finishes.mpr hf) (mem_finishes.mpr hf') rfl
  exact congrArg Prod.snd heq

/-- The finish times at the end of a simulation. -/
theorem exists_finish (hcores : 0 < opts.cores) (h : Workload lines) {n : ℕ}
    (hnil : (stateAt opts lines n).jobs = []) : ∃ fin : ℕ → ℤ, ∀ k < lines.length, ∀ t : ℤ,
      .finished (k : ℤ) t ∈ trace opts lines n ↔ t = fin k := by
  have hex : ∀ k : ℕ, ∃ f : ℤ, k < lines.length → .finished (k : ℤ) f ∈ trace opts lines n := by
    intro k
    by_cases hk : k < lines.length
    · have hmem : (k : ℤ) ∈ (finishes (trace opts lines n)).map Prod.fst :=
        (finishes_done hcores h hnil).mem_iff.mpr (List.mem_map.mpr ⟨k, List.mem_range.mpr hk, rfl⟩)
      obtain ⟨⟨k₁, t⟩, hf, rfl⟩ := List.mem_map.mp hmem
      exact ⟨t, fun _ => mem_finishes.mp hf⟩
    · exact ⟨0, fun hlt => absurd hlt hk⟩
  choose fin hfin using hex
  exact ⟨fin, fun k hk t => ⟨fun ht => finished_inj hcores h ht (hfin k hk), fun ht => ht ▸ hfin k hk⟩⟩

/-! ### Statistics -/

/-- The line a job comes from. -/
def lineOf (lines : List Line) (job : ℤ) : Line := lines.getD job.toNat ⟨0, 0, 0⟩

theorem lineOf_eq {k : ℕ} {l : Line} (hk : lines[k]? = some l) : lineOf lines k = l := by
  rw [lineOf, Int.toNat_natCast, List.getD_eq_getElem?_getD, hk, Option.getD_some]

theorem lineOf_origin {k : ℕ} {l : Line} {j : SimulatorJob} (hk : lines[k]? = some l)
    (ho : Origin k l j) : lineOf lines j.jobId = l := by
  rw [ho.jobId, lineOf_eq hk]

/-- The sum over the jobs that finished. -/
def sumFinished (f : ℤ × ℤ → ℤ) (tr : List Event) : ℤ := ((finishes tr).map f).sum

/-- The turnaround time of a job that finished. -/
def turnaround (lines : List Line) (x : ℤ × ℤ) : ℤ := x.2 - (lineOf lines x.1).arrivalTime

/-- The time a job that finished has waited. -/
def waited (lines : List Line) (x : ℤ × ℤ) : ℤ := turnaround lines x - (lineOf lines x.1).runTime

theorem sumFinished_append (f : ℤ × ℤ → ℤ) (tr tr' : List Event) :
    sumFinished f (tr ++ tr') = sumFinished f tr + sumFinished f tr' := by
  rw [sumFinished, finishes_append, List.map_append, List.sum_append, ← sumFinished, ← sumFinished]

/-- An iteration other than a finish adds nothing. -/
theorem sumFinished_events (f : ℤ × ℤ → ℤ) {s : Sim} (h : finishes (events s) = []) (tr : List Event) :
    sumFinished f (tr ++ events s) = sumFinished f tr := by
  rw [sumFinished_append, sumFinished, sumFinished, h]
  simp

/-- A job that finishes adds one term. -/
theorem sumFinished_finish (f : ℤ × ℤ → ℤ) {s : Sim} {x : ℤ × ℤ} (h : finishes (events s) = [x])
    (tr : List Event) : sumFinished f (tr ++ events s) = sumFinished f tr + f x := by
  rw [sumFinished_append, sumFinished, sumFinished, h]
  simp

/-- **What an iteration does to the sums of the scheduler**: nothing, or a job finishes and its record is
added to them. -/
theorem totals_step (hcores : 0 < opts.cores) (h : Workload lines) (n : ℕ) :
    (finishes (events (stateAt opts lines n)) = [] ∧
      totals (stateAt opts lines (n + 1)).sched = totals (stateAt opts lines n).sched) ∨
    ∃ (x : ℤ × ℤ) (a : JobT), finishes (events (stateAt opts lines n)) = [x] ∧
      a.finishTime - a.arrivalTime = turnaround lines x ∧
      a.runningTime = (lineOf lines x.1).runTime ∧
      totals (stateAt opts lines (n + 1)).sched =
        totals (accumulateStats a (stateAt opts lines n).sched) := by
  have hinv := stateAt_inv hcores h n
  cases stateAt_move hcores h n with
  | quiet hev _ hsched => exact Or.inl ⟨finishes_quiet hev, congrArg totals hsched⟩
  | finish i j r hpc hi h0 hcore hcall =>
    obtain ⟨p, hp, hon, he, -⟩ := finished_statics hinv (List.mem_of_getElem? hi) hcore hcall
    obtain ⟨k, l, hk, ho⟩ := origin hcores h n j (List.mem_of_getElem? hi)
    have hst := record_of_job hcores h hk ho hp he
    simp only [static, told, Prod.mk.injEq] at hst
    refine Or.inr ⟨(j.jobId, (stateAt opts lines n).time),
      finishRecord (stateAt opts lines n).time ((stateAt opts lines n).sched.heap p), ?_, ?_, ?_,
      finished_totals hon hcall⟩
    · rw [events_finish hpc hi h0]
      rfl
    · rw [turnaround, lineOf_origin hk ho, ← hst.2.1]
      rfl
    · rw [lineOf_origin hk ho, ← hst.2.2.1]
      rfl
  | expire i r hpc hcall =>
    obtain ⟨p, hp⟩ := expired_jobOn hcall
    exact Or.inl ⟨finishes_quiet (by simp [events, hpc]), expired_totals hp hcall⟩
  | arrive i j c hpc _ _ _ hcall =>
    have htot := newJob_totals j.jobId (stateAt opts lines n).time j.runTime j.priority
      (stateAt opts lines n).sched
    rw [hcall] at htot
    exact Or.inl ⟨finishes_quiet (by simp [events, hpc]), htot⟩
  | run hpc _ hsched => exact Or.inl ⟨finishes_run hpc, congrArg totals hsched⟩

/-- **The sums of the scheduler are those of the trace.** -/
theorem totals_trace (hcores : 0 < opts.cores) (h : Workload lines) (n : ℕ) :
    (stateAt opts lines n).sched.totalTurnaroundTime =
      (sumFinished (turnaround lines) (trace opts lines n) : ℚ) ∧
    (stateAt opts lines n).sched.totalWaitTime =
      (sumFinished (waited lines) (trace opts lines n) : ℚ) := by
  induction n with
  | zero => exact ⟨rfl, rfl⟩
  | succ n ih =>
    rw [trace_succ]
    rcases totals_step hcores h n with ⟨hev, htot⟩ | ⟨x, a, hev, hturn, hrun, htot⟩
    · rw [sumFinished_events _ hev, sumFinished_events _ hev, ← ih.1, ← ih.2]
      exact ⟨congrArg Prod.fst htot, congrArg (fun x : ℚ × ℚ × ℚ × FloatTotals => x.2.1) htot⟩
    · rw [sumFinished_finish _ hev, sumFinished_finish _ hev, Rat.intCast_add, Rat.intCast_add, ← ih.1,
        ← ih.2, waited, Rat.intCast_sub, ← hturn, ← hrun]
      exact ⟨congrArg Prod.fst htot, congrArg (fun x : ℚ × ℚ × ℚ × FloatTotals => x.2.1) htot⟩

end Eecs678.Simulator.Trace
