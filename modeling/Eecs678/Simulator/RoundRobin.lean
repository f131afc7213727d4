import Eecs678.Simulator.Response

/-!
# Round robin is first come, first served

Under `RR` a job whose quantum expires gets its core back, so a simulation with `RR` does what the one
with `FCFS` does. `plain` leaves out of a state what only the expired quantums touch: the clock of each
core, and the times that are brought up to date in the job records. `plain_step` compares the iterations
outside the loop over the quantums, `plain_expired` the ones in it, and `round_robin_fcfs` the simulations.
-/

namespace Eecs678.Simulator.RoundRobin

open Eecs678.Scheduler Eecs678.Scheduler.Model Eecs678.Scheduler.Places Eecs678.Scheduler.Table
open Eecs678.Scheduler.RoundRobin Eecs678.Scheduler.History
open Eecs678.Simulator.Model Eecs678.Simulator.Jobs Eecs678.Simulator.Lockstep
open Eecs678.Simulator.Trace

/-! ### The library -/

/-- A record without the times that the callbacks bring up to date. -/
def plainJob (j : JobT) : JobT := { j with remainingTime := 0, lastScheduledTime := 0 }

/-- The library under `FCFS`, with such records. -/
def plainSched (s : Sched) : Sched := { s with currentScheme := .fcfs, heap := plainJob ∘ s.heap }

/-- The schemes whose queue is ordered by arrival. -/
def ByArrival (scheme : Scheme) : Prop := scheme = .rr ∨ scheme = .fcfs

variable {s s' : Sched} {p c : ℕ}

theorem ByArrival.still {scheme : Scheme} (h : ByArrival scheme) : Still scheme := by
  rcases h with rfl | rfl <;> decide

theorem plain_setJob (p : ℕ) (j : JobT) (s : Sched) :
    plainSched (setJob p j s) = setJob p (plainJob j) (plainSched s) := by
  simp only [plainSched, setJob, Function.comp_update]

theorem plain_update (t : ℤ) (s : Sched) : plainSched (updateRemainingTimes t s) = plainSched s := by
  have hheap : plainJob ∘ (updateRemainingTimes t s).heap = plainJob ∘ s.heap := by
    funext q
    rw [Function.comp_apply, update_heap]
    split_ifs <;> rfl
  unfold plainSched
  rw [hheap]
  rfl

theorem plain_offer (h : ByArrival s.currentScheme) (p : ℕ) :
    plainSched (offer p s) = offer p (plainSched s) := by
  have hcmp : (fun p q => comparer s.currentScheme (s.heap p) (s.heap q)) =
      fun p q => comparer .fcfs (plainJob (s.heap p)) (plainJob (s.heap q)) := by
    rcases h with h | h <;> rw [h] <;> rfl
  unfold offer
  rw [hcmp]
  rfl

theorem plain_place (p c : ℕ) (t : ℤ) (s : Sched) :
    plainSched (placeJobOnCore p c t s) = plainSched (placeJobOnCore p c t (plainSched s)) := by
  unfold placeJobOnCore
  rw [plain_setJob, plain_setJob]
  rfl

theorem plain_arrive (n t r pr : ℤ) (s : Sched) :
    plainSched (arrive n t r pr s) = plainSched (arrive n t r pr (plainSched s)) := by
  unfold arrive
  rw [plain_update, plain_update]
  simp only [allocJob, setJob, plainSched, Function.comp_update]
  rfl

theorem plain_finish (p c : ℕ) (t : ℤ) (s : Sched) :
    plainSched (finish p c t s) = plainSched (finish p c t (plainSched s)) := by
  simp only [finish, accumulateStats, vacate, setJob, plainSched, Function.comp_update]
  rfl

/-- The result of a callback, with the plain library. -/
def plainResult (x : ℤ × Sched) : ℤ × Sched := (x.1, plainSched x.2)

theorem plain_pollOnto (c : ℕ) (t : ℤ) (s : Sched) :
    plainResult (pollOnto c t s) = plainResult (pollOnto c t (plainSched s)) := by
  rcases pollOnto_cases c t s with ⟨hq, he⟩ | ⟨next, q, hq, he⟩
  · rcases pollOnto_cases c t (plainSched s) with ⟨-, he'⟩ | ⟨next', q', hq', -⟩
    · rw [he, he']
      rfl
    · exact absurd (hq.symm.trans hq') (by simp)
  · rcases pollOnto_cases c t (plainSched s) with ⟨hq', -⟩ | ⟨next', q', hq', he'⟩
    · exact absurd (hq.symm.trans hq') (by simp)
    · obtain ⟨rfl, rfl⟩ := List.cons.inj (hq.symm.trans hq')
      rw [he, he']
      exact Prod.ext rfl (plain_place next c t { s with jobQueue := q })

theorem plain_newJob (h : ByArrival s.currentScheme) (n t r pr : ℤ) :
    plainResult (schedulerNewJob n t r pr s) = plainResult (schedulerNewJob n t r pr (plainSched s)) := by
  have harr := plain_arrive n t r pr s
  have hplain : ByArrival (plainSched s).currentScheme := Or.inr rfl
  rcases newJob_still h.still rfl n t r pr with ⟨c, hc, hmin, he⟩ | ⟨hn, he⟩
  · rcases newJob_still hplain.still rfl n t r pr with ⟨c', hc', hmin', he'⟩ | ⟨hn', -⟩
    · obtain rfl : c = c' :=
        le_antisymm (not_lt.mp fun hlt => hmin c' hlt hc') (not_lt.mp fun hlt => hmin' c hlt hc)
      have hplace : plainSched (placeJobOnCore s.fresh c t (arrive n t r pr s)) =
          plainSched (placeJobOnCore s.fresh c t (arrive n t r pr (plainSched s))) := by
        rw [plain_place, harr, ← plain_place]
      rw [he, he']
      exact Prod.ext rfl hplace
    · exact absurd (List.mem_of_getElem? hc) hn'
  · rcases newJob_still hplain.still rfl n t r pr with ⟨c', hc', -, -⟩ | ⟨-, he'⟩
    · exact absurd (List.mem_of_getElem? hc') hn
    · have hoffer : plainSched (offer s.fresh (arrive n t r pr s)) =
          plainSched (offer s.fresh (arrive n t r pr (plainSched s))) := by
        have hs : ByArrival (arrive n t r pr s).currentScheme := h
        have hs' : ByArrival (arrive n t r pr (plainSched s)).currentScheme := hplain
        rw [plain_offer hs, harr, plain_offer hs']
      rw [he, he']
      exact Prod.ext rfl hoffer

theorem plain_finished (core n t : ℤ) (s : Sched) :
    (schedulerJobFinished core n t s).map plainResult =
      (schedulerJobFinished core n t (plainSched s)).map plainResult := by
  have hon : jobOn core (plainSched s) = jobOn core s := rfl
  cases hp : jobOn core s with
  | none =>
    unfold schedulerJobFinished
    rw [hon, hp]
  | some p =>
    rw [finished_eq hp, finished_eq (hon.trans hp), Option.map_some, Option.map_some, plain_pollOnto,
      plain_finish, ← plain_pollOnto]

/-- **An expired quantum** leaves no trace but the times. -/
theorem plain_expired {cores : ℕ} {calls : List Call} {core t r : ℤ} (h : Run cores .rr calls s)
    (hb : StartTimes.Begun s) (hp : jobOn core s = some p)
    (hcall : schedulerQuantumExpired core t s = some (r, s')) :
    r = (s.heap p).jobNumber ∧ plainSched s' = plainSched s := by
  obtain ⟨s₁, he, hslots, hqueue⟩ := expired_same (t := t) h hp
  obtain ⟨rfl, rfl⟩ := Prod.ext_iff.mp (Option.some.inj (he.symm.trans hcall))
  refine ⟨rfl, ?_⟩
  obtain ⟨h0, hc⟩ := jobOn_eq hp
  have hlt : core.toNat < s.coreJobPtrs.length := (List.getElem?_eq_some_iff.mp hc).1
  rw [expired_eq hp, Option.some.injEq] at he
  rcases pollOnto_cases core.toNat t (expire p core.toNat t s) with ⟨-, he'⟩ | ⟨next, q, hq, he'⟩
  · -- the core would stay idle
    have hs₁ : s₁ = expire p core.toNat t s := (congrArg Prod.snd (he.symm.trans he'))
    rw [hs₁] at hslots
    have hidle : (s.coreJobPtrs.set core.toNat none)[core.toNat]? = s.coreJobPtrs[core.toNat]? :=
      congrArg (·[core.toNat]?) hslots
    rw [List.getElem?_set_self hlt, hc] at hidle
    cases hidle
  · have hs₁ : s₁ = placeJobOnCore next core.toNat t { expire p core.toNat t s with jobQueue := q } :=
      congrArg Prod.snd (he.symm.trans he')
    have hnext : next = p := by
      have hslots₁ : s₁.coreJobPtrs = (s.coreJobPtrs.set core.toNat none).set core.toNat (some next) := by
        rw [hs₁]
        rfl
      have hslot := congrArg (·[core.toNat]?) (hslots₁.symm.trans hslots)
      simp only [List.set_set, List.getElem?_set_self hlt, hc, Option.some.injEq] at hslot
      exact hslot
    subst hnext
    have hheap : plainJob ∘ s₁.heap = plainJob ∘ s.heap := by
      funext x
      rw [Function.comp_apply, Function.comp_apply, hs₁, place_heap]
      have hrecord : (expire next core.toNat t s).heap next = expireRecord t (s.heap next) :=
        (vacate_heap s next next core.toNat _).trans (if_pos rfl)
      by_cases hx : x = next
      · have hcore := h.wf.core_id _ _ hc
        have hstart := hb next (List.mem_of_getElem? hc)
        have hstart' : (expireRecord t (s.heap next)).startTime ≠ -1 := hstart
        simp only [if_pos hx, hrecord, if_neg hstart']
        rw [hx, ← hcore]
        rfl
      · rw [if_neg hx]
        exact congrArg plainJob ((vacate_heap s next x core.toNat _).trans (if_neg hx))
    have hfields : s₁ = { s with
        coreJobPtrs := s₁.coreJobPtrs
        jobQueue := s₁.jobQueue
        heap := s₁.heap } := by
      rw [hs₁]
      rfl
    calc plainSched s₁ = plainSched { s with
          coreJobPtrs := s₁.coreJobPtrs
          jobQueue := s₁.jobQueue
          heap := s₁.heap } := congrArg plainSched hfields
      _ = plainSched s := by
        unfold plainSched
        rw [hslots, hqueue, hheap]

/-! ### The main loop -/

/-- The loop over the quantums comes before the one over the arrivals. -/
def plainPc : Pc → Pc
  | .quantum _ => .arrive 0
  | pc => pc

/-- The state of `main` without the clocks, and with the plain library. -/
def plain (s : Sim) : Sim :=
  { s with
    pc := plainPc s.pc
    quantumClock := List.replicate s.quantumClock.length 0
    sched := plainSched s.sched }

/-- The same cores with `FCFS`. -/
def firstCome (opts : Options) : Options := ⟨opts.cores, .fcfs, 0⟩

/-- What the run phase computes, without the clocks. -/
def plainPhase (u : RunPhase) : RunPhase :=
  { u with quantumClock := List.replicate u.quantumClock.length 0 }

variable {opts : Options} {sim : Sim}

theorem plain_runJobs : ∀ (jobs : List SimulatorJob) {clock clock' : List ℤ} (strings : List String)
    (working : ℕ), clock.length = clock'.length →
    (runJobs jobs clock strings working).map plainPhase = (runJobs jobs clock' strings working).map plainPhase
  | [], clock, clock', strings, working, h => by
    simp only [runJobs, Except.map, plainPhase, h]
  | j :: jobs, clock, clock', strings, working, h => by
    unfold runJobs
    have hmap : ∀ (f : RunPhase → RunPhase) {clock clock' : List ℤ} (strings : List String) (working : ℕ),
        (∀ u, plainPhase (f u) = f (plainPhase u)) → clock.length = clock'.length →
        ((runJobs jobs clock strings working).map f).map plainPhase =
          ((runJobs jobs clock' strings working).map f).map plainPhase := by
      intro f clock clock' strings working hf hlen
      have ih := plain_runJobs jobs strings working hlen
      cases hrun : runJobs jobs clock strings working with
      | error why =>
        cases hrun' : runJobs jobs clock' strings working with
        | error why' =>
          rw [hrun, hrun'] at ih
          cases ih
          rfl
        | ok u' =>
          rw [hrun, hrun'] at ih
          cases ih
      | ok u =>
        cases hrun' : runJobs jobs clock' strings working with
        | error why' =>
          rw [hrun, hrun'] at ih
          cases ih
        | ok u' =>
          rw [hrun, hrun'] at ih
          have hu : plainPhase u = plainPhase u' := Except.ok.inj ih
          have hfu : plainPhase (f u) = plainPhase (f u') := by rw [hf, hf, hu]
          exact congrArg Except.ok hfu
    by_cases hidle : j.coreId = -1
    · rw [if_pos hidle, if_pos hidle]
      exact hmap _ strings working (fun _ => rfl) h
    · rw [if_neg hidle, if_neg hidle]
      by_cases hneg : j.coreId < 0
      · rw [if_pos hneg, if_pos hneg]
      · rw [if_neg hneg, if_neg hneg]
        cases hk : clock[j.coreId.toNat]? with
        | none =>
          have hk' : clock'[j.coreId.toNat]? = none :=
            List.getElem?_eq_none (h ▸ List.getElem?_eq_none_iff.mp hk)
          rw [hk']
        | some k =>
          have hlt : j.coreId.toNat < clock'.length := h ▸ (List.getElem?_eq_some_iff.mp hk).1
          rw [List.getElem?_eq_getElem hlt]
          cases hstr : strings[j.coreId.toNat]? with
          | none => rfl
          | some str =>
            by_cases hempty : str ≠ ""
            · simp only [if_pos hempty]
            · simp only [if_neg hempty]
              refine hmap _ _ _ (fun _ => rfl) ?_
              rw [List.length_set, List.length_set, h]

theorem plain_top (hpc : sim.pc = .top) :
    plain (step opts sim) = plain (step (firstCome opts) (plain sim)) := by
  have hpc' : (plain sim).pc = .top := congrArg plainPc hpc
  have hlen : (plain sim).jobs.length = sim.jobs.length := rfl
  unfold step
  simp only [hpc, hpc', hlen]
  split_ifs <;> simp only [plain, plainPc, List.length_replicate] <;> rfl

theorem plain_finishStep {i : ℕ} (hpc : sim.pc = .finish i) :
    plain (step opts sim) = plain (step (firstCome opts) (plain sim)) := by
  have hpc' : (plain sim).pc = .finish i := congrArg plainPc hpc
  have hjobs : (plain sim).jobs = sim.jobs := rfl
  have htime : (plain sim).time = sim.time := rfl
  have hsched : (plain sim).sched = plainSched sim.sched := rfl
  unfold step
  simp only [hpc, hpc']
  unfold finishStep
  rw [hjobs]
  cases hi : sim.jobs[i]? with
  | none =>
    simp only [firstCome, reduceCtorEq, if_false]
    split_ifs <;> simp only [plain, plainPc, List.length_replicate] <;> rfl
  | some j =>
    by_cases hrun : j.runTime = 0
    · simp only [if_pos hrun, htime, hsched]
      have hcall := plain_finished j.coreId j.jobId sim.time sim.sched
      cases hr : schedulerJobFinished j.coreId j.jobId sim.time sim.sched with
      | none =>
        rw [hr, Option.map_none, eq_comm, Option.map_eq_none_iff] at hcall
        rw [hcall]
        simp only [plain, plainPc, List.length_replicate]
        rfl
      | some x =>
        rw [hr, Option.map_some, eq_comm, Option.map_eq_some_iff] at hcall
        obtain ⟨x', hr', hx⟩ := hcall
        obtain ⟨r, sched⟩ := x
        obtain ⟨r', sched'⟩ := x'
        simp only [plainResult, Prod.mk.injEq] at hx
        obtain ⟨rfl, hplain⟩ := hx
        simp only [hr']
        cases setNewJob r' j.coreId (deleteJob i sim.jobs) with
        | none => simp only [plain, plainPc, hplain, length_resetClock, List.length_replicate]
        | some jobs => simp only [plain, plainPc, hplain, length_resetClock, List.length_replicate]
    · simp only [if_neg hrun, plain, plainPc, List.length_replicate]
      rfl

theorem plain_arriveStep (h : ByArrival sim.sched.currentScheme) {i : ℕ} (hpc : sim.pc = .arrive i) :
    plain (step opts sim) = plain (step (firstCome opts) (plain sim)) := by
  have hpc' : (plain sim).pc = .arrive i := congrArg plainPc hpc
  have hjobs : (plain sim).jobs = sim.jobs := rfl
  have htime : (plain sim).time = sim.time := rfl
  have hsched : (plain sim).sched = plainSched sim.sched := rfl
  have hcores : (firstCome opts).cores = opts.cores := rfl
  unfold step
  simp only [hpc, hpc']
  unfold arriveStep
  rw [hjobs]
  cases hi : sim.jobs[i]? with
  | none =>
    simp only [plain, plainPc, List.length_replicate]
    rfl
  | some j =>
    by_cases hdue : j.arrivalTime = sim.time
    · simp only [htime, hsched, if_pos hdue, hcores]
      have hcall := plain_newJob h j.jobId sim.time j.runTime j.priority
      generalize schedulerNewJob j.jobId sim.time j.runTime j.priority sim.sched = x at hcall ⊢
      generalize schedulerNewJob j.jobId sim.time j.runTime j.priority (plainSched sim.sched) = x' at hcall ⊢
      obtain ⟨r, sched⟩ := x
      obtain ⟨r', sched'⟩ := x'
      simp only [plainResult, Prod.mk.injEq] at hcall
      obtain ⟨rfl, hplain⟩ := hcall
      split_ifs <;> simp only [plain, plainPc, hplain, length_resetClock, List.length_replicate]
    · simp only [htime, if_neg hdue]
      simp only [plain, plainPc, List.length_replicate]
      rfl

theorem plain_runStep (hpc : sim.pc = .run) :
    plain (step opts sim) = plain (step (firstCome opts) (plain sim)) := by
  have hpc' : (plain sim).pc = .run := congrArg plainPc hpc
  have hlen : sim.quantumClock.length = (plain sim).quantumClock.length := List.length_replicate.symm
  have hrun := plain_runJobs sim.jobs (List.replicate opts.cores "") 0 hlen
  have hjobs : (plain sim).jobs = sim.jobs := rfl
  have hcores : (firstCome opts).cores = opts.cores := rfl
  unfold step
  simp only [hpc, hpc']
  unfold runStep
  rw [hjobs, hcores]
  cases hu : runJobs sim.jobs sim.quantumClock (List.replicate opts.cores "") 0 with
  | error why =>
    cases hu' : runJobs sim.jobs (plain sim).quantumClock (List.replicate opts.cores "") 0 with
    | error why' =>
      rw [hu, hu'] at hrun
      cases hrun
      simp only [plain, plainPc, List.length_replicate]
      rfl
    | ok u' =>
      rw [hu, hu'] at hrun
      cases hrun
  | ok u =>
    cases hu' : runJobs sim.jobs (plain sim).quantumClock (List.replicate opts.cores "") 0 with
    | error why' =>
      rw [hu, hu'] at hrun
      cases hrun
    | ok u' =>
      rw [hu, hu'] at hrun
      obtain ⟨jobs, clock, strings, working⟩ := u
      obtain ⟨jobs', clock', strings', working'⟩ := u'
      have hphase := Except.ok.inj hrun
      simp only [plainPhase, RunPhase.mk.injEq] at hphase
      obtain ⟨rfl, hclock, rfl, rfl⟩ := hphase
      have halive : (plain sim).jobsAlive = sim.jobsAlive := rfl
      simp only [halive]
      split_ifs <;> simp only [plain, plainPc, hclock] <;> rfl

/-- **An iteration that is not about a quantum** is the same under `RR` and `FCFS`. -/
theorem plain_step (h : ByArrival sim.sched.currentScheme) (hpc : ∀ i, sim.pc ≠ .quantum i) :
    plain (step opts sim) = plain (step (firstCome opts) (plain sim)) := by
  cases hsim : sim.pc with
  | top => exact plain_top hsim
  | finish i => exact plain_finishStep hsim
  | quantum i => exact absurd hsim (hpc i)
  | arrive i => exact plain_arriveStep h hsim
  | run => exact plain_runStep hsim
  | stop why =>
    unfold step
    simp only [hsim, plain, plainPc, List.length_replicate]
    rfl

/-- An iteration of the loop over the quantums. -/
theorem quantum_frame (opts : Options) {i : ℕ} (hpc : sim.pc = .quantum i) :
    (step opts sim).jobsAlive = sim.jobsAlive ∧
      (step opts sim).coreTimingDiagram = sim.coreTimingDiagram ∧
      (step opts sim).quantumClock.length = sim.quantumClock.length ∧
      (plainPc (step opts sim).pc = .arrive 0 ∨ ∃ why ≠ .done, (step opts sim).pc = .stop why) := by
  unfold step
  simp only [hpc]
  unfold quantumStep
  by_cases hi : i < opts.cores
  · rw [if_pos hi]
    by_cases hk : sim.quantumClock[i]? = some 0
    · rw [if_pos hk]
      cases sim.jobs.findIdx? (fun j => j.coreId = (i : ℤ)) with
      | none => exact ⟨rfl, rfl, rfl, Or.inl rfl⟩
      | some k =>
        cases schedulerQuantumExpired i sim.time sim.sched with
        | none => exact ⟨rfl, rfl, rfl, Or.inr ⟨.fault, by decide, rfl⟩⟩
        | some x =>
          simp only
          cases setNewJob x.1 i (sim.jobs.modify k fun j => { j with coreId := -1 }) with
          | none => exact ⟨rfl, rfl, List.length_set, Or.inr ⟨.invalidJob, by decide, rfl⟩⟩
          | some jobs => exact ⟨rfl, rfl, List.length_set, Or.inl rfl⟩
    · rw [if_neg hk]
      exact ⟨rfl, rfl, rfl, Or.inl rfl⟩
  · rw [if_neg hi]
    exact ⟨rfl, rfl, rfl, Or.inl rfl⟩

/-- A job that gets its core back. -/
theorem back_on_core {total i : ℕ} (h : Inv opts total sim) (hp : jobOn i sim.sched = some p)
    {j : SimulatorJob} (hj : j ∈ sim.jobs) :
    activateJob (sim.sched.heap p).jobNumber i (clearCore i j) = j := by
  obtain ⟨-, hslot⟩ := jobOn_eq hp
  unfold clearCore
  by_cases hi : j.coreId = i
  · obtain ⟨p', -, hp', he⟩ := h.jobOn_core hj (by omega)
    rw [hi, hp, Option.some.injEq] at hp'
    subst hp'
    have hid : j.jobId = (sim.sched.heap p).jobNumber := (congrArg Entry.jobNumber he).symm
    rw [if_pos hi]
    unfold activateJob
    rw [if_pos hid, ← hi]
  · have hne : j.jobId ≠ (sim.sched.heap p).jobNumber := by
      intro hid
      obtain ⟨j', hj', -, he⟩ := h.exists_job (mem_places_slot hslot)
      have hid' : j'.jobId = (sim.sched.heap p).jobNumber := congrArg Entry.jobNumber he
      have hcore : j'.coreId = (sim.sched.heap p).coreId := congrArg Entry.coreId he
      have hjj : j = j' := List.inj_on_of_nodup_map h.lock.ids hj hj' (hid.trans hid'.symm)
      have hon := h.lock.wf.core_id _ _ hslot
      rw [hjj] at hi
      omega
    rw [if_neg hi]
    exact if_neg hne

variable {lines : List Line}

/-- **The loop over the quantums** brings times up to date, and no more. -/
theorem plain_quantumStep (hcores : 0 < opts.cores) (h : Workload lines) (hint : Ints lines)
    (hd : (lines.map Line.arrivalTime).Nodup) {n i : ℕ} (hpc : (stateAt opts lines n).pc = .quantum i) :
    plain (stateAt opts lines (n + 1)) = plain (stateAt opts lines n) := by
  have hinv := stateAt_inv hcores h n
  obtain ⟨halive, hdiagram, hclock, hpc'⟩ := quantum_frame opts hpc
  rw [← stateAt_succ] at halive hdiagram hclock hpc'
  have hpcs : plainPc (stateAt opts lines (n + 1)).pc = plainPc (stateAt opts lines n).pc := by
    rcases hpc' with hpc' | ⟨why, hne, hstop⟩
    · rw [hpc', hpc]
      rfl
    · exact absurd ((stateAt_inv hcores h (n + 1)).out why hstop).1 hne
  have hsame : (stateAt opts lines (n + 1)).jobs = (stateAt opts lines n).jobs ∧
      plainSched (stateAt opts lines (n + 1)).sched = plainSched (stateAt opts lines n).sched ∧
      (stateAt opts lines (n + 1)).time = (stateAt opts lines n).time := by
    cases stateAt_move hcores h n with
    | quiet _ hjobs hsched htime _ => exact ⟨hjobs, congrArg plainSched hsched, htime⟩
    | finish i' j r hpc' => exact absurd (hpc.symm.trans hpc') (by simp)
    | expire i' r hpc' hcall hjobs htime =>
      obtain ⟨calls, htold⟩ := Response.exists_told hcores h hint hd (quantum_rr n hpc) n
      obtain ⟨p, hp⟩ := expired_jobOn hcall
      obtain ⟨rfl, hsched⟩ := plain_expired htold.run (Response.timed hcores h n).begun hp hcall
      refine ⟨?_, hsched, htime⟩
      rw [hjobs, List.map_map]
      exact (List.map_congr_left fun j hj => back_on_core hinv hp hj).trans (List.map_id _)
    | arrive i' j c hpc' => exact absurd (hpc.symm.trans hpc') (by simp)
    | run hpc' => exact absurd (hpc.symm.trans hpc') (by simp)
  obtain ⟨hjobs, hsched, htime⟩ := hsame
  unfold plain
  rw [hpcs, htime, hjobs, halive, hclock, hdiagram, hsched]

/-! ### The simulations -/

/-- The simulations are in the same loop, and at one time; they have the same jobs, diagrams, cores and
queue, the same records but for the times that callbacks bring up to date, and the same totals. -/
def Alike (s s' : Sim) : Prop := plain s = plain s'

theorem Alike.done {sim' : Sim} (h : Alike sim sim') (hpc : sim.pc = .stop .done) :
    sim'.pc = .stop .done := by
  have hpcs : plainPc sim.pc = plainPc sim'.pc := congrArg Sim.pc h
  rw [hpc] at hpcs
  cases hpc' : sim'.pc with
  | stop why =>
    rw [hpc'] at hpcs
    exact hpcs.symm
  | _ =>
    rw [hpc'] at hpcs
    cases hpcs

theorem Alike.outputs {sim' : Sim} (h : Alike sim sim') : sim.time = sim'.time ∧
    sim.coreTimingDiagram = sim'.coreTimingDiagram ∧
    schedulerAverageWaitingTime sim.sched = schedulerAverageWaitingTime sim'.sched ∧
    schedulerAverageTurnaroundTime sim.sched = schedulerAverageTurnaroundTime sim'.sched ∧
    schedulerAverageResponseTime sim.sched = schedulerAverageResponseTime sim'.sched ∧
    floatAverageWaitingTime sim.sched = floatAverageWaitingTime sim'.sched ∧
    floatAverageTurnaroundTime sim.sched = floatAverageTurnaroundTime sim'.sched ∧
    floatAverageResponseTime sim.sched = floatAverageResponseTime sim'.sched := by
  have hsim : plain sim = plain sim' := h
  simp only [plain, Sim.mk.injEq, plainSched, Sched.mk.injEq] at hsim
  obtain ⟨-, htime, -, -, -, hdiagram, -, -, -, -, -, hwait, hturnaround, hresponse, hfinished,
    hfloats⟩ := hsim
  unfold schedulerAverageWaitingTime schedulerAverageTurnaroundTime schedulerAverageResponseTime
  unfold floatAverageWaitingTime floatAverageTurnaroundTime floatAverageResponseTime
  rw [hwait, hturnaround, hresponse, hfinished, hfloats]
  exact ⟨htime, hdiagram, rfl, rfl, rfl, rfl, rfl, rfl⟩

theorem alike_step {cores : ℕ} (quantum quantum' : ℤ) (hcores : 0 < cores) (h : Workload lines)
    (hint : Ints lines) (hd : (lines.map Line.arrivalTime).Nodup) (n m : ℕ)
    (halike : Alike (stateAt ⟨cores, .rr, quantum⟩ lines n) (stateAt ⟨cores, .fcfs, quantum'⟩ lines m)) :
    Alike (stateAt ⟨cores, .rr, quantum⟩ lines (n + 1)) (stateAt ⟨cores, .fcfs, quantum'⟩ lines m) ∨
      Alike (stateAt ⟨cores, .rr, quantum⟩ lines (n + 1))
        (stateAt ⟨cores, .fcfs, quantum'⟩ lines (m + 1)) := by
  have hrr : (stateAt ⟨cores, .rr, quantum⟩ lines n).sched.currentScheme = .rr :=
    stateAt_scheme hcores h n
  have hfcfs : (stateAt ⟨cores, .fcfs, quantum'⟩ lines m).sched.currentScheme = .fcfs :=
    stateAt_scheme hcores h m
  by_cases hquantum : ∃ i, (stateAt ⟨cores, .rr, quantum⟩ lines n).pc = .quantum i
  · obtain ⟨i, hpc⟩ := hquantum
    exact Or.inl ((plain_quantumStep hcores h hint hd hpc).trans halike)
  · have hnot : ∀ i, (stateAt ⟨cores, .fcfs, quantum'⟩ lines m).pc ≠ .quantum i := by
      intro i hpc
      exact absurd (quantum_rr m hpc) (by simp)
    right
    unfold Alike
    rw [stateAt_succ, stateAt_succ, plain_step (Or.inl hrr) (not_exists.mp hquantum),
      plain_step (Or.inr hfcfs) hnot, halike]
    rfl

/-- **Round robin is first come, first served**: whatever the quantum, the simulation with `RR` goes
through the states of the one with `FCFS`, and both end, at the same time, with the same diagrams and
averages, with floats read as rationals and as they are. -/
theorem round_robin_fcfs {cores : ℕ} (quantum quantum' : ℤ) (hcores : 0 < cores) (h : Workload lines)
    (hint : Ints lines) (hd : (lines.map Line.arrivalTime).Nodup) :
    (∀ n, ∃ m ≤ n,
      Alike (stateAt ⟨cores, .rr, quantum⟩ lines n) (stateAt ⟨cores, .fcfs, quantum'⟩ lines m)) ∧
      ∃ n m, let s := stateAt ⟨cores, .rr, quantum⟩ lines n
        let s' := stateAt ⟨cores, .fcfs, quantum'⟩ lines m
        s.pc = .stop .done ∧ s'.pc = .stop .done ∧ s.time = s'.time ∧
          s.coreTimingDiagram = s'.coreTimingDiagram ∧
          schedulerAverageWaitingTime s.sched = schedulerAverageWaitingTime s'.sched ∧
          schedulerAverageTurnaroundTime s.sched = schedulerAverageTurnaroundTime s'.sched ∧
          schedulerAverageResponseTime s.sched = schedulerAverageResponseTime s'.sched ∧
          floatAverageWaitingTime s.sched = floatAverageWaitingTime s'.sched ∧
          floatAverageTurnaroundTime s.sched = floatAverageTurnaroundTime s'.sched ∧
          floatAverageResponseTime s.sched = floatAverageResponseTime s'.sched := by
  have hstart : Alike (stateAt ⟨cores, .rr, quantum⟩ lines 0) (stateAt ⟨cores, .fcfs, quantum'⟩ lines 0) := rfl
  have hmatch := Lib.Machine.exists_matching Alike hstart
    (alike_step quantum quantum' hcores h hint hd)
  refine ⟨hmatch, ?_⟩
  obtain ⟨n, hn⟩ : ∃ n, (stateAt ⟨cores, .rr, quantum⟩ lines n).pc = .stop .done := Runs.halts hcores h
  obtain ⟨m, -, hm⟩ := hmatch n
  exact ⟨n, m, hn, hm.done hn, hm.outputs⟩

/-- Two jobs that would take turns. -/
theorem round_robin_fcfs_two :
    (∀ n, ∃ m ≤ n, Alike (stateAt ⟨1, .rr, 1⟩ [⟨0, 2, 1⟩, ⟨1, 3, 1⟩] n)
      (stateAt ⟨1, .fcfs, 0⟩ [⟨0, 2, 1⟩, ⟨1, 3, 1⟩] m)) ∧
      ∃ n m, let s := stateAt ⟨1, .rr, 1⟩ [⟨0, 2, 1⟩, ⟨1, 3, 1⟩] n
        let s' := stateAt ⟨1, .fcfs, 0⟩ [⟨0, 2, 1⟩, ⟨1, 3, 1⟩] m
        s.pc = .stop .done ∧ s'.pc = .stop .done ∧ s.time = s'.time ∧
          s.coreTimingDiagram = s'.coreTimingDiagram ∧
          schedulerAverageWaitingTime s.sched = schedulerAverageWaitingTime s'.sched ∧
          schedulerAverageTurnaroundTime s.sched = schedulerAverageTurnaroundTime s'.sched ∧
          schedulerAverageResponseTime s.sched = schedulerAverageResponseTime s'.sched ∧
          floatAverageWaitingTime s.sched = floatAverageWaitingTime s'.sched ∧
          floatAverageTurnaroundTime s.sched = floatAverageTurnaroundTime s'.sched ∧
          floatAverageResponseTime s.sched = floatAverageResponseTime s'.sched :=
  round_robin_fcfs 1 0 Nat.one_pos (by simp [Workload]) (by simp [Ints]) (by decide)

end Eecs678.Simulator.RoundRobin
