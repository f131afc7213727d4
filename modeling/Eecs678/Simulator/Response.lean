import Eecs678.Simulator.Statistics
import Eecs678.Scheduler.StartTimes
import Eecs678.Scheduler.RoundRobin
import Mathlib.Order.Bounds.Basic

/-!
# The response times

The scheduler takes the response time of a job from its start time, which is set when the job gets its
first core, and adds it to a float. In one unit of time a job can get a core from a job that finishes and
lose it to a job that arrives (`Overtakes`); then its start time is no unit in which it runs. And the
addition can round (`RoundsBy`). `response_iff`: the response times are right exactly if the second makes up
for the first, so that without overtaking and without rounding they are.
-/

namespace Eecs678.Simulator.Response

open Eecs678.Scheduler Eecs678.Scheduler.Model Eecs678.Scheduler.Places Eecs678.Scheduler.Table
open Eecs678.Scheduler.StartTimes Eecs678.Scheduler.RoundRobin
open Eecs678.Scheduler.History (Call Near Fits)
open Eecs678.Simulator.Model Eecs678.Simulator.Jobs Eecs678.Simulator.Lockstep
open Eecs678.Simulator.Trace Eecs678.Simulator.Statistics

/-- In the next iteration a job arrives that takes the core of job `k`, which started at this very time. -/
def Overtakes (s : Sim) (k : ℤ) : Prop :=
  ∃ (i : ℕ) (j : SimulatorJob) (w c : ℕ), s.pc = .arrive i ∧ s.jobs[i]? = some j ∧
    j.arrivalTime = s.time ∧ none ∉ s.sched.coreJobPtrs ∧
    victim s.sched.fresh (arrive j.jobId s.time j.runTime j.priority s.sched) = some (w, c) ∧
    (s.sched.heap w).startTime = s.time ∧ (s.sched.heap w).jobNumber = k

/-- `u` is the first unit in which job `k` is executed. -/
def FirstUnit (opts : Options) (lines : List Line) (k u : ℤ) : Prop :=
  IsLeast {u | ∃ n c, .ran k c u ∈ trace opts lines n} u

/-- Job `k` is kept from running for `d` units after it got its first core: none, unless it is overtaken
there. -/
def Kept (opts : Options) (lines : List Line) (k d : ℤ) : Prop :=
  (∃ n, Overtakes (stateAt opts lines n) k ∧
    FirstUnit opts lines k ((stateAt opts lines n).time + d)) ∨
  (∀ n, ¬ Overtakes (stateAt opts lines n) k) ∧ d = 0

/-- When the recorded response time of job `k`, which is on a core, is added to the float, the result is
rounded by `d`. -/
def RoundsBy (s : Sim) (k d : ℤ) : Prop :=
  ∃ p, some p ∈ s.sched.coreJobPtrs ∧ (s.sched.heap p).jobNumber = k ∧
    float32 (s.sched.floats.responseTime +
      float32 ((s.sched.heap p).startTime - (s.sched.heap p).arrivalTime)) =
        s.sched.floats.responseTime + ((s.sched.heap p).startTime - (s.sched.heap p).arrivalTime) + d

/-- The response time that is added when job `k` finishes is the time from its arrival to the first unit
in which it is executed. -/
def Exact (opts : Options) (lines : List Line) (k : ℕ) : Prop :=
  ∃ m t u, .finished k t ∈ events (stateAt opts lines m) ∧ FirstUnit opts lines k u ∧
    (stateAt opts lines (m + 1)).sched.floats.responseTime =
      (stateAt opts lines m).sched.floats.responseTime + (u - (lineOf lines k).arrivalTime)

variable {opts : Options} {lines : List Line} {total : ℕ} {s s' : Sim}

/-! ### What an iteration does to the records -/

theorem move_starts (h : Inv opts total s) (hm : Move opts s s') :
    Starts s.time s.sched s'.sched := by
  cases hm with
  | quiet _ _ hsched => exact Starts.of_eq fun q _ => by rw [hsched]
  | finish i j r _ _ _ _ hcall => exact finished_starts hcall
  | expire i r _ hcall => exact expired_starts hcall
  | arrive i j c _ _ _ _ hcall =>
    have harr := (starts_arrive (t := s.time) h.lock.wf.toHeld j.jobId j.runTime j.priority).trans
      (starts_newJob j.jobId s.time j.runTime j.priority s.sched) (Nat.le_succ _)
    rwa [hcall] at harr
  | run _ _ hsched => exact Starts.of_eq fun q _ => by rw [hsched]

theorem move_begun (h : Inv opts total s) (hm : Move opts s s') (ht : 0 ≤ s.time) (hb : Begun s.sched) :
    Begun s'.sched := by
  have hne : s.time ≠ -1 := by omega
  cases hm with
  | quiet _ _ hsched => rwa [hsched]
  | finish i j r _ _ _ _ hcall => exact finished_begun hcall hb hne
  | expire i r _ hcall => exact expired_begun hcall hb hne
  | arrive i j c _ _ _ _ hcall =>
    have harr := begun_newJob h.lock.wf hb j.jobId j.runTime j.priority hne
    rwa [hcall] at harr
  | run _ _ hsched => rwa [hsched]

/-- **Jobs get a place when they arrive** only. -/
theorem move_places (h : Inv opts total s) (hm : Move opts s s') :
    ∀ p ∈ places s'.sched, p ∈ places s.sched ∨ ∃ (i : ℕ) (j : SimulatorJob), s.pc = .arrive i ∧
      s.jobs[i]? = some j ∧ j.arrived = false ∧ p = s.sched.fresh ∧
      s'.sched = (schedulerNewJob j.jobId s.time j.runTime j.priority s.sched).2 := by
  intro p hp
  cases hm with
  | quiet _ _ hsched => exact Or.inl (hsched ▸ hp)
  | finish i j r _ _ _ _ hcall =>
    obtain ⟨p₀, hp₀⟩ := finished_jobOn hcall
    obtain ⟨-, hperm, -⟩ := finished_call h.lock.wf hp₀ hcall
    exact Or.inl (hperm.mem_iff.mp (List.mem_cons_of_mem _ hp))
  | expire i r _ hcall =>
    obtain ⟨p₀, hp₀⟩ := expired_jobOn hcall
    obtain ⟨-, hperm, -⟩ := expired_call h.lock.wf hp₀ hcall
    exact Or.inl (hperm.mem_iff.mp hp)
  | arrive i j c hpc hi hnew _ hcall =>
    have he : s'.sched = (schedulerNewJob j.jobId s.time j.runTime j.priority s.sched).2 := by
      rw [hcall]
    rw [he] at hp
    have hperm := (newJob_spec h.lock.wf j.jobId s.time j.runTime j.priority).2.1
    rcases List.mem_cons.mp (hperm.mem_iff.mp hp) with rfl | hp
    · exact Or.inr ⟨i, j, hpc, hi, hnew, rfl, he⟩
    · exact Or.inl hp
  | run _ _ hsched => exact Or.inl (hsched ▸ hp)

/-! ### Expired quantums -/

/-- The calls of the library in a simulation with `RR`. -/
structure Told (opts : Options) (lines : List Line) (s : Sim) (calls : List Call) : Prop where
  run : History.Run opts.cores .rr calls s.sched
  past : ∀ c ∈ calls, c.time ≤ s.time
  jobs : ∀ x ∈ History.jobs calls, ∃ (k : ℕ) (l : Line), lines[k]? = some l ∧ x = told k l ∧
    ∀ j ∈ s.jobs, j.jobId = k → j.arrived = true

theorem arrivals_near (h : Workload lines) (hint : Ints lines) {k k' : ℕ} {l l' : Line}
    (hk : lines[k]? = some l) (hk' : lines[k']? = some l') : Fits .rr (told k l) (told k' l') := by
  have h1 := h l (List.mem_of_getElem? hk)
  have h2 := h l' (List.mem_of_getElem? hk')
  have h3 := hint l (List.mem_of_getElem? hk)
  have h4 := hint l' (List.mem_of_getElem? hk')
  simp only [Fits, Near, told, History.criterion]
  omega

theorem Told.later {calls : List Call} (ht : Told opts lines s calls)
    (hl : ∀ j' ∈ s'.jobs, ∃ j ∈ s.jobs, Later j j') :
    ∀ x ∈ History.jobs calls, ∃ (k : ℕ) (l : Line), lines[k]? = some l ∧ x = told k l ∧
      ∀ j ∈ s'.jobs, j.jobId = k → j.arrived = true := by
  intro x hx
  obtain ⟨k, l, hk, rfl, harr⟩ := ht.jobs x hx
  refine ⟨k, l, hk, rfl, fun j' hj' hid => ?_⟩
  obtain ⟨j, hj, hl⟩ := hl j' hj'
  by_contra ha
  have hold := (hl.whole (by simpa using ha)).1
  rw [harr j hj (hl.jobId.symm.trans hid)] at hold
  simp at hold

theorem arrived_new (h : Inv opts total s) (h' : Inv opts total s') {j j' : SimulatorJob} {c : ℤ}
    (hcall : schedulerNewJob j.jobId s.time j.runTime j.priority s.sched = (c, s'.sched))
    (hj' : j' ∈ s'.jobs) (hid : j'.jobId = j.jobId) : j'.arrived = true := by
  have hperm := (newJob_spec h.lock.wf j.jobId s.time j.runTime j.priority).2.1
  have hnew := (newJob_new h.lock.wf j.jobId s.time j.runTime j.priority).1
  rw [hcall] at hperm hnew
  obtain ⟨a, ha, harr, he⟩ := h'.exists_job (hperm.mem_iff.mpr (List.mem_cons_self ..))
  have haid : a.jobId = j.jobId := (congrArg Entry.jobNumber he).trans (congrArg Prod.fst hnew)
  rwa [List.inj_on_of_nodup_map h'.lock.ids hj' ha (hid.trans haid.symm)]

theorem line_inj (hd : (lines.map Line.arrivalTime).Nodup) {k k' : ℕ} {l l' : Line}
    (hk : lines[k]? = some l) (hk' : lines[k']? = some l') (he : l.arrivalTime = l'.arrivalTime) :
    k = k' := by
  have hlt : k < (lines.map Line.arrivalTime).length := by
    rw [List.length_map]
    exact (List.getElem?_eq_some_iff.mp hk).1
  refine (List.getElem?_inj hlt hd).mp ?_
  rw [List.getElem?_map, List.getElem?_map, hk, hk', Option.map_some, Option.map_some, he]

/-- **The calls of a simulation are a run of the library.** -/
theorem exists_told (hcores : 0 < opts.cores) (h : Workload lines) (hint : Ints lines)
    (hd : (lines.map Line.arrivalTime).Nodup) (hs : opts.scheme = .rr) (n : ℕ) :
    ∃ calls, Told opts lines (stateAt opts lines n) calls := by
  induction n with
  | zero =>
    refine ⟨[], ?_, by simp, by simp [History.jobs]⟩
    have hrun : History.Run opts.cores .rr [] (schedulerStartUp opts.cores .rr) := .startUp
    rwa [← hs] at hrun ⊢
  | succ n ih =>
    obtain ⟨calls, ht⟩ := ih
    have hinv := stateAt_inv hcores h n
    have hjobs := ht.later ((stateAt_move hcores h n).later hinv)
    have hle := time_le hcores h n
    have hpast : ∀ c ∈ calls, c.time ≤ (stateAt opts lines (n + 1)).time :=
      fun c hc => (ht.past c hc).trans hle
    cases stateAt_move hcores h n with
    | quiet _ _ hsched => exact ⟨calls, hsched ▸ ht.run, hpast, hjobs⟩
    | finish i j r _ _ _ _ hcall =>
      obtain ⟨p, hp⟩ := finished_jobOn hcall
      exact ⟨.jobFinished j.coreId j.jobId (stateAt opts lines n).time :: calls,
        .call ht.run ht.past (Option.isSome_iff_exists.mpr ⟨p, hp⟩) hcall,
        List.forall_mem_cons.mpr ⟨hle, hpast⟩, hjobs⟩
    | expire i r _ hcall =>
      obtain ⟨p, hp⟩ := expired_jobOn hcall
      exact ⟨.quantumExpired i (stateAt opts lines n).time :: calls,
        .call ht.run ht.past ⟨rfl, Option.isSome_iff_exists.mpr ⟨p, hp⟩⟩ hcall,
        List.forall_mem_cons.mpr ⟨hle, hpast⟩, hjobs⟩
    | arrive i j c _ hi hnew hdue hcall =>
      obtain ⟨k, l, hk, ho⟩ := origin hcores h n j (List.mem_of_getElem? hi)
      have htold : (j.jobId, (stateAt opts lines n).time, j.runTime, j.priority) = told k l := by
        rw [told, ← ho.jobId, ← ho.arrivalTime, ← ho.whole hnew, ← ho.priority, hdue]
      refine ⟨.newJob j.jobId (stateAt opts lines n).time j.runTime j.priority :: calls,
        .call ht.run ht.past (fun x hx => ?_) (congrArg some hcall),
        List.forall_mem_cons.mpr ⟨hle, hpast⟩, fun x hx => ?_⟩
      · obtain ⟨k', l', hk', rfl, harr⟩ := ht.jobs x hx
        have hne : k' ≠ k := fun he => by
          have := harr j (List.mem_of_getElem? hi) (ho.jobId.trans (he ▸ rfl))
          rw [hnew] at this
          simp at this
        rw [htold]
        refine ⟨⟨fun he => hne ?_, fun he => hne ?_⟩, arrivals_near h hint hk hk',
          arrivals_near h hint hk' hk⟩
        · have hid : (k' : ℤ) = k := he.trans ho.jobId
          omega
        · exact line_inj hd hk' hk (he.trans (hdue.symm.trans ho.arrivalTime))
      · rcases List.mem_cons.mp (show x ∈ _ :: History.jobs calls from hx) with rfl | hx
        · refine ⟨k, l, hk, htold, fun j' hj' hid => ?_⟩
          exact arrived_new hinv (stateAt_inv hcores h (n + 1)) hcall hj' (hid.trans ho.jobId.symm)
        · exact hjobs x hx
    | run _ _ hsched => exact ⟨calls, hsched ▸ ht.run, hpast, hjobs⟩

/-- **A job that starts keeps its core** until time goes on, unless it is overtaken. -/
theorem start_stays (hcores : 0 < opts.cores) (h : Workload lines) (hint : Ints lines)
    (hd : (lines.map Line.arrivalTime).Nodup) {n p : ℕ}
    (hno : ¬ Overtakes (stateAt opts lines n) ((stateAt opts lines n).sched.heap p).jobNumber)
    (hp : some p ∈ (stateAt opts lines n).sched.coreJobPtrs)
    (ht : ((stateAt opts lines n).sched.heap p).startTime = (stateAt opts lines n).time)
    (hp' : p ∈ places (stateAt opts lines (n + 1)).sched) :
    some p ∈ (stateAt opts lines (n + 1)).sched.coreJobPtrs := by
  have hw := (stateAt_inv hcores h n).lock.wf
  cases stateAt_move hcores h n with
  | quiet _ _ hsched => rwa [hsched]
  | finish i j r _ _ _ _ hcall =>
    obtain ⟨p₀, hp₀⟩ := finished_jobOn hcall
    obtain ⟨-, hperm, -⟩ := finished_call hw hp₀ hcall
    have hnd := hperm.nodup_iff.mpr hw.nodup
    exact finished_stays hp₀ hcall hp fun he => (List.nodup_cons.mp hnd).1 (he ▸ hp')
  | expire i r hpc hcall =>
    -- under `RR` the job gets its core back
    obtain ⟨calls, htold⟩ := exists_told hcores h hint hd (quantum_rr n hpc) n
    obtain ⟨p₀, hp₀⟩ := expired_jobOn hcall
    obtain ⟨_, hcall', hslots, -⟩ := expired_same (t := (stateAt opts lines n).time) htold.run hp₀
    have heq := hcall'.symm.trans hcall
    rw [Option.some.injEq, Prod.mk.injEq] at heq
    rwa [← heq.2, hslots]
  | arrive i j c hpc hi _ hdue hcall =>
    have hstay := newJob_stays j.jobId (stateAt opts lines n).time j.runTime j.priority hp
      fun hn c hv => hno ⟨i, j, p, c, hpc, hi, hdue, hn, hv, ht, rfl⟩
    rwa [hcall] at hstay
  | run _ _ hsched => rwa [hsched]

/-! ### Start times and units -/

/-- A job that has no start time was not executed, and the others were not executed before it. -/
structure Timed (s : Sim) (tr : List Event) : Prop where
  begun : Begun s.sched
  never : ∀ p ∈ places s.sched, (s.sched.heap p).startTime = -1 →
    ranUnits tr (s.sched.heap p).jobNumber = ∅
  after : ∀ p ∈ places s.sched, (s.sched.heap p).startTime ≠ -1 →
    (s.sched.heap p).startTime ≤ s.time ∧
      ∀ u ∈ ranUnits tr (s.sched.heap p).jobNumber, (s.sched.heap p).startTime ≤ u

theorem ranUnits_new (hcores : 0 < opts.cores) (h : Workload lines) {n : ℕ} {j : SimulatorJob}
    (hj : j ∈ (stateAt opts lines n).jobs) (hnew : j.arrived = false) :
    ranUnits (trace opts lines n) j.jobId = ∅ := by
  obtain ⟨k, l, hk, ho⟩ := origin hcores h n j hj
  have halive := (executed hcores h n).alive j hj
  rw [lineOf_origin hk ho, ho.whole hnew] at halive
  rw [← Finset.card_eq_zero]
  omega

/-- What the run phase adds for a job that has a place. -/
theorem ranUnits_place (hcores : 0 < opts.cores) (h : Workload lines) {n : ℕ}
    (hpc : (stateAt opts lines n).pc = .run) {p : ℕ} (hp : p ∈ places (stateAt opts lines n).sched) :
    ranUnits (trace opts lines (n + 1)) ((stateAt opts lines n).sched.heap p).jobNumber =
      if some p ∈ (stateAt opts lines n).sched.coreJobPtrs then insert (stateAt opts lines n).time
        (ranUnits (trace opts lines n) ((stateAt opts lines n).sched.heap p).jobNumber)
      else ranUnits (trace opts lines n) ((stateAt opts lines n).sched.heap p).jobNumber := by
  have hinv := stateAt_inv hcores h n
  obtain ⟨j, hj, -, he⟩ := hinv.exists_job hp
  have hid : j.jobId = ((stateAt opts lines n).sched.heap p).jobNumber := congrArg Entry.jobNumber he
  have hcore : j.coreId = ((stateAt opts lines n).sched.heap p).coreId := congrArg Entry.coreId he
  have hon : j.coreId = -1 ↔ some p ∉ (stateAt opts lines n).sched.coreJobPtrs := by
    refine ⟨fun hc hm => ?_, fun hm => ?_⟩
    · obtain ⟨c, hslot⟩ := List.mem_iff_getElem?.mp hm
      have hcid := hinv.lock.wf.core_id c p hslot
      omega
    · refine (hinv.range hj).resolve_right fun hr => hm ?_
      have hslot := (coreId_iff hinv.lock.wf.toHeld hp j.coreId.toNat).mp (by omega)
      exact List.mem_of_getElem? hslot
  rw [← hid, ranUnits_run hcores h hpc hj]
  by_cases hm : some p ∈ (stateAt opts lines n).sched.coreJobPtrs
  · rw [if_pos hm, if_neg fun hc => hon.mp hc hm]
  · rw [if_neg hm, if_pos (hon.mpr hm)]

/-- **What a callback does to start times**: a record stays, or its job was not executed yet and starts
now or not. -/
theorem record_step (hcores : 0 < opts.cores) (h : Workload lines) {n : ℕ}
    (ht : Timed (stateAt opts lines n) (trace opts lines n)) :
    ∀ p ∈ places (stateAt opts lines (n + 1)).sched,
      (p ∈ places (stateAt opts lines n).sched ∧
        ((stateAt opts lines (n + 1)).sched.heap p).jobNumber =
          ((stateAt opts lines n).sched.heap p).jobNumber ∧
        ((stateAt opts lines (n + 1)).sched.heap p).startTime =
          ((stateAt opts lines n).sched.heap p).startTime) ∨
      (stateAt opts lines n).pc ≠ .run ∧
      ranUnits (trace opts lines n) ((stateAt opts lines (n + 1)).sched.heap p).jobNumber = ∅ ∧
        (((stateAt opts lines (n + 1)).sched.heap p).startTime = -1 ∨
          ((stateAt opts lines (n + 1)).sched.heap p).startTime = (stateAt opts lines n).time ∧
            some p ∈ (stateAt opts lines (n + 1)).sched.coreJobPtrs) := by
  intro p hp
  have hinv := stateAt_inv hcores h n
  have hm := stateAt_move hcores h n
  have htime := time_nonneg hcores h n
  rcases move_places hinv hm p hp with hold | ⟨i, j, hpc, hi, hnew, rfl, he⟩
  · have hlt := hinv.lock.wf.lt_fresh hold
    have hnum := congrArg Prod.fst ((move_keeps hinv hm).static p hlt)
    rcases move_starts hinv hm p hlt with hsame | ⟨hnone, hset⟩
    · exact Or.inl ⟨hold, hnum, hsame⟩
    · have hne : (stateAt opts lines (n + 1)).sched.heap p ≠ (stateAt opts lines n).sched.heap p :=
        fun he => by
          rw [he, hnone] at hset
          omega
      refine Or.inr ⟨fun hpc => hne (by rw [(hm.of_run hpc).2.1]), ?_, Or.inr ⟨hset, ?_⟩⟩
      · rw [show ((stateAt opts lines (n + 1)).sched.heap p).jobNumber = _ from hnum]
        exact ht.never p hold hnone
      · -- the record of a job that waits does not change
        rcases List.mem_append.mp hp with hon | hq'
        · exact List.reduceOption_mem_iff.mp hon
        · rcases List.mem_append.mp hold with hon | hq
          · exact absurd hnone (ht.begun p (List.reduceOption_mem_iff.mp hon))
          · rw [stateAt_succ] at hne hq'
            exact absurd (Runs.step_queued hcores hinv hq hq') hne
  · have hnum := (newJob_new hinv.lock.wf j.jobId (stateAt opts lines n).time j.runTime j.priority).1
    have hstart := newJob_start hinv.lock.wf j.jobId (stateAt opts lines n).time j.runTime j.priority
    rw [← he] at hnum hstart
    refine Or.inr ⟨by simp [hpc], ?_, ?_⟩
    · rw [show ((stateAt opts lines (n + 1)).sched.heap _).jobNumber = _ from congrArg Prod.fst hnum]
      exact ranUnits_new hcores h (List.mem_of_getElem? hi) hnew
    · rw [hstart]
      split_ifs with hon
      · exact Or.inr ⟨rfl, hon⟩
      · exact Or.inl rfl

theorem timed (hcores : 0 < opts.cores) (h : Workload lines) (n : ℕ) :
    Timed (stateAt opts lines n) (trace opts lines n) := by
  induction n with
  | zero =>
    have hnil : ∀ p, p ∉ places (stateAt opts lines 0).sched := fun p hp => by
      simp [places, stateAt, start, schedulerStartUp, List.reduceOption_replicate_none] at hp
    refine ⟨fun p hp => absurd (mem_places_on hp) (hnil p),
      fun p hp => absurd hp (hnil p), fun p hp => absurd hp (hnil p)⟩
  | succ n ih =>
    have hinv := stateAt_inv hcores h n
    have hm := stateAt_move hcores h n
    have hle := time_le hcores h n
    have hbegun := move_begun hinv hm (time_nonneg hcores h n) ih.begun
    -- the units of a job that keeps its record
    have hunits : ∀ p ∈ places (stateAt opts lines n).sched,
        ∀ u ∈ ranUnits (trace opts lines (n + 1)) ((stateAt opts lines n).sched.heap p).jobNumber,
          u ∈ ranUnits (trace opts lines n) ((stateAt opts lines n).sched.heap p).jobNumber ∨
            u = (stateAt opts lines n).time ∧ some p ∈ (stateAt opts lines n).sched.coreJobPtrs := by
      intro p hp u hu
      by_cases hpc : (stateAt opts lines n).pc = .run
      · rw [ranUnits_place hcores h hpc hp] at hu
        split_ifs at hu with hon
        · exact (Finset.mem_insert.mp hu).symm.imp_right fun he => ⟨he, hon⟩
        · exact Or.inl hu
      · rw [ranUnits_same hpc] at hu
        exact Or.inl hu
    refine ⟨hbegun, fun p hp hnone => ?_, fun p hp hset => ?_⟩
    · rcases record_step hcores h ih p hp with ⟨hold, hnum, hsame⟩ | ⟨hpc, hnil, -⟩
      · rw [hsame] at hnone
        rw [hnum, Finset.eq_empty_iff_forall_notMem]
        intro u hu
        rcases hunits p hold u hu with hu | ⟨-, hon⟩
        · rw [ih.never p hold hnone] at hu
          simp at hu
        · exact ih.begun p hon hnone
      · rw [ranUnits_same hpc, hnil]
    · rcases record_step hcores h ih p hp with ⟨hold, hnum, hsame⟩ | ⟨hpc, hnil, hstart⟩
      · rw [hsame] at hset ⊢
        obtain ⟨hpast, hfirst⟩ := ih.after p hold hset
        refine ⟨hpast.trans hle, fun u hu => ?_⟩
        rw [hnum] at hu
        rcases hunits p hold u hu with hu | ⟨rfl, -⟩
        · exact hfirst u hu
        · exact hpast
      · rw [ranUnits_same hpc, hnil]
        have hnow := (hstart.resolve_left hset).1
        exact ⟨hnow.le.trans hle, by simp⟩

/-! ### What a finish adds -/

theorem ran_late (hcores : 0 < opts.cores) (h : Workload lines) (m : ℕ) {n : ℕ} {k c u : ℤ}
    (hr : .ran k c u ∈ trace opts lines n) :
    .ran k c u ∈ trace opts lines m ∨ (stateAt opts lines m).time ≤ u := by
  induction n with
  | zero => simp [trace] at hr
  | succ n ih =>
    by_cases hnm : n < m
    · exact Or.inl (ran_mono hnm hr)
    · rcases (ran_succ n).mp hr with hr | ⟨-, rfl, -⟩
      · exact ih hr
      · exact Or.inr (time_mono hcores h (not_lt.mp hnm))

/-- **The response time of a job** that finishes is taken from its start time. -/
theorem finish_response (hcores : 0 < opts.cores) (h : Workload lines) {m k : ℕ} {t : ℤ}
    (hf : .finished k t ∈ events (stateAt opts lines m)) :
    ∃ p, some p ∈ (stateAt opts lines m).sched.coreJobPtrs ∧
      ((stateAt opts lines m).sched.heap p).jobNumber = k ∧
      ((stateAt opts lines m).sched.heap p).arrivalTime = (lineOf lines k).arrivalTime ∧
      (ranUnits (trace opts lines m) k).Nonempty ∧
      (stateAt opts lines (m + 1)).sched.floats.responseTime =
        float32 ((stateAt opts lines m).sched.floats.responseTime +
          float32 (((stateAt opts lines m).sched.heap p).startTime -
            ((stateAt opts lines m).sched.heap p).arrivalTime)) := by
  obtain ⟨i, j, hpc, hi, h0, hk, -⟩ := mem_events_finished.mp hf
  have hinv := stateAt_inv hcores h m
  have hj := List.mem_of_getElem? hi
  obtain ⟨k', l, hl, ho⟩ := origin hcores h m j hj
  obtain rfl : k' = k := by
    have := ho.jobId
    omega
  cases stateAt_move hcores h m with
  | quiet hev => simp [hev] at hf
  | finish i' j' r hpc' hi' _ hcore hcall =>
    rw [hpc, Pc.finish.injEq] at hpc'
    rw [← hpc', hi, Option.some.injEq] at hi'
    subst hi'
    obtain ⟨p, hp, hon, he, -⟩ := finished_statics hinv hj hcore hcall
    have hst := record_of_job hcores h hl ho hp he
    simp only [static, told, Prod.mk.injEq] at hst
    refine ⟨p, List.mem_of_getElem? (jobOn_eq hon).2, hst.1, ?_, ?_, ?_⟩
    · rw [lineOf_eq hl]
      exact hst.2.1
    · have halive := (executed hcores h m).alive j hj
      rw [h0, lineOf_origin hl ho, ← hk] at halive
      have hpos := (h l (List.mem_of_getElem? hl)).1
      rw [← Finset.card_pos]
      omega
    · exact congrArg (fun x : ℚ × ℚ × ℚ × FloatTotals => x.2.2.2.responseTime)
        (finished_totals hon hcall)
  | expire i' r hpc' => simp [hpc] at hpc'
  | arrive i' j' c hpc' => simp [hpc] at hpc'
  | run hpc' => simp [hpc] at hpc'

/-! ### Without overtaking -/

/-- A job that is not overtaken is executed when it starts. -/
theorem started_ran (hcores : 0 < opts.cores) (h : Workload lines) (hint : Ints lines)
    (hd : (lines.map Line.arrivalTime).Nodup) {k : ℤ}
    (hno : ∀ n, ¬ Overtakes (stateAt opts lines n) k) (n : ℕ) :
    ∀ p ∈ places (stateAt opts lines n).sched, ((stateAt opts lines n).sched.heap p).jobNumber = k →
      ((stateAt opts lines n).sched.heap p).startTime ≠ -1 →
      ((stateAt opts lines n).sched.heap p).startTime ∈ ranUnits (trace opts lines n) k ∨
      ((stateAt opts lines n).sched.heap p).startTime = (stateAt opts lines n).time ∧
        some p ∈ (stateAt opts lines n).sched.coreJobPtrs := by
  induction n with
  | zero =>
    intro p hp
    simp [places, stateAt, start, schedulerStartUp, List.reduceOption_replicate_none] at hp
  | succ n ih =>
    intro p hp hk hset
    rcases record_step hcores h (timed hcores h n) p hp with ⟨hold, hnum, hsame⟩ | ⟨hpc, -, hstart⟩
    · rw [hsame] at hset
      have hk' := hnum.symm.trans hk
      rw [hsame]
      rcases ih p hold hk' hset with hran | ⟨hnow, hon⟩
      · obtain ⟨c, hr⟩ := mem_ranUnits.mp hran
        exact Or.inl (mem_ranUnits.mpr ⟨c, ran_mono (Nat.le_succ n) hr⟩)
      · by_cases hpc : (stateAt opts lines n).pc = .run
        · rw [← hk', ranUnits_place hcores h hpc hold, if_pos hon, hnow]
          exact Or.inl (Finset.mem_insert_self ..)
        · rw [time_same hcores h hpc]
          exact Or.inr ⟨hnow, start_stays hcores h hint hd (hk' ▸ hno n) hon hnow hp⟩
    · rw [time_same hcores h hpc]
      exact Or.inr (hstart.resolve_left hset)

/-- The first unit of a job that is not overtaken is the one in which it starts. -/
theorem first_start (hcores : 0 < opts.cores) (h : Workload lines) (hint : Ints lines)
    (hd : (lines.map Line.arrivalTime).Nodup) {k m p : ℕ}
    (hno : ∀ n, ¬ Overtakes (stateAt opts lines n) k)
    (hon : some p ∈ (stateAt opts lines m).sched.coreJobPtrs)
    (hnum : ((stateAt opts lines m).sched.heap p).jobNumber = k)
    (hran : (ranUnits (trace opts lines m) k).Nonempty) :
    FirstUnit opts lines k ((stateAt opts lines m).sched.heap p).startTime := by
  obtain ⟨u, hu⟩ := hran
  have hp : p ∈ places (stateAt opts lines m).sched := mem_places_on hon
  have htimed := timed hcores h m
  have hset := htimed.begun p hon
  obtain ⟨hpast, hfirst⟩ := htimed.after p hp hset
  rw [hnum] at hfirst
  have hstart : ((stateAt opts lines m).sched.heap p).startTime ∈ ranUnits (trace opts lines m) k := by
    rcases started_ran hcores h hint hd hno m p hp hnum hset with hran | ⟨hnow, -⟩
    · exact hran
    · -- the job was executed before
      have hlt := ranUnits_past hcores h hu
      have hle := hfirst u hu
      omega
  constructor
  · obtain ⟨c, hr⟩ := mem_ranUnits.mp hstart
    exact ⟨m, c, hr⟩
  · rintro v ⟨n, c, hr⟩
    rcases ran_late hcores h m hr with hr | hle
    · exact hfirst v (mem_ranUnits.mpr ⟨c, hr⟩)
    · exact hpast.trans hle

/-! ### With overtaking -/

/-- The main loop is past the callbacks that give cores to jobs that wait. -/
def Late (pc : Pc) : Prop := (∃ i, pc = .arrive i) ∨ pc = .run ∨ ∃ why, pc = .stop why

/-- From the arrivals the main loop goes on to the run phase. -/
theorem late_step (hl : Late s.pc) (hpc : s.pc ≠ .run) : Late (step opts s).pc := by
  rcases hl with ⟨i, hi⟩ | hrun | ⟨why, hw⟩
  · simp only [step, hi, arriveStep]
    cases s.jobs[i]? with
    | none => exact Or.inr (Or.inl rfl)
    | some j =>
      simp only
      split_ifs
      · exact Or.inl ⟨i + 1, rfl⟩
      · exact Or.inl ⟨i + 1, rfl⟩
      · exact Or.inr (Or.inr ⟨_, rfl⟩)
      · exact Or.inl ⟨i + 1, rfl⟩
  · exact absurd hrun hpc
  · simp only [step, hw]
    exact Or.inr (Or.inr ⟨why, rfl⟩)

/-- Job `k`, whose record is `w`, started at `t` and was not executed at `t`. -/
structure Overtaken (k : ℤ) (w : ℕ) (t : ℤ) (s : Sim) (tr : List Event) : Prop where
  start : (s.sched.heap w).startTime = t
  fresh : w < s.sched.fresh
  only : ∀ p ∈ places s.sched, (s.sched.heap p).jobNumber = k → p = w
  arrived : ∀ j ∈ s.jobs, j.jobId = k ∨ j.arrivalTime = t → j.arrived = true
  never : t ∉ ranUnits tr k
  past : t < s.time ∨ s.time = t ∧ Late s.pc ∧ ∀ j ∈ s.jobs, j.jobId = k → j.coreId = -1

theorem arrived_later {P : ℤ → ℤ → Prop} (hl : ∀ j' ∈ s'.jobs, ∃ j ∈ s.jobs, Later j j')
    (h : ∀ j ∈ s.jobs, P j.jobId j.arrivalTime → j.arrived = true) :
    ∀ j ∈ s'.jobs, P j.jobId j.arrivalTime → j.arrived = true := by
  intro j' hj' hP
  obtain ⟨j, hj, hlater⟩ := hl j' hj'
  by_contra ha
  rw [hlater.jobId, hlater.arrivalTime] at hP
  have hold := (hlater.whole (by simpa using ha)).1
  rw [h j hj hP] at hold
  simp at hold

theorem overtaken_step (hcores : 0 < opts.cores) (h : Workload lines) {n : ℕ} {k t : ℤ} {w : ℕ}
    (ht : 0 ≤ t) (ho : Overtaken k w t (stateAt opts lines n) (trace opts lines n)) :
    Overtaken k w t (stateAt opts lines (n + 1)) (trace opts lines (n + 1)) := by
  have hinv := stateAt_inv hcores h n
  have hm := stateAt_move hcores h n
  have hk := move_keeps hinv hm
  refine ⟨?_, lt_of_lt_of_le ho.fresh hk.fresh, fun p hp hnum => ?_,
    arrived_later (P := fun id a => id = k ∨ a = t) (hm.later hinv) ho.arrived, fun hu => ?_, ?_⟩
  · rcases move_starts hinv hm w ho.fresh with hsame | ⟨hnone, -⟩
    · exact hsame.trans ho.start
    · have := ho.start
      omega
  · rcases move_places hinv hm p hp with hold | ⟨i, j, -, hi, hnew, rfl, he⟩
    · have hst := congrArg Prod.fst (hk.static p (hinv.lock.wf.lt_fresh hold))
      exact ho.only p hold (hst.symm.trans hnum)
    · have hst := (newJob_new hinv.lock.wf j.jobId (stateAt opts lines n).time j.runTime j.priority).1
      rw [← he] at hst
      have hid : j.jobId = k := (congrArg Prod.fst hst).symm.trans hnum
      have harr := ho.arrived j (List.mem_of_getElem? hi) (Or.inl hid)
      rw [hnew] at harr
      simp at harr
  · obtain ⟨c, hr⟩ := mem_ranUnits.mp hu
    rcases (ran_succ n).mp hr with hr | ⟨-, hnow, j, hj, hc, hid, -⟩
    · exact ho.never (mem_ranUnits.mpr ⟨c, hr⟩)
    · rcases ho.past with hlt | ⟨-, -, hoff⟩
      · omega
      · exact hc (hoff j hj hid)
  · rcases ho.past with hlt | ⟨hnow, hlate, hoff⟩
    · exact Or.inl (hlt.trans_le (time_le hcores h n))
    · by_cases hpc : (stateAt opts lines n).pc = .run
      · rw [time_run hcores h hpc]
        exact Or.inl (by omega)
      · refine Or.inr ⟨(time_same hcores h hpc).trans hnow, ?_, ?_⟩
        · rw [stateAt_succ]
          exact late_step hlate hpc
        · -- no further job arrives at this time
          cases hm with
          | quiet _ hjobs => rwa [hjobs]
          | finish i j r hpc' => simp [Late, hpc'] at hlate
          | expire i r hpc' => simp [Late, hpc'] at hlate
          | arrive i j c _ hi hnew hdue =>
            have harr := ho.arrived j (List.mem_of_getElem? hi) (Or.inr (hdue.trans hnow))
            rw [hnew] at harr
            simp at harr
          | run hpc' => exact absurd hpc' hpc

theorem arrive_sched {i : ℕ} {j : SimulatorJob} (hpc : s.pc = .arrive i)
    (hi : s.jobs[i]? = some j) (hdue : j.arrivalTime = s.time) :
    (step opts s).sched = (schedulerNewJob j.jobId s.time j.runTime j.priority s.sched).2 := by
  simp only [step, hpc, arriveStep, hi, if_pos hdue]
  split_ifs <;> rfl

/-- At an arrival all jobs of that time have arrived. -/
theorem arrived_due (hcores : 0 < opts.cores) (h : Workload lines)
    (hd : (lines.map Line.arrivalTime).Nodup) {n i : ℕ} {j j' : SimulatorJob}
    (hpc : (stateAt opts lines n).pc = .arrive i) (hi : (stateAt opts lines n).jobs[i]? = some j)
    (hdue : j.arrivalTime = (stateAt opts lines n).time)
    (hj' : j' ∈ (stateAt opts lines (n + 1)).jobs)
    (hdue' : j'.arrivalTime = (stateAt opts lines n).time) : j'.arrived = true := by
  have hsched : (stateAt opts lines (n + 1)).sched = (schedulerNewJob j.jobId
      (stateAt opts lines n).time j.runTime j.priority (stateAt opts lines n).sched).2 := by
    rw [stateAt_succ]
    exact arrive_sched hpc hi hdue
  obtain ⟨k, l, hl, ho⟩ := origin hcores h n j (List.mem_of_getElem? hi)
  obtain ⟨k', l', hl', ho'⟩ := origin hcores h (n + 1) j' hj'
  -- the two are the same line
  have hkk := line_inj hd hl' hl
    (ho'.arrivalTime.symm.trans (hdue'.trans (hdue.symm.trans ho.arrivalTime)))
  exact arrived_new (stateAt_inv hcores h n) (stateAt_inv hcores h (n + 1)) (Prod.ext rfl hsched.symm) hj'
    (ho'.jobId.trans (hkk ▸ ho.jobId.symm))

/-- **The victim of an overtaking** goes to the queue. -/
theorem overtaken_queued (hcores : 0 < opts.cores) (h : Workload lines) {n : ℕ} {k : ℤ}
    (hover : Overtakes (stateAt opts lines n) k) :
    ∃ w ∈ places (stateAt opts lines n).sched, w ∈ (stateAt opts lines (n + 1)).sched.jobQueue ∧
      ((stateAt opts lines n).sched.heap w).startTime = (stateAt opts lines n).time ∧
      ((stateAt opts lines n).sched.heap w).jobNumber = k ∧
      ((stateAt opts lines (n + 1)).sched.heap w).jobNumber = k := by
  obtain ⟨i, j, w, c, hpc, hi, hdue, hn, hv, hstart, hid⟩ := hover
  have hinv := stateAt_inv hcores h n
  have hslot := victim_slot hv
  rw [arrive_coreJobPtrs] at hslot
  have hw := mem_places_slot hslot
  refine ⟨w, hw, ?_, hstart, hid, ?_⟩
  · rw [stateAt_succ, arrive_sched hpc hi hdue]
    exact newJob_victim hn hv
  · have hkeeps := move_keeps hinv (stateAt_move hcores h n)
    exact (congrArg Prod.fst (hkeeps.static w (hinv.lock.wf.lt_fresh hw))).trans hid

/-- **The victim of an overtaking** waits from then on. -/
theorem overtaken_start (hcores : 0 < opts.cores) (h : Workload lines)
    (hd : (lines.map Line.arrivalTime).Nodup) {n : ℕ} {k : ℤ}
    (hover : Overtakes (stateAt opts lines n) k) :
    ∃ w, (∃ j ∈ (stateAt opts lines (n + 1)).jobs, j.jobId = k) ∧
      Overtaken k w (stateAt opts lines n).time (stateAt opts lines (n + 1))
        (trace opts lines (n + 1)) := by
  obtain ⟨w, hw, hqueue, hstart, hid, hid'⟩ := overtaken_queued hcores h hover
  obtain ⟨i, j, -, -, hpc, hi, hdue, -⟩ := hover
  have hinv := stateAt_inv hcores h n
  have hinv' := stateAt_inv hcores h (n + 1)
  have hm := stateAt_move hcores h n
  have htime := time_nonneg hcores h n
  have hrun : (stateAt opts lines n).pc ≠ .run := by simp [hpc]
  have hw' := mem_places_queue hqueue
  obtain ⟨a, ha, haarr, hae⟩ := hinv.exists_job hw
  obtain ⟨a', ha', -, hae'⟩ := hinv'.exists_job hw'
  have haid : a.jobId = k := (congrArg Entry.jobNumber hae).trans hid
  have haid' : a'.jobId = k := (congrArg Entry.jobNumber hae').trans hid'
  refine ⟨w, ⟨a', ha', haid'⟩, ?_,
    hinv'.lock.wf.lt_fresh hw', fun p hp hnum => ?_, ?_, fun hu => ?_, Or.inr ⟨?_, ?_, ?_⟩⟩
  · rcases move_starts hinv hm w (hinv.lock.wf.lt_fresh hw) with hsame | ⟨hnone, -⟩
    · exact hsame.trans hstart
    · omega
  · exact hinv'.place_unique hp hw' (hnum.trans hid'.symm)
  · rintro j' hj' (hj'k | hj't)
    · refine arrived_later (P := fun id _ => id = k) (hm.later hinv) (fun b hb hbk => ?_) j' hj' hj'k
      rwa [List.inj_on_of_nodup_map hinv.lock.ids hb ha (hbk.trans haid.symm)]
    · exact arrived_due hcores h hd hpc hi hdue hj' hj't
  · rw [ranUnits_same hrun] at hu
    exact absurd (ranUnits_past hcores h hu) (lt_irrefl _)
  · exact time_same hcores h hrun
  · rw [stateAt_succ]
    exact late_step (Or.inl ⟨i, hpc⟩) hrun
  · intro j' hj' hj'k
    obtain rfl := List.inj_on_of_nodup_map hinv'.lock.ids hj' ha' (hj'k.trans haid'.symm)
    exact (congrArg Entry.coreId hae').trans (hinv'.lock.wf.queue_id w hqueue)

/-- The start time of a job that was overtaken, when it finishes. -/
theorem overtaken_finish (hcores : 0 < opts.cores) (h : Workload lines)
    (hd : (lines.map Line.arrivalTime).Nodup) {n m p : ℕ} {k t : ℤ}
    (hover : Overtakes (stateAt opts lines n) k) (hf : .finished k t ∈ events (stateAt opts lines m))
    (hon : some p ∈ (stateAt opts lines m).sched.coreJobPtrs)
    (hnum : ((stateAt opts lines m).sched.heap p).jobNumber = k) :
    ((stateAt opts lines m).sched.heap p).startTime = (stateAt opts lines n).time ∧
      ∀ m' c, .ran k c (stateAt opts lines n).time ∉ trace opts lines m' := by
  obtain ⟨w, ⟨j, hj, hid⟩, hstart⟩ := overtaken_start hcores h hd hover
  have hall : ∀ m, n + 1 ≤ m → Overtaken k w (stateAt opts lines n).time (stateAt opts lines m)
      (trace opts lines m) := by
    intro m hm
    induction hm with
    | refl => exact hstart
    | step _ ih => exact overtaken_step hcores h (time_nonneg hcores h n) ih
  have hlt : n + 1 ≤ m := by
    by_contra hmn
    have hmem : .finished k t ∈ trace opts lines (n + 1) :=
      List.mem_flatMap.mpr ⟨m, List.mem_range.mpr (by omega), hf⟩
    exact finished_gone hcores h hmem j hj hid
  have hp : p ∈ places (stateAt opts lines m).sched := mem_places_on hon
  constructor
  · rw [(hall m hlt).only p hp hnum, (hall m hlt).start]
  · intro m' c hr
    exact (hall _ (le_max_right m' (n + 1))).never
      (mem_ranUnits.mpr ⟨c, ran_mono (le_max_left m' (n + 1)) hr⟩)

/-! ### The response times -/

/-- **How long a job is kept from running** is the time from its start to its first unit. -/
theorem kept_iff (hcores : 0 < opts.cores) (h : Workload lines) (hint : Ints lines)
    (hd : (lines.map Line.arrivalTime).Nodup) {k m p : ℕ} {t : ℤ}
    (hf : .finished k t ∈ events (stateAt opts lines m))
    (hon : some p ∈ (stateAt opts lines m).sched.coreJobPtrs)
    (hnum : ((stateAt opts lines m).sched.heap p).jobNumber = k)
    (hran : (ranUnits (trace opts lines m) k).Nonempty) (d : ℤ) :
    Kept opts lines k d ↔
      FirstUnit opts lines k (((stateAt opts lines m).sched.heap p).startTime + d) := by
  constructor
  · rintro (⟨n, hover, hfirst⟩ | ⟨hno, rfl⟩)
    · rwa [(overtaken_finish hcores h hd hover hf hon hnum).1]
    · rw [add_zero]
      exact first_start hcores h hint hd hno hon hnum hran
  · intro hfirst
    by_cases hover : ∃ n, Overtakes (stateAt opts lines n) k
    · obtain ⟨n, hover⟩ := hover
      rw [(overtaken_finish hcores h hd hover hf hon hnum).1] at hfirst
      exact Or.inl ⟨n, hover, hfirst⟩
    · rw [not_exists] at hover
      have heq := hfirst.unique (first_start hcores h hint hd hover hon hnum hran)
      exact Or.inr ⟨hover, by omega⟩

theorem exact_iff (hcores : 0 < opts.cores) (h : Workload lines) (hint : Ints lines)
    (hd : (lines.map Line.arrivalTime).Nodup) (k : ℕ) :
    Exact opts lines k ↔ ∃ m t d, .finished k t ∈ events (stateAt opts lines m) ∧
      Kept opts lines k d ∧ RoundsBy (stateAt opts lines m) k d := by
  constructor
  · rintro ⟨m, t, u, hf, hfirst, hadd⟩
    obtain ⟨p, hon, hnum, harr, hran, hnext⟩ := finish_response hcores h hf
    refine ⟨m, t, u - ((stateAt opts lines m).sched.heap p).startTime, hf, ?_, p, hon, hnum, ?_⟩
    · rw [kept_iff hcores h hint hd hf hon hnum hran, add_sub_cancel]
      exact hfirst
    · rw [← hnext, hadd, harr]
      omega
  · rintro ⟨m, t, d, hf, hkept, q, hq, hqnum, hround⟩
    obtain ⟨p, hon, hnum, harr, hran, hnext⟩ := finish_response hcores h hf
    obtain rfl := (stateAt_inv hcores h m).place_unique (mem_places_on hon) (mem_places_on hq)
      (hnum.trans hqnum.symm)
    refine ⟨m, t, _, hf, (kept_iff hcores h hint hd hf hon hnum hran d).mp hkept, ?_⟩
    rw [hnext, hround, harr]
    omega

/-- Only a scheme that preempts lets jobs be overtaken. -/
theorem overtakes_preempts (hcores : 0 < opts.cores) (h : Workload lines) {n : ℕ} {k : ℤ}
    (hover : Overtakes (stateAt opts lines n) k) : opts.scheme = .psjf ∨ opts.scheme = .ppri := by
  obtain ⟨i, j, w, c, -, -, -, -, hv, -⟩ := hover
  have hscheme : (arrive j.jobId (stateAt opts lines n).time j.runTime j.priority
      (stateAt opts lines n).sched).currentScheme = opts.scheme := stateAt_scheme hcores h n
  by_contra hnot
  rw [victim, hscheme, if_neg hnot] at hv
  simp at hv

theorem finish_once (hcores : 0 < opts.cores) (h : Workload lines) {m m' : ℕ} {k t t' : ℤ}
    (hf : .finished k t ∈ events (stateAt opts lines m))
    (hf' : .finished k t' ∈ events (stateAt opts lines m')) : m = m' := by
  have hlate : ∀ {a b : ℕ} {x y : ℤ}, .finished k x ∈ events (stateAt opts lines a) →
      .finished k y ∈ events (stateAt opts lines b) → b ≤ a := by
    intro a b x y ha hb
    by_contra hab
    have hmem : .finished k x ∈ trace opts lines b :=
      List.mem_flatMap.mpr ⟨a, List.mem_range.mpr (by omega), ha⟩
    obtain ⟨i, j, -, hi, -, hk, -⟩ := mem_events_finished.mp hb
    exact finished_gone hcores h hmem j (List.mem_of_getElem? hi) hk.symm
  exact le_antisymm (hlate hf' hf) (hlate hf hf')

/-- Each job finishes. -/
theorem exists_finished (hcores : 0 < opts.cores) (h : Workload lines) {k : ℕ} (hk : k < lines.length) :
    ∃ m t, .finished k t ∈ events (stateAt opts lines m) := by
  obtain ⟨n, hn⟩ := Runs.halts hcores h
  obtain ⟨fin, hfin⟩ := exists_finish hcores h ((stateAt_inv hcores h n).out _ hn).2
  obtain ⟨m, -, hm⟩ := List.mem_flatMap.mp ((hfin k hk _).mpr rfl)
  exact ⟨m, _, hm⟩

/-- **Without rounding, overtaking alone decides.** -/
theorem exact_iff_not_overtaken (hcores : 0 < opts.cores) (h : Workload lines) (hint : Ints lines)
    (hd : (lines.map Line.arrivalTime).Nodup) {k : ℕ} (hk : k < lines.length)
    (hadd : ∀ m t, .finished k t ∈ events (stateAt opts lines m) → RoundsBy (stateAt opts lines m) k 0) :
    Exact opts lines k ↔ ∀ n, ¬ Overtakes (stateAt opts lines n) k := by
  rw [exact_iff hcores h hint hd]
  constructor
  · rintro ⟨m, t, d, hf, hkept, q, hq, hqnum, hround⟩
    obtain ⟨p, hp, hpnum, hround0⟩ := hadd m t hf
    obtain rfl := (stateAt_inv hcores h m).place_unique (mem_places_on hp) (mem_places_on hq)
      (hpnum.trans hqnum.symm)
    obtain rfl : d = 0 := by omega
    rcases hkept with ⟨n, hover, ⟨m', c, hr⟩, -⟩ | ⟨hno, -⟩
    · -- an overtaken job is not executed at that time
      rw [add_zero] at hr
      exact absurd hr ((overtaken_finish hcores h hd hover hf hp hpnum).2 m' c)
    · exact hno
  · intro hno
    obtain ⟨m, t, hf⟩ := exists_finished hcores h hk
    exact ⟨m, t, 0, hf, Or.inr ⟨hno, rfl⟩, hadd m t hf⟩

/-- **Response times are exact exactly if rounding makes up for overtaking.** In a simulation of jobs with
distinct arrival times, each response time that is added to the float is the time from the arrival of the
job to the first unit in which it is executed if and only if for each job the addition rounds by the number
of units for which the job is kept from running after it got its first core: by 0, unless an arriving job
takes its core at the very time at which it starts. So where no addition rounds it is so if and only if no
job is overtaken. -/
theorem response_iff (hcores : 0 < opts.cores) (h : Workload lines) (hint : Ints lines)
    (hd : (lines.map Line.arrivalTime).Nodup) :
    ((∀ k < lines.length, Exact opts lines k) ↔
      ∀ k < lines.length, ∃ m t d, .finished k t ∈ events (stateAt opts lines m) ∧
        Kept opts lines k d ∧ RoundsBy (stateAt opts lines m) k d) ∧
    ((∀ k < lines.length, ∀ m t, .finished k t ∈ events (stateAt opts lines m) →
        RoundsBy (stateAt opts lines m) k 0) →
      ((∀ k < lines.length, Exact opts lines k) ↔
        ∀ k < lines.length, ∀ n, ¬ Overtakes (stateAt opts lines n) k)) := by
  refine ⟨forall_congr' fun k => imp_congr_right fun _ => exact_iff hcores h hint hd k, fun hadd => ?_⟩
  exact forall₂_congr fun k hk => exact_iff_not_overtaken hcores h hint hd hk (hadd k hk)

/-- Two jobs under `FCFS`: nobody is overtaken, and the additions `0 + 0` and `0 + 1` do not round. -/
theorem response_iff_fcfs : Exact ⟨1, .fcfs, 1⟩ [⟨0, 2, 0⟩, ⟨1, 3, 0⟩] 0 ∧
    Exact ⟨1, .fcfs, 1⟩ [⟨0, 2, 0⟩, ⟨1, 3, 0⟩] 1 := by
  have h : Workload [⟨0, 2, 0⟩, ⟨1, 3, 0⟩] := by simp [Workload]
  have hcores : 0 < (⟨1, .fcfs, 1⟩ : Options).cores := by decide
  have hkept : ∀ k, Kept ⟨1, .fcfs, 1⟩ [⟨0, 2, 0⟩, ⟨1, 3, 0⟩] k 0 := fun k =>
    Or.inr ⟨fun n hover => by rcases overtakes_preempts hcores h hover with he | he <;> simp at he, rfl⟩
  have hall := (response_iff hcores h (by simp [Ints]) (by decide)).1.mpr fun k hk => by
    rcases k with _ | _ | k
    · exact ⟨17, 2, 0, by decide, hkept _, 0, by decide, rfl, rfl⟩
    · exact ⟨36, 5, 0, by decide, hkept _, 1, by decide, rfl, rfl⟩
    · simp at hk
  exact ⟨hall 0 (by decide), hall 1 (by decide)⟩

/-- Job 1 gets the core from job 0 at time 2 and loses it to job 2 before it is executed. At its finish, in
iteration 61, a response time of 1 is added, as if it had run in unit 2. -/
theorem response_iff_overtaken :
    ¬ ∀ k < 3, Exact ⟨1, .psjf, 1⟩ [⟨0, 2, 0⟩, ⟨1, 5, 0⟩, ⟨2, 1, 0⟩] k := by
  intro hex
  have h : Workload [⟨0, 2, 0⟩, ⟨1, 5, 0⟩, ⟨2, 1, 0⟩] := by simp [Workload]
  have hcores : 0 < (⟨1, .psjf, 1⟩ : Options).cores := by decide
  have hover : Overtakes (stateAt ⟨1, .psjf, 1⟩ [⟨0, 2, 0⟩, ⟨1, 5, 0⟩, ⟨2, 1, 0⟩] 25) 1 :=
    ⟨0, ⟨2, 2, 1, 0, -1, false⟩, 1, 0, rfl, rfl, rfl, by decide, rfl, rfl, rfl⟩
  obtain ⟨m, t, u, hf, ⟨⟨n, c, hr⟩, -⟩, hadd⟩ := hex 1 (by decide)
  obtain rfl := finish_once hcores h hf
    (show Event.finished 1 8 ∈ events (stateAt _ _ 61) by decide)
  have hu : (1 : ℤ) = 0 + (u - 1) := hadd
  obtain rfl : u = 2 := by omega
  exact (overtaken_finish hcores h (by decide) hover hf (p := 1) (by decide) rfl).2 n c hr

end Eecs678.Simulator.Response
