import Eecs678.Simulator.Trace
import Eecs678.Scheduler.History
import Eecs678.Scheduler.Preemptive
import Eecs678.Lib.ListScheduling
import Mathlib.Data.List.Sort

/-!
# First come, first served

Under `FCFS` no job that waits arrived before a job on a core (`in_order`), and each job runs in one
stretch on one core, begun when the cores were full until then (`Spell`). So the start times are those of
list scheduling (`list_scheduling`).
-/

namespace Eecs678.Simulator.FirstCome

open Eecs678.Lib.Best Eecs678.Lib.Slots Eecs678.Lib.ListScheduling Eecs678.Scheduler.Priqueue
open Eecs678.Scheduler.Model Eecs678.Scheduler.Places Eecs678.Scheduler.Runs
open Eecs678.Scheduler.Table Eecs678.Simulator.Model Eecs678.Simulator.Jobs
open Eecs678.Simulator.Lockstep Eecs678.Simulator.Trace
open Eecs678.Scheduler.History (Still newJob_still int32_sub)
open Eecs678.Scheduler.Preemptive (running mem_places_running finished_best)

/-! ### The queue is in order of arrival -/

/-- No job that waits arrived before a job that runs, and the queue is sorted. -/
def InOrder (s : Sched) : Prop :=
  BestFirst (fun p => (s.heap p).arrivalTime) (running s) s.jobQueue

theorem still_fcfs : Still .fcfs := ⟨by simp, by simp⟩

/-- **A new job goes to the end of the queue.** -/
theorem newJob_inOrder {s : Sched} (hs : s.currentScheme = .fcfs) (hw : Wf s) {n t r pr : ℤ}
    (ho : InOrder s) (ht : t < 2 ^ 31)
    (hold : ∀ p ∈ places s, 0 ≤ (s.heap p).arrivalTime ∧ (s.heap p).arrivalTime ≤ t) :
    InOrder (schedulerNewJob n t r pr s).2 := by
  rcases newJob_still still_fcfs hs n t r pr with ⟨c, hc, -, he⟩ | ⟨-, he⟩
  · rw [InOrder, he, place_jobQueue, arrive_jobQueue, hw.busy (List.mem_of_getElem? hc)]
    exact BestFirst.nil
  · rw [he]
    have hk : Keeps t s (arrive n t r pr s) := Keeps.arrive hw.toHeld n r pr
    have harr : ∀ p ∈ places s, ((arrive n t r pr s).heap p).arrivalTime = (s.heap p).arrivalTime :=
      fun p hp => hk.arrivalTime (hw.lt_fresh hp)
    have hnew : ((arrive n t r pr s).heap s.fresh).arrivalTime = t := by
      rw [arrive_heap hw.toHeld, if_pos rfl]
      rfl
    have ha : BestFirst (fun p => ((arrive n t r pr s).heap p).arrivalTime) (running s) s.jobQueue :=
      BestFirst.congr ho harr
    have hlate : ∀ p ∈ running s, ((arrive n t r pr s).heap p).arrivalTime ≤
        ((arrive n t r pr s).heap s.fresh).arrivalTime := fun p hp => by
      rw [hnew, harr p (mem_places_running hp)]
      exact (hold p (mem_places_running hp)).2
    -- no job in the queue goes after the new one
    refine ha.enqueue hlate (offer_jobQueue _ _) (offer_pairwise (R := fun p q =>
      ((arrive n t r pr s).heap p).arrivalTime ≤ ((arrive n t r pr s).heap q).arrivalTime)
      (fun _ _ _ => le_trans) (fun q hq hlt => ?_) (fun q hq _ => ?_) ha.sorted)
    · have hq' := hold q (mem_places_queue hq)
      have hsub : int32 (t - (s.heap q).arrivalTime) = t - (s.heap q).arrivalTime :=
        int32_sub ⟨by omega, by omega⟩
      have hscheme : (arrive n t r pr s).currentScheme = .fcfs := hs
      rw [hscheme, comparer, compareFcfs, hnew, harr q (mem_places_queue hq), hsub] at hlt
      omega
    · rw [hnew, harr q (mem_places_queue hq)]
      exact (hold q (mem_places_queue hq)).2

theorem finished_inOrder {s s' : Sched} {core n t res : ℤ} {p : ℕ} (h : Wf s)
    (hp : jobOn core s = some p) (he : schedulerJobFinished core n t s = some (res, s'))
    (ho : InOrder s) : InOrder s' := by
  obtain ⟨-, -, hk⟩ := finished_call h hp he
  exact finished_best h hp he (fun q hq => hk.arrivalTime (h.fresh q hq)) ho

variable {opts : Options} {lines : List Line}

theorem record_arrival (hcores : 0 < opts.cores) (h : Workload lines) {n : ℕ} {j : SimulatorJob}
    (hj : j ∈ (stateAt opts lines n).jobs) {p : ℕ} (hp : p ∈ places (stateAt opts lines n).sched)
    (he : entry (stateAt opts lines n).time (stateAt opts lines n).sched p = toEntry j) :
    ((stateAt opts lines n).sched.heap p).arrivalTime = j.arrivalTime := by
  obtain ⟨k, l, hk, ho⟩ := origin hcores h n j hj
  have hst := record_of_job hcores h hk ho hp he
  exact (static_arrivalTime hst).trans ho.arrivalTime.symm

/-- **The jobs on the cores arrived before the jobs that wait**, in every state. -/
theorem in_order (hcores : 0 < opts.cores) (h : Workload lines) (hint : Ints lines)
    (hs : opts.scheme = .fcfs) (n : ℕ) : InOrder (stateAt opts lines n).sched := by
  induction n with
  | zero => exact BestFirst.nil
  | succ n ih =>
    have hinv := stateAt_inv hcores h n
    cases stateAt_move hcores h n with
    | quiet _ _ hsched => rwa [hsched]
    | finish i j r _ _ _ _ hcall =>
      obtain ⟨p, hp⟩ := finished_jobOn hcall
      exact finished_inOrder hinv.lock.wf hp hcall ih
    | expire i r hpc => exact absurd (hs.symm.trans (quantum_rr n hpc)) (by simp)
    | arrive i j c hpc hi _ hdue hcall =>
      have hshort := job_short hcores h hint (List.mem_of_getElem? hi)
      have hnew : InOrder (schedulerNewJob j.jobId (stateAt opts lines n).time j.runTime j.priority
          (stateAt opts lines n).sched).2 := newJob_inOrder
        ((stateAt_scheme hcores h n).trans hs) hinv.lock.wf ih (hdue ▸ hshort.2.2) fun p hp => by
          obtain ⟨j', hj', ha', he⟩ := hinv.exists_job hp
          obtain ⟨k, hk⟩ := List.mem_iff_getElem?.mp hj'
          have hdue' := (hinv.good k j' hk).due
          rw [hpc, cutoff] at hdue'
          have hlt := hdue'.mp ha'
          have hshort' := job_short hcores h hint hj'
          rw [record_arrival hcores h hj' hp he.symm]
          refine ⟨hshort'.2.1, ?_⟩
          split_ifs at hlt <;> omega
      rwa [hcall] at hnew
    | run _ _ hsched => rwa [hsched]

theorem arrival_le (hcores : 0 < opts.cores) (h : Workload lines) (hint : Ints lines)
    (hs : opts.scheme = .fcfs) {n : ℕ} {j j' : SimulatorJob} (hj : j ∈ (stateAt opts lines n).jobs)
    (hc : j.coreId ≠ -1) (hj' : j' ∈ (stateAt opts lines n).jobs) (ha' : j'.arrived = true)
    (hc' : j'.coreId = -1) : j.arrivalTime ≤ j'.arrivalTime := by
  have hinv := stateAt_inv hcores h n
  obtain ⟨p, hp, hon, he⟩ := hinv.jobOn_core hj hc
  obtain ⟨q, hq, he'⟩ := hinv.exists_place hj' ha'
  have hqueue : q ∈ (stateAt opts lines n).sched.jobQueue := by
    rcases List.mem_append.mp hq with hslot | hqueue
    · obtain ⟨c, hslot⟩ := exists_slot hslot
      have h1 := hinv.lock.wf.core_id c q hslot
      have h2 : ((stateAt opts lines n).sched.heap q).coreId = j'.coreId := congrArg Entry.coreId he'
      omega
    · exact hqueue
  have hle := (in_order hcores h hint hs n).best p (mem_reduceOption (jobOn_eq hon).2) q hqueue
  rwa [record_arrival hcores h hj hp he, record_arrival hcores h hj' hq he'] at hle

/-! ### The moves of the simulation -/

theorem polled_waits {total : ℕ} {s s' : Sim} (h : Inv opts total s) {core n t r : ℤ}
    (hcall : schedulerJobFinished core n t s.sched = some (r, s'.sched)) {a : SimulatorJob}
    (ha : a ∈ s.jobs) (harr : a.arrived = true) (hr : a.jobId = r) : a.coreId = -1 := by
  have hid := jobId_nonneg h ha
  obtain ⟨q, hq, he⟩ := h.exists_place ha harr
  obtain ⟨p, hp⟩ := finished_jobOn hcall
  obtain ⟨-, hc⟩ := jobOn_eq hp
  rw [finished_eq hp, Option.some.injEq, Prod.ext_iff] at hcall
  obtain ⟨hres, -⟩ := hcall
  rcases pollOnto_slots core.toNat t (finish p core.toNat t s.sched) with ⟨hr', -⟩ | ⟨next, hn, hr', -⟩
  · simp only [hr'] at hres
    omega
  · have hnext : next ∈ s.sched.jobQueue := hn
    have hne : next ≠ p := fun he => h.lock.wf.not_queued hc (he ▸ hnext)
    have hheap : ((finish p core.toNat t s.sched).heap next) = s.sched.heap next :=
      (vacate_heap s.sched p next core.toNat (finishRecord t (s.sched.heap p))).trans (if_neg hne)
    have hnum : (s.sched.heap next).jobNumber = (s.sched.heap q).jobNumber := by
      rw [← hheap, ← hr', show (s.sched.heap q).jobNumber = a.jobId from congrArg Entry.jobNumber he, hr]
      exact hres
    obtain rfl := h.place_unique (mem_places_queue hnext) hq hnum
    exact (congrArg Entry.coreId he).symm.trans (h.lock.wf.queue_id next hnext)

/-- **An arrival takes no job off its core.** -/
theorem arrive_clear {total : ℕ} {s s' : Sim} (h : Inv opts total s) (hs : s.sched.currentScheme = .fcfs)
    {n t r pr c : ℤ} (hcall : schedulerNewJob n t r pr s.sched = (c, s'.sched)) :
    s.jobs.map (clearCore c) = s.jobs := by
  have hsame : ∀ a ∈ s.jobs, clearCore c a = a := fun a ha => by
    rcases newJob_still still_fcfs hs n t r pr with ⟨c', hc', -, he⟩ | ⟨-, he⟩
    · obtain rfl : c = c' := (congrArg Prod.fst (hcall.symm.trans he))
      refine if_neg fun hac => ?_
      obtain ⟨p, -, hp, -⟩ := h.jobOn_core ha (by omega)
      rw [hac] at hp
      have hslot := (jobOn_eq hp).2
      rw [Int.toNat_natCast, hc'] at hslot
      simp at hslot
    · obtain rfl : c = -1 := congrArg Prod.fst (hcall.symm.trans he)
      exact clearCore_neg a
  have hid : s.jobs.map (clearCore c) = s.jobs.map id := List.map_congr_left hsame
  rw [hid, List.map_id]

/-- **While a job waits all cores run jobs.** -/
theorem cores_full {total : ℕ} {s : Sim} (h : Inv opts total s) {a : SimulatorJob} (ha : a ∈ s.jobs)
    (harr : a.arrived = true) (hw : a.coreId = -1) {c : ℕ} (hc : c < opts.cores) :
    ∃ j ∈ s.jobs, j.coreId = (c : ℤ) := by
  obtain ⟨q, hq, he⟩ := h.exists_place ha harr
  have hlt : c < s.sched.coreJobPtrs.length := h.lock.slots ▸ hc
  cases hslot : s.sched.coreJobPtrs[c] with
  | none =>
    -- with an idle core the queue is empty
    have hempty := h.lock.wf.busy (hslot ▸ List.getElem_mem hlt)
    rcases List.mem_append.mp hq with hq | hq
    · obtain ⟨c', hq'⟩ := exists_slot hq
      have h1 := h.lock.wf.core_id c' q hq'
      have h2 : (s.sched.heap q).coreId = a.coreId := congrArg Entry.coreId he
      omega
    · rw [hempty] at hq
      simp at hq
  | some p =>
    have hp : s.sched.coreJobPtrs[c]? = some (some p) := by rw [List.getElem?_eq_getElem hlt, hslot]
    obtain ⟨j, hj, -, hj'⟩ := h.exists_job (mem_places_slot hp)
    have hid : j.coreId = (s.sched.heap p).coreId := congrArg Entry.coreId hj'
    exact ⟨j, hj, hid.trans (h.lock.wf.core_id c p hp)⟩

/-! ### The stretch of a job -/

/-- At time `u` each core runs a job. -/
def Full (cores : ℕ) (tr : List Event) (u : ℤ) : Prop := ∀ c : ℕ, c < cores → ∃ k, .ran k c u ∈ tr

/-- Up to `t`, job `k` that arrived at `a` ran on core `c` from `b` on without a break, and the cores were
full from `a` to `b`. -/
structure Spell (cores : ℕ) (tr : List Event) (k a b c t : ℤ) : Prop where
  arrived : a ≤ b
  ran : ∀ c' u, .ran k c' u ∈ tr ↔ c' = c ∧ b ≤ u ∧ u < t
  full : ∀ u, a ≤ u → u < b → Full cores tr u

theorem Spell.congr {cores : ℕ} {tr tr' : List Event} {k a b c t : ℤ}
    (h : Spell cores tr k a b c t) (he : ∀ k c u, Event.ran k c u ∈ tr' ↔ Event.ran k c u ∈ tr) :
    Spell cores tr' k a b c t :=
  ⟨h.arrived, fun c' u => (he k c' u).trans (h.ran c' u), fun u h1 h2 c' hc' =>
    (h.full u h1 h2 c' hc').imp fun k' hk' => (he k' c' u).mpr hk'⟩

/-- A job that has not started can be started on any core. -/
theorem Spell.move {cores : ℕ} {tr : List Event} {k a b c : ℤ} (h : Spell cores tr k a b c b)
    (c' : ℤ) : Spell cores tr k a b c' b :=
  ⟨h.arrived, fun c'' u => (h.ran c'' u).trans ⟨fun hu => by omega, fun hu => by omega⟩, h.full⟩

/-- What became of the jobs: those that have not arrived did not run, a job that arrived runs in one
stretch or waits, and a job that finished ran in one stretch of its running time. -/
structure Status (opts : Options) (lines : List Line) (s : Sim) (tr : List Event) : Prop where
  pending : ∀ j ∈ s.jobs, j.arrived = false → ∀ c u, .ran j.jobId c u ∉ tr
  alive : ∀ j ∈ s.jobs, j.arrived = true → ∃ b,
    Spell opts.cores tr j.jobId j.arrivalTime b j.coreId s.time ∧
      b + (lineOf lines j.jobId).runTime = s.time + j.runTime ∧ (j.coreId = -1 → b = s.time)
  ended : ∀ k t, .finished k t ∈ tr → ∃ (b : ℤ) (c : ℕ), c < opts.cores ∧
    Spell opts.cores tr k (lineOf lines k).arrivalTime b c t ∧ b + (lineOf lines k).runTime = t

theorem Status.ended_same {s : Sim} {tr tr' : List Event} (h : Status opts lines s tr)
    (he : ∀ k c u, Event.ran k c u ∈ tr' ↔ Event.ran k c u ∈ tr) {k t : ℤ}
    (hf : .finished k t ∈ tr) : ∃ (b : ℤ) (c : ℕ), c < opts.cores ∧
      Spell opts.cores tr' k (lineOf lines k).arrivalTime b c t ∧ b + (lineOf lines k).runTime = t := by
  obtain ⟨b, c, hc, hsp, hb⟩ := h.ended k t hf
  exact ⟨b, c, hc, hsp.congr he, hb⟩

/-- **A job that finishes ran in one stretch**, and the next job starts. -/
theorem status_finish (hcores : 0 < opts.cores) (h : Workload lines) {n i : ℕ} {j : SimulatorJob} {r : ℤ}
    (hpc : (stateAt opts lines n).pc = .finish i) (hi : (stateAt opts lines n).jobs[i]? = some j)
    (h0 : j.runTime = 0) (hcore : j.coreId ≠ -1)
    (hcall : schedulerJobFinished j.coreId j.jobId (stateAt opts lines n).time
      (stateAt opts lines n).sched = some (r, (stateAt opts lines (n + 1)).sched))
    (hjobs : (stateAt opts lines (n + 1)).jobs =
      (deleteJob i (stateAt opts lines n).jobs).map (activateJob r j.coreId))
    (htime : (stateAt opts lines (n + 1)).time = (stateAt opts lines n).time)
    (ih : Status opts lines (stateAt opts lines n) (trace opts lines n)) :
    Status opts lines (stateAt opts lines (n + 1)) (trace opts lines (n + 1)) := by
  have hinv := stateAt_inv hcores h n
  have hsame : ∀ k c u, Event.ran k c u ∈ trace opts lines (n + 1) ↔
      Event.ran k c u ∈ trace opts lines n := ran_same (by simp [hpc])
  refine ⟨fun j' hj' ha c u => ?_, fun j' hj' ha => ?_, fun k t hf => ?_⟩
  · rw [hjobs] at hj'
    obtain ⟨a, ha', rfl⟩ := List.mem_map.mp hj'
    rw [hsame, activateJob_jobId]
    rw [activateJob_arrived] at ha
    exact ih.pending a (mem_deleteJob hi ha') ha c u
  · rw [hjobs] at hj'
    obtain ⟨a, ha', rfl⟩ := List.mem_map.mp hj'
    rw [activateJob_arrived] at ha
    have hmem := mem_deleteJob hi ha'
    obtain ⟨b, hsp, hb, hw⟩ := ih.alive a hmem ha
    rw [htime]
    by_cases hr : a.jobId = r
    · -- the job has waited so far
      obtain rfl := hw (polled_waits hinv hcall hmem ha hr)
      have hact : activateJob r j.coreId a = { a with coreId := j.coreId } := if_pos hr
      rw [hact]
      exact ⟨_, (hsp.congr hsame).move _, hb, fun hc => absurd hc hcore⟩
    · have hact : activateJob r j.coreId a = a := if_neg hr
      rw [hact]
      exact ⟨b, hsp.congr hsame, hb, hw⟩
  · rw [trace_succ, List.mem_append, events_finish hpc hi h0, List.mem_singleton] at hf
    rcases hf with hf | hf
    · exact ih.ended_same hsame hf
    · obtain ⟨rfl, rfl⟩ := Event.finished.inj hf
      have hj := List.mem_of_getElem? hi
      obtain ⟨b, hsp, hb, -⟩ := ih.alive j hj (hinv.idle hj hcore)
      obtain ⟨k, l, hk, ho⟩ := origin hcores h n j hj
      have hrange := (hinv.range hj).resolve_left hcore
      refine ⟨b, j.coreId.toNat, by omega, ?_, by omega⟩
      rw [Int.toNat_of_nonneg hrange.1, lineOf_origin hk ho, ← ho.arrivalTime]
      exact hsp.congr hsame

/-- **A job that arrives starts at once, or it waits.** -/
theorem status_arrive (hcores : 0 < opts.cores) (h : Workload lines) (hs : opts.scheme = .fcfs)
    {n i : ℕ} {j : SimulatorJob} {c : ℤ} (hpc : (stateAt opts lines n).pc = .arrive i)
    (hi : (stateAt opts lines n).jobs[i]? = some j) (hnew : j.arrived = false)
    (hdue : j.arrivalTime = (stateAt opts lines n).time)
    (hcall : schedulerNewJob j.jobId (stateAt opts lines n).time j.runTime j.priority
      (stateAt opts lines n).sched = (c, (stateAt opts lines (n + 1)).sched))
    (hjobs : (stateAt opts lines (n + 1)).jobs =
      ((stateAt opts lines n).jobs.map (clearCore c)).modify i (settle c))
    (htime : (stateAt opts lines (n + 1)).time = (stateAt opts lines n).time)
    (ih : Status opts lines (stateAt opts lines n) (trace opts lines n)) :
    Status opts lines (stateAt opts lines (n + 1)) (trace opts lines (n + 1)) := by
  have hinv := stateAt_inv hcores h n
  have hsame : ∀ k c u, Event.ran k c u ∈ trace opts lines (n + 1) ↔
      Event.ran k c u ∈ trace opts lines n := ran_same (by simp [hpc])
  have hev : finishes (events (stateAt opts lines n)) = [] := finishes_quiet (by simp [events, hpc])
  rw [arrive_clear hinv ((stateAt_scheme hcores h n).trans hs) hcall] at hjobs
  obtain ⟨rest, hp, hp'⟩ := modify_perm hi (settle c)
  rw [← hjobs] at hp'
  have hrest : ∀ a ∈ rest, a ∈ (stateAt opts lines n).jobs := fun a ha =>
    hp.mem_iff.mpr (List.mem_cons_of_mem _ ha)
  refine ⟨fun j' hj' ha c' u => ?_, fun j' hj' ha => ?_, fun k t hf => ?_⟩
  · rw [hsame]
    rcases List.mem_cons.mp (hp'.mem_iff.mp hj') with rfl | hj'
    · simp [settle] at ha
    · exact ih.pending j' (hrest j' hj') ha c' u
  · rw [htime]
    rcases List.mem_cons.mp (hp'.mem_iff.mp hj') with rfl | hj'
    · have hj := List.mem_of_getElem? hi
      obtain ⟨k, l, hk, ho⟩ := origin hcores h n j hj
      refine ⟨(stateAt opts lines n).time, ⟨hdue.le, fun c' u => ?_, fun u h1 h2 => ?_⟩, ?_,
        fun _ => rfl⟩
      · exact ⟨fun hr => absurd ((hsame _ _ _).mp hr) (ih.pending j hj hnew c' u), fun hu => by omega⟩
      · exact absurd (hdue ▸ h1) (not_le.mpr h2)
      · have hline : lineOf lines j.jobId = l := lineOf_origin hk ho
        rw [show (settle c j).jobId = j.jobId from rfl, hline, ← ho.whole hnew]
        rfl
    · obtain ⟨b, hsp, hb⟩ := ih.alive j' (hrest j' hj') ha
      exact ⟨b, hsp.congr hsame, hb⟩
  · exact ih.ended_same hsame ((finished_same hev k t).mp hf)

theorem full_mono {cores n : ℕ} {u : ℤ} (hf : Full cores (trace opts lines n) u) :
    Full cores (trace opts lines (n + 1)) u := fun c hc =>
  (hf c hc).imp fun _ hk => ran_mono (Nat.le_succ n) hk

/-- **A unit of time**: a job on a core goes on, and a job waits because the cores are full. -/
theorem status_run (hcores : 0 < opts.cores) (h : Workload lines) {n : ℕ}
    (hpc : (stateAt opts lines n).pc = .run)
    (hjobs : (stateAt opts lines (n + 1)).jobs = (stateAt opts lines n).jobs.map runJob)
    (htime : (stateAt opts lines (n + 1)).time = (stateAt opts lines n).time + 1)
    (ih : Status opts lines (stateAt opts lines n) (trace opts lines n)) :
    Status opts lines (stateAt opts lines (n + 1)) (trace opts lines (n + 1)) := by
  have hinv := stateAt_inv hcores h n
  refine ⟨fun j' hj' ha c u hr => ?_, fun j' hj' ha => ?_, fun k t hf => ?_⟩
  · rw [hjobs] at hj'
    obtain ⟨a, ha', rfl⟩ := List.mem_map.mp hj'
    rw [runJob_arrived] at ha
    rw [runJob_jobId, ran_job hcores h hpc ha'] at hr
    rcases hr with hr | ⟨-, hc, -⟩
    · exact ih.pending a ha' ha c u hr
    · rw [hinv.idle ha' hc] at ha
      simp at ha
  · rw [hjobs] at hj'
    obtain ⟨a, ha', rfl⟩ := List.mem_map.mp hj'
    rw [runJob_arrived] at ha
    obtain ⟨b, hsp, hb, hw⟩ := ih.alive a ha' ha
    rw [htime]
    by_cases hc : a.coreId = -1
    · -- the job waits on
      obtain rfl := hw hc
      have hrun : runJob a = a := if_pos hc
      rw [hrun]
      refine ⟨_, ⟨hsp.arrived.trans (by omega), fun c' u => ?_, fun u h1 h2 => ?_⟩, by omega, fun _ => rfl⟩
      · rw [ran_job hcores h hpc ha', hsp.ran]
        omega
      · by_cases hu : u = (stateAt opts lines n).time
        · intro c' hc'
          obtain ⟨j, hj, hjc⟩ := cores_full hinv ha' ha hc hc'
          exact ⟨j.jobId, (ran_job hcores h hpc hj _ _).mpr (Or.inr ⟨hu, by omega, hjc.symm⟩)⟩
        · exact full_mono (hsp.full u h1 (by omega))
    · have hrun : runJob a = { a with runTime := a.runTime - 1 } := if_neg hc
      have hbt : b ≤ (stateAt opts lines n).time := by
        obtain ⟨k, l, hk, ho⟩ := origin hcores h n a ha'
        have hle := ho.runTime
        rw [lineOf_origin hk ho] at hb
        omega
      rw [hrun]
      refine ⟨b, ⟨hsp.arrived, fun c' u => ?_, fun u h1 h2 => full_mono (hsp.full u h1 h2)⟩, ?_,
        fun he => absurd he hc⟩
      · simp only
        rw [ran_job hcores h hpc ha', hsp.ran]
        omega
      · simp only
        omega
  · rw [finished_same (finishes_run hpc)] at hf
    obtain ⟨b, c, hc, hsp, hb⟩ := ih.ended k t hf
    refine ⟨b, c, hc, ⟨hsp.arrived, fun c' u => ?_, fun u h1 h2 => full_mono (hsp.full u h1 h2)⟩, hb⟩
    rw [ran_succ, hsp.ran]
    exact or_iff_left fun ⟨_, _, j, hj, _, hid, _⟩ => finished_gone hcores h hf j hj hid

/-- **Each job runs in one stretch**, in every state. -/
theorem status (hcores : 0 < opts.cores) (h : Workload lines) (hs : opts.scheme = .fcfs) (n : ℕ) :
    Status opts lines (stateAt opts lines n) (trace opts lines n) := by
  induction n with
  | zero =>
    refine ⟨fun j _ _ c u => by simp [trace], fun j hj ha => ?_, fun k t hf => by simp [trace] at hf⟩
    have hj' : j ∈ load lines := hj
    rw [load, List.mem_mapIdx] at hj'
    obtain ⟨i, hi, rfl⟩ := hj'
    simp at ha
  | succ n ih =>
    cases stateAt_move hcores h n with
    | quiet hev hjobs _ htime hpc =>
      have hsame := ran_same hpc
      refine ⟨fun j hj ha c u => ?_, fun j hj ha => ?_, fun k t hf => ?_⟩
      · rw [hsame]
        exact ih.pending j (hjobs ▸ hj) ha c u
      · obtain ⟨b, hsp, hb⟩ := ih.alive j (hjobs ▸ hj) ha
        rw [htime]
        exact ⟨b, hsp.congr hsame, hb⟩
      · exact ih.ended_same hsame ((finished_same (finishes_quiet hev) k t).mp hf)
    | finish i j r hpc hi h0 hcore hcall hjobs htime =>
      exact status_finish hcores h hpc hi h0 hcore hcall hjobs htime ih
    | expire i r hpc => exact absurd (hs.symm.trans (quantum_rr n hpc)) (by simp)
    | arrive i j c hpc hi hnew hdue hcall hjobs htime =>
      exact status_arrive hcores h hs hpc hi hnew hdue hcall hjobs htime ih
    | run hpc hjobs _ htime => exact status_run hcores h hpc hjobs htime ih

/-! ### The order of the starts -/

/-- **A job does not start before the jobs that arrived before it.** -/
theorem ran_order (hcores : 0 < opts.cores) (h : Workload lines) (hint : Ints lines)
    (hs : opts.scheme = .fcfs) {n k k' : ℕ} {c u : ℤ} (hk : k < lines.length)
    (hr : .ran (k' : ℤ) c u ∈ trace opts lines n)
    (harr : (lineOf lines k).arrivalTime < (lineOf lines k').arrivalTime) :
    ∃ c' u', u' ≤ u ∧ .ran (k : ℤ) c' u' ∈ trace opts lines n := by
  induction n with
  | zero => simp [trace] at hr
  | succ n ih =>
    rcases (ran_succ n).mp hr with hr | ⟨hpc, rfl, j', hj', hc', hid', -⟩
    · obtain ⟨c', u', hu, hr'⟩ := ih hr
      exact ⟨c', u', hu, (ran_succ n).mpr (Or.inl hr')⟩
    · have hinv := stateAt_inv hcores h n
      have hmem : (k : ℤ) ∈ (finishes (trace opts lines n)).map Prod.fst ++
          (stateAt opts lines n).jobs.map SimulatorJob.jobId :=
        (finishes_ids hcores h n).mem_iff.mpr (List.mem_map.mpr ⟨k, List.mem_range.mpr hk, rfl⟩)
      rcases List.mem_append.mp hmem with hmem | hmem
      · -- the job has finished, so it has run
        obtain ⟨⟨k₁, t⟩, hf, rfl⟩ := List.mem_map.mp hmem
        obtain ⟨b, c', -, hsp, hb⟩ := (status hcores h hs n).ended _ t (mem_finishes.mp hf)
        have hline : lineOf lines (k : ℤ) ∈ lines := by
          rw [lineOf_eq (List.getElem?_eq_getElem hk)]
          exact List.getElem_mem hk
        have hpos := h _ hline
        have hran := (hsp.ran c' b).mpr ⟨rfl, le_refl _, by omega⟩
        exact ⟨c', b, (ran_past hcores h hran).le, (ran_succ n).mpr (Or.inl hran)⟩
      · obtain ⟨a, ha, hid⟩ := List.mem_map.mp hmem
        obtain ⟨i, l, hl, ho⟩ := origin hcores h n a ha
        obtain ⟨i', l', hl', ho'⟩ := origin hcores h n j' hj'
        rw [← hid, ← hid', lineOf_origin hl ho, lineOf_origin hl' ho', ← ho.arrivalTime,
          ← ho'.arrivalTime] at harr
        -- the job has arrived, and it cannot wait
        obtain ⟨m, hm⟩ := List.mem_iff_getElem?.mp ha
        obtain ⟨m', hm'⟩ := List.mem_iff_getElem?.mp hj'
        have hdue := (hinv.good m a hm).due
        have hdue' := (hinv.good m' j' hm').due
        rw [hpc, cutoff] at hdue hdue'
        have hlt := hdue'.mp (hinv.idle hj' hc')
        have harrived : a.arrived = true := hdue.mpr (by omega)
        have hc : a.coreId ≠ -1 := fun hc =>
          absurd (arrival_le hcores h hint hs hj' hc' ha harrived hc) (not_le.mpr harr)
        refine ⟨a.coreId, (stateAt opts lines n).time, le_refl _, ?_⟩
        rw [← hid]
        exact (ran_job hcores h hpc ha _ _).mpr (Or.inr ⟨rfl, hc, rfl⟩)

/-- The jobs in the order of their arrival. -/
def arrivalOrder (lines : List Line) : List ℕ :=
  (List.range lines.length).insertionSort fun i j : ℕ =>
    (lineOf lines i).arrivalTime ≤ (lineOf lines j).arrivalTime

theorem arrivalOrder_perm (lines : List Line) :
    (arrivalOrder lines).Perm (List.range lines.length) := List.perm_insertionSort ..

theorem mem_arrivalOrder {k : ℕ} : k ∈ arrivalOrder lines ↔ k < lines.length :=
  (arrivalOrder_perm lines).mem_iff.trans List.mem_range

theorem arrivalOrder_sorted (hd : (lines.map Line.arrivalTime).Nodup) :
    (arrivalOrder lines).Pairwise fun i j : ℕ =>
      (lineOf lines i).arrivalTime < (lineOf lines j).arrivalTime := by
  have htotal : Std.Total fun i j : ℕ =>
      (lineOf lines i).arrivalTime ≤ (lineOf lines j).arrivalTime := ⟨fun _ _ => le_total _ _⟩
  have htrans : IsTrans ℕ fun i j : ℕ =>
      (lineOf lines i).arrivalTime ≤ (lineOf lines j).arrivalTime := ⟨fun _ _ _ => le_trans⟩
  have hle : (arrivalOrder lines).Pairwise fun i j : ℕ =>
      (lineOf lines i).arrivalTime ≤ (lineOf lines j).arrivalTime := List.pairwise_insertionSort ..
  have hmap : (List.range lines.length).map (fun i : ℕ => (lineOf lines i).arrivalTime) =
      lines.map Line.arrivalTime := by
    refine List.ext_getElem (by simp) fun i h1 h2 => ?_
    have hi : i < lines.length := by simpa using h1
    rw [List.getElem_map, List.getElem_range, List.getElem_map,
      lineOf_eq (List.getElem?_eq_getElem hi)]
  have hnd : ((arrivalOrder lines).map fun i : ℕ => (lineOf lines i).arrivalTime).Nodup := by
    rw [((arrivalOrder_perm lines).map _).nodup_iff, hmap]
    exact hd
  refine (hle.and (List.pairwise_map.mp hnd)).imp fun ⟨h1, h2⟩ => lt_of_le_of_ne h1 h2

/-! ### List scheduling -/

/-- Job `k` runs from `start` on core `core` for its running time, and then it finishes. -/
def RunsAt (lines : List Line) (tr : List Event) (k : ℕ) (start : ℤ) (core : ℕ) : Prop :=
  (∀ c u : ℤ, .ran (k : ℤ) c u ∈ tr ↔
    c = core ∧ start ≤ u ∧ u < start + (lineOf lines k).runTime) ∧
  ∀ t : ℤ, .finished (k : ℤ) t ∈ tr ↔ t = start + (lineOf lines k).runTime

/-- At the end each job has run in one stretch. -/
theorem stretch (hcores : 0 < opts.cores) (h : Workload lines) (hs : opts.scheme = .fcfs) {n : ℕ}
    (hnil : (stateAt opts lines n).jobs = []) {k : ℕ} (hk : k < lines.length) :
    ∃ (b : ℤ) (c : ℕ), c < opts.cores ∧ (lineOf lines k).arrivalTime ≤ b ∧
      (∀ u, (lineOf lines k).arrivalTime ≤ u → u < b → Full opts.cores (trace opts lines n) u) ∧
        RunsAt lines (trace opts lines n) k b c := by
  obtain ⟨fin, hfin⟩ := exists_finish hcores h hnil
  obtain ⟨b, c, hc, hsp, he⟩ := (status hcores h hs n).ended _ _ ((hfin k hk _).mpr rfl)
  refine ⟨b, c, hc, hsp.arrived, hsp.full, ?_, fun t => ?_⟩
  · rw [he]
    exact hsp.ran
  · rw [he]
    exact hfin k hk t

/-- **The stretches serve the jobs in the order of arrival**, and no core is idle while a job waits. -/
theorem served (hcores : 0 < opts.cores) (h : Workload lines) (hint : Ints lines)
    (hs : opts.scheme = .fcfs) (hd : (lines.map Line.arrivalTime).Nodup) {n : ℕ} {start : ℕ → ℤ}
    {core : ℕ → ℕ} (hcore : ∀ k < lines.length, core k < opts.cores)
    (hdue : ∀ k < lines.length, (lineOf lines k).arrivalTime ≤ start k)
    (hfull : ∀ k < lines.length, ∀ u, (lineOf lines k).arrivalTime ≤ u → u < start k →
      Full opts.cores (trace opts lines n) u)
    (hruns : ∀ k < lines.length, RunsAt lines (trace opts lines n) k (start k) (core k)) :
    Served opts.cores ((arrivalOrder lines).map fun k : ℕ =>
      ⟨(lineOf lines k).arrivalTime, (lineOf lines k).runTime, start k, core k⟩) := by
  have hline : ∀ k < lines.length, 1 ≤ (lineOf lines k).runTime ∧ 0 ≤ (lineOf lines k).arrivalTime :=
    fun k hk => by
      rw [lineOf_eq (List.getElem?_eq_getElem hk)]
      exact h _ (List.getElem_mem hk)
  have hfirst : ∀ k < lines.length, .ran (k : ℤ) (core k) (start k) ∈ trace opts lines n := fun k hk =>
    ((hruns k hk).1 _ _).mpr ⟨rfl, le_refl _, by have := hline k hk; omega⟩
  have hmem : ∀ {k : ℕ}, k ∈ arrivalOrder lines → k < lines.length := mem_arrivalOrder.mp
  have hstart : ∀ k < lines.length, ∀ k' < lines.length,
      (lineOf lines k).arrivalTime < (lineOf lines k').arrivalTime → start k ≤ start k' :=
    fun k hk k' hk' harr => by
      obtain ⟨c', u', hle, hran⟩ := ran_order hcores h hint hs hk (hfirst k' hk') harr
      exact (((hruns k hk).1 c' u').mp hran).2.1.trans hle
  refine ⟨?_, ?_, ?_, ?_, ?_, ?_⟩
  · rw [List.pairwise_map]
    exact (arrivalOrder_sorted hd).imp_of_mem fun hk hk' harr => hstart _ (hmem hk) _ (hmem hk') harr
  · rw [List.pairwise_map]
    refine (arrivalOrder_sorted hd).imp_of_mem fun {k k'} hk hk' harr hcc => not_lt.mp fun hlt => ?_
    -- in its first unit the later job would run beside the earlier one
    have hle := hstart k (hmem hk) k' (hmem hk') harr
    have hran := ((hruns k (hmem hk)).1 (core k') (start k')).mpr ⟨congrArg _ hcc.symm, hle, hlt⟩
    have heq := ran_inj hcores h hran (hfirst k' (hmem hk'))
    rw [heq] at harr
    exact lt_irrefl _ harr
  · intro p hp
    obtain ⟨k, hk, rfl⟩ := List.mem_map.mp hp
    exact hcore k (hmem hk)
  · intro p hp
    obtain ⟨k, hk, rfl⟩ := List.mem_map.mp hp
    exact ⟨(hline k (hmem hk)).2, hdue k (hmem hk)⟩
  · intro p hp
    obtain ⟨k, hk, rfl⟩ := List.mem_map.mp hp
    exact le_trans (by omega) (hline k (hmem hk)).1
  · intro p hp t h1 h2 c hc
    obtain ⟨k, hk, rfl⟩ := List.mem_map.mp hp
    obtain ⟨k', hran⟩ := hfull k (hmem hk) t h1 h2 c hc
    obtain ⟨i, hi, rfl⟩ := ran_line hcores h hran
    obtain ⟨hcc, h3, h4⟩ := ((hruns i hi).1 _ _).mp hran
    exact ⟨_, List.mem_map.mpr ⟨i, mem_arrivalOrder.mpr hi, rfl⟩, (Int.natCast_inj.mp hcc).symm, h3, h4⟩

/-- **FCFS equals list scheduling.** The simulation ends, and each job has run in one stretch of its
running time, begun at `start` on core `core`, and finished at the end of it. The jobs taken in the order
of their arrival, the starts are those of list scheduling, with the cores that the simulation chose and
with the cores that are free first; so they are in order. -/
theorem list_scheduling (hcores : 0 < opts.cores) (hs : opts.scheme = .fcfs) (h : Workload lines)
    (hint : Ints lines) (hd : (lines.map Line.arrivalTime).Nodup) :
    ∃ (n : ℕ) (start : ℕ → ℤ) (core : ℕ → ℕ), (stateAt opts lines n).pc = .stop .done ∧
      (∀ k < lines.length, core k < opts.cores ∧
        RunsAt lines (trace opts lines n) k (start k) (core k)) ∧
      startsOn (List.replicate opts.cores 0) ((arrivalOrder lines).map fun k : ℕ =>
        ((lineOf lines k).arrivalTime, (lineOf lines k).runTime, core k)) =
          (arrivalOrder lines).map start ∧
      starts (List.replicate opts.cores 0) ((arrivalOrder lines).map fun k : ℕ =>
        ((lineOf lines k).arrivalTime, (lineOf lines k).runTime)) = (arrivalOrder lines).map start ∧
      ((arrivalOrder lines).map start).Pairwise (· ≤ ·) := by
  obtain ⟨n, hn⟩ := Runs.halts hcores h
  have hnil := ((stateAt_inv hcores h n).out _ hn).2
  have hex : ∀ k : ℕ, ∃ (b : ℤ) (c : ℕ), k < lines.length → c < opts.cores ∧
      (lineOf lines k).arrivalTime ≤ b ∧ (∀ u, (lineOf lines k).arrivalTime ≤ u → u < b →
        Full opts.cores (trace opts lines n) u) ∧ RunsAt lines (trace opts lines n) k b c := fun k => by
    by_cases hk : k < lines.length
    · obtain ⟨b, c, hbc⟩ := stretch hcores h hs hnil hk
      exact ⟨b, c, fun _ => hbc⟩
    · exact ⟨0, 0, fun hk' => absurd hk' hk⟩
  choose start core hspec using hex
  have hserved := served hcores h hint hs hd (fun k hk => (hspec k hk).1)
    (fun k hk => (hspec k hk).2.1) (fun k hk => (hspec k hk).2.2.1) fun k hk => (hspec k hk).2.2.2
  have hsorted := arrivalOrder_sorted hd
  obtain ⟨h1, h2⟩ := hserved.starts_eq (List.pairwise_map.mpr (hsorted.imp fun hlt => hlt.le))
  simp only [List.map_map] at h1 h2
  have horder := List.pairwise_map.mp hserved.order
  exact ⟨n, start, core, hn, fun k hk => ⟨(hspec k hk).1, (hspec k hk).2.2.2⟩, h1, h2,
    List.pairwise_map.mpr horder⟩

/-- On two cores the third job waits for the second one to finish. -/
theorem list_scheduling_three : ∃ (n : ℕ) (start : ℕ → ℤ),
    (stateAt ⟨2, .fcfs, 1⟩ [⟨0, 5, 0⟩, ⟨2, 1, 0⟩, ⟨1, 3, 0⟩] n).pc = .stop .done ∧
      [0, 1, 4] = [start 0, start 2, start 1] := by
  have h : Workload [⟨0, 5, 0⟩, ⟨2, 1, 0⟩, ⟨1, 3, 0⟩] := by simp [Workload]
  have hcores : 0 < (⟨2, .fcfs, 1⟩ : Options).cores := by decide
  obtain ⟨n, start, core, hn, -, -, hstarts, -⟩ :=
    list_scheduling hcores rfl h (by simp [Ints]) (by decide)
  exact ⟨n, start, hn, hstarts⟩

end Eecs678.Simulator.FirstCome
