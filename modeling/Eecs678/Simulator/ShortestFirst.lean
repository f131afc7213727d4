import Eecs678.Simulator.Floats
import Eecs678.Scheduler.Preemptive
import Eecs678.Lib.Backlog
import Mathlib.Algebra.BigOperators.Ring.Finset
import Mathlib.Algebra.Order.Field.Basic
import Mathlib.Data.List.Permutation
import Mathlib.Data.Rat.Cast.Order
import Mathlib.Tactic.Linarith

/-!
# Shortest remaining time first

Under `PSJF` the job on a core has the least remaining time of all jobs that arrived (`shortest`). With
one core this keeps the simulation ahead of every other schedule of the same jobs (`ahead_any`), so that
the sum of the finish times is the least possible (`psjf_optimal`). The averages are floats, and can be
rounded to more than the least (`psjf_optimal_rounds`).
-/

namespace Eecs678.Simulator.ShortestFirst

open Eecs678.Lib.Backlog Eecs678.Lib.Floats Eecs678.Lib.Slots Eecs678.Scheduler.Model
open Eecs678.Scheduler.Places Eecs678.Scheduler.Runs Eecs678.Scheduler.Table
open Eecs678.Scheduler.Preemptive Eecs678.Simulator.Model Eecs678.Simulator.Jobs
open Eecs678.Simulator.Lockstep Eecs678.Simulator.Trace Eecs678.Simulator.Statistics
open Eecs678.Simulator.Floats

variable {opts : Options} {lines : List Line}

/-! ### The scheduler runs the shortest jobs -/

/-- A new job can be compared with the jobs that have a place. -/
theorem allFit_arrive {s : Sched} (hw : Wf s) (hs : s.currentScheme = .psjf) {n t r pr : ℤ}
    (hnew : Short r t) (hold : ∀ p ∈ places s, Short (trueRemaining t s p) (s.heap p).arrivalTime) :
    AllFit (arrive n t r pr s) s.fresh := by
  have hshort : ∀ a ∈ s.fresh :: places (arrive n t r pr s),
      Short ((arrive n t r pr s).heap a).remainingTime ((arrive n t r pr s).heap a).arrivalTime := by
    intro a ha
    rcases List.mem_cons.mp ha with rfl | ha
    · rw [arrive_heap hw.toHeld, if_pos rfl]
      exact hnew
    · have hplace : a ∈ places s := ha
      have hk : Keeps t s (arrive n t r pr s) := Keeps.arrive hw.toHeld n r pr
      have harr : ((arrive n t r pr s).heap a).arrivalTime = (s.heap a).arrivalTime :=
        hk.arrivalTime (hw.lt_fresh hplace)
      rw [← arrive_remaining hw.toHeld, hk.remaining a (hw.lt_fresh hplace), harr]
      exact hold a hplace
  have hscheme : (arrive n t r pr s).currentScheme = .psjf := hs
  intro a ha b hb
  have h1 := hshort a ha
  have h2 := hshort b hb
  unfold Short at h1 h2
  rw [hscheme, Fits, field, field, if_pos rfl, if_pos rfl]
  omega

/-- **The jobs on the cores go before the jobs that wait**, in every state. -/
theorem ordered (hcores : 0 < opts.cores) (h : Workload lines) (hint : Ints lines)
    (hs : opts.scheme = .psjf) (n : ℕ) :
    Ordered .psjf (stateAt opts lines n).time (stateAt opts lines n).sched := by
  induction n with
  | zero => exact Eecs678.Lib.Best.BestFirst.nil
  | succ n ih =>
    have hw := (stateAt_inv hcores h n).lock.wf
    cases stateAt_move hcores h n with
    | quiet _ _ hsched htime => rwa [hsched, htime]
    | finish i j r _ _ _ _ hcall _ htime =>
      obtain ⟨p, hp⟩ := finished_jobOn hcall
      rw [htime]
      exact finished_ordered hw hp hcall ih
    | expire i r hpc => exact absurd (hs.symm.trans (quantum_rr n hpc)) (by simp)
    | arrive i j c _ hi _ hdue hcall _ htime =>
      have hsch := (stateAt_scheme hcores h n).trans hs
      have hfit : AllFit (arrive j.jobId (stateAt opts lines n).time j.runTime j.priority
          (stateAt opts lines n).sched) (stateAt opts lines n).sched.fresh :=
        allFit_arrive hw hsch (hdue ▸ job_short hcores h hint (List.mem_of_getElem? hi))
          fun p hp => place_short hcores h hint hp
      have hnew := newJob_ordered (Or.inl rfl) hsch hw ih hfit
      rw [hcall] at hnew
      rwa [htime]
    | run _ _ hsched htime =>
      rw [hsched, htime]
      exact ih.later hw (by omega)

/-- With one core, **the job that runs has the least remaining time** of the jobs that arrived. -/
theorem shortest (hone : opts.cores = 1) (h : Workload lines) (hint : Ints lines)
    (hs : opts.scheme = .psjf) {n : ℕ} {j j' : SimulatorJob} (hj : j ∈ (stateAt opts lines n).jobs)
    (hc : j.coreId ≠ -1) (hj' : j' ∈ (stateAt opts lines n).jobs) (ha : j'.arrived = true) :
    j.runTime ≤ j'.runTime := by
  have hcores : 0 < opts.cores := by omega
  have hinv := stateAt_inv hcores h n
  obtain ⟨p, -, hon, he⟩ := hinv.jobOn_core hj hc
  obtain ⟨q, hq, he'⟩ := hinv.exists_place hj' ha
  obtain ⟨h0, hp⟩ := jobOn_eq hon
  have hlen := hinv.lock.slots
  rw [show j.runTime = trueRemaining (stateAt opts lines n).time (stateAt opts lines n).sched p from
    (congrArg Entry.remaining he).symm, show j'.runTime = trueRemaining (stateAt opts lines n).time
      (stateAt opts lines n).sched q from (congrArg Entry.remaining he').symm]
  rcases List.mem_append.mp hq with hq | hq
  · -- there is one slot only
    obtain ⟨c, hqc⟩ := exists_slot hq
    have h1 := (List.getElem?_eq_some_iff.mp hp).1
    have h2 := (List.getElem?_eq_some_iff.mp hqc).1
    rw [show c = j.coreId.toNat by omega, hp, Option.some.injEq, Option.some.injEq] at hqc
    rw [hqc]
  · have hkey := (ordered hcores h hint hs n).best p (mem_reduceOption hp) q hq
    rw [key, key, if_pos rfl, if_pos rfl, Prod.Lex.toLex_le_toLex] at hkey
    simp only at hkey
    omega

/-! ### The backlog of the simulation -/

/-- The units left of job `k`, if it arrived and did not finish. -/
def backlog (jobs : List SimulatorJob) (k : ℕ) : ℕ :=
  (jobs.map fun j => if j.arrived = true ∧ j.jobId = (k : ℤ) then j.runTime.toNat else 0).sum

theorem backlog_cons (j : SimulatorJob) (jobs : List SimulatorJob) (k : ℕ) :
    backlog (j :: jobs) k =
      (if j.arrived = true ∧ j.jobId = k then j.runTime.toNat else 0) + backlog jobs k := by
  rw [backlog, List.map_cons, List.sum_cons, ← backlog]

theorem backlog_perm {jobs jobs' : List SimulatorJob} (h : jobs.Perm jobs') :
    backlog jobs = backlog jobs' := by
  funext k
  exact (h.map _).sum_eq

/-- Where a job runs does not matter. -/
theorem backlog_map {f : SimulatorJob → SimulatorJob} (jobs : List SimulatorJob)
    (hf : ∀ j, (f j).arrived = j.arrived ∧ (f j).jobId = j.jobId ∧ (f j).runTime = j.runTime) :
    backlog (jobs.map f) = backlog jobs := by
  funext k
  rw [backlog, List.map_map, backlog]
  refine congrArg List.sum (List.map_congr_left fun j _ => ?_)
  obtain ⟨h1, h2, h3⟩ := hf j
  rw [Function.comp_apply, h1, h2, h3]

theorem backlog_eq_zero {jobs : List SimulatorJob} {k : ℕ}
    (h : ∀ j ∈ jobs, j.arrived = true → j.jobId = k → j.runTime = 0) : backlog jobs k = 0 := by
  refine List.sum_eq_zero fun x hx => ?_
  obtain ⟨j, hj, rfl⟩ := List.mem_map.mp hx
  split_ifs with hk
  · rw [h j hj hk.1 hk.2]
    rfl
  · rfl

theorem backlog_of_mem {jobs : List SimulatorJob} (hnd : (jobs.map SimulatorJob.jobId).Nodup)
    {j : SimulatorJob} (hj : j ∈ jobs) (ha : j.arrived = true) {k : ℕ} (hk : j.jobId = k) :
    backlog jobs k = j.runTime.toNat := by
  obtain ⟨l₁, l₂, rfl⟩ := List.append_of_mem hj
  have hperm : (l₁ ++ j :: l₂).Perm (j :: (l₁ ++ l₂)) := List.perm_middle
  rw [backlog_perm hperm, backlog_cons, if_pos ⟨ha, hk⟩, backlog_eq_zero, Nat.add_zero]
  intro j' hj' _ hk'
  have hnd' := (hperm.map SimulatorJob.jobId).nodup_iff.mp hnd
  refine absurd (List.mem_map.mpr ⟨j', hj', ?_⟩) (List.nodup_cons.mp hnd').1
  exact hk'.trans hk.symm

/-- A finished job has no units left. -/
theorem backlog_deleteJob {jobs : List SimulatorJob} {i : ℕ} {j : SimulatorJob}
    (hi : jobs[i]? = some j) (h0 : j.runTime = 0) : backlog (deleteJob i jobs) = backlog jobs := by
  rw [← backlog_perm (deleteJob_spec hi).1]
  funext k
  rw [backlog_cons, h0]
  split_ifs <;> simp

/-- **An arrival adds the job to the backlog.** -/
theorem backlog_settle {jobs : List SimulatorJob} (hnd : (jobs.map SimulatorJob.jobId).Nodup) {i k : ℕ}
    {j : SimulatorJob} (hi : jobs[i]? = some j) (ha : j.arrived = false) (hk : j.jobId = k) (c : ℤ) :
    backlog (jobs.modify i (settle c)) = Function.update (backlog jobs) k j.runTime.toNat := by
  obtain ⟨rest, hp, hp'⟩ := modify_perm hi (settle c)
  have hnd' := List.nodup_cons.mp ((hp.map SimulatorJob.jobId).nodup_iff.mp hnd)
  rw [backlog_perm hp, backlog_perm hp']
  funext k'
  rw [backlog_cons, Function.update_apply]
  split_ifs with hset hkk hkk
  · -- no other job has its number
    rw [backlog_eq_zero, Nat.add_zero]
    · rfl
    · intro j' hj' _ hk'
      refine absurd (List.mem_map.mpr ⟨j', hj', ?_⟩) hnd'.1
      rw [hk', hkk, hk]
  · exact absurd (Int.natCast_inj.mp (hset.2.symm.trans hk)) hkk
  · exact absurd ⟨rfl, hk.trans (congrArg _ hkk.symm)⟩ hset
  · rw [backlog_cons, if_neg fun h => by simp [ha] at h]

/-- With one core, no two jobs run. -/
theorem alone {total : ℕ} {s : Sim} (hone : opts.cores = 1) (h : Inv opts total s)
    {j j' : SimulatorJob} (hj : j ∈ s.jobs) (hc : j.coreId ≠ -1) (hj' : j' ∈ s.jobs)
    (hc' : j'.coreId ≠ -1) : j' = j := by
  have hr := (h.range hj).resolve_left hc
  have hr' := (h.range hj').resolve_left hc'
  exact List.inj_on_of_nodup_map h.lock.ids hj' hj (same_core h hj hc hj' (by omega)).symm

/-- **A unit of time takes a unit from the backlog** of the job that runs. -/
theorem backlog_run {total : ℕ} {s : Sim} (hone : opts.cores = 1) (h : Inv opts total s)
    {j : SimulatorJob} (hj : j ∈ s.jobs) (hc : j.coreId ≠ -1) {k : ℕ} (hk : j.jobId = k) :
    backlog (s.jobs.map runJob) = Function.update (backlog s.jobs) k (backlog s.jobs k - 1) := by
  have ha := h.idle hj hc
  have hrun : runJob j = { j with runTime := j.runTime - 1 } := if_neg hc
  funext k'
  rw [Function.update_apply, backlog_of_mem h.lock.ids hj ha hk]
  split_ifs with hkk
  · have hids : ((s.jobs.map runJob).map SimulatorJob.jobId).Nodup := by
      rw [jobIds_runJob]
      exact h.lock.ids
    have hmem : { j with runTime := j.runTime - 1 } ∈ s.jobs.map runJob :=
      List.mem_map.mpr ⟨j, hj, hrun⟩
    rw [backlog_of_mem hids hmem ha (hkk ▸ hk)]
    simp only
    omega
  · rw [backlog, List.map_map, backlog]
    refine congrArg List.sum (List.map_congr_left fun j' hj' => ?_)
    by_cases hc' : j'.coreId = -1
    · rw [Function.comp_apply, runJob, if_pos hc']
    · obtain rfl := alone hone h hj hc hj' hc'
      have hne : j'.jobId ≠ (k' : ℤ) := fun he => hkk (Int.natCast_inj.mp (he.symm.trans hk))
      rw [Function.comp_apply, hrun, if_neg fun h => hne h.2, if_neg fun h => hne h.2]

/-! ### Another schedule of the jobs -/

/-- `σ` is a schedule of the jobs on one core: in each unit of time at most one job, none before its
arrival, and each for its running time. -/
structure Feasible (lines : List Line) (σ : List (Option ℕ)) : Prop where
  known : ∀ k, some k ∈ σ → k < lines.length
  release : ∀ (t k : ℕ) (l : Line), lines[k]? = some l → σ[t]? = some (some k) → l.arrivalTime ≤ t
  units : ∀ (k : ℕ) (l : Line), lines[k]? = some l → (σ.count (some k) : ℤ) = l.runTime

/-- Job `k` has not arrived. -/
def Pending (jobs : List SimulatorJob) (k : ℕ) : Prop :=
  ∃ j ∈ jobs, j.arrived = false ∧ j.jobId = (k : ℤ)

instance (jobs : List SimulatorJob) (k : ℕ) : Decidable (Pending jobs k) :=
  inferInstanceAs (Decidable (∃ j ∈ jobs, _))

theorem pending_map {f : SimulatorJob → SimulatorJob} (hf : ∀ j, (f j).arrived = j.arrived)
    (hid : ∀ j, (f j).jobId = j.jobId) {jobs : List SimulatorJob} {k : ℕ} :
    Pending (jobs.map f) k ↔ Pending jobs k := by
  unfold Pending
  simp [hf, hid]

theorem pending_cons {j : SimulatorJob} {jobs : List SimulatorJob} {k : ℕ} :
    Pending (j :: jobs) k ↔ (j.arrived = false ∧ j.jobId = (k : ℤ)) ∨ Pending jobs k := by
  unfold Pending
  simp

theorem pending_perm {jobs jobs' : List SimulatorJob} (h : jobs.Perm jobs') {k : ℕ} :
    Pending jobs k ↔ Pending jobs' k :=
  ⟨fun ⟨j, hj, hp⟩ => ⟨j, h.mem_iff.mp hj, hp⟩, fun ⟨j, hj, hp⟩ => ⟨j, h.mem_iff.mpr hj, hp⟩⟩

/-- The units that `σ` has left of job `k` at `time`, if it arrived. -/
def otherBacklog (σ : List (Option ℕ)) (time : ℤ) (jobs : List SimulatorJob) (k : ℕ) : ℕ :=
  if Pending jobs k then 0 else unitsLeft σ time.toNat k

theorem otherBacklog_congr {σ : List (Option ℕ)} {time : ℤ} {jobs jobs' : List SimulatorJob}
    (h : ∀ k, Pending jobs' k ↔ Pending jobs k) :
    otherBacklog σ time jobs' = otherBacklog σ time jobs := by
  funext k
  rw [otherBacklog, otherBacklog, if_congr (h k) rfl rfl]

/-- An arrival adds all units of the job. -/
theorem otherBacklog_settle {σ : List (Option ℕ)} (time : ℤ) {jobs : List SimulatorJob}
    (hnd : (jobs.map SimulatorJob.jobId).Nodup) {i k : ℕ} {j : SimulatorJob}
    (hi : jobs[i]? = some j) (hk : j.jobId = k) (c : ℤ) :
    otherBacklog σ time (jobs.modify i (settle c)) =
      Function.update (otherBacklog σ time jobs) k (unitsLeft σ time.toNat k) := by
  obtain ⟨rest, hp, hp'⟩ := modify_perm hi (settle c)
  have hnd' := List.nodup_cons.mp ((hp.map SimulatorJob.jobId).nodup_iff.mp hnd)
  funext k'
  rw [Function.update_apply, otherBacklog, otherBacklog, if_congr (pending_perm hp') rfl rfl,
    if_congr (pending_perm hp) rfl rfl, if_congr pending_cons rfl rfl, if_congr pending_cons rfl rfl]
  have hset : ¬ ((settle c j).arrived = false ∧ (settle c j).jobId = (k' : ℤ)) := fun h => by
    simp [settle] at h
  by_cases hkk : k' = k
  · subst hkk
    have hrest : ¬ Pending rest k' := by
      rintro ⟨j', hj', -, hk'⟩
      exact hnd'.1 (List.mem_map.mpr ⟨j', hj', hk'.trans hk.symm⟩)
    rw [if_pos rfl, if_neg fun h => h.elim hset hrest]
  · have hold : ¬ (j.arrived = false ∧ j.jobId = (k' : ℤ)) := fun h =>
      hkk (Int.natCast_inj.mp (h.2.symm.trans hk))
    rw [if_neg hkk, if_congr (or_iff_right hset) rfl rfl, if_congr (or_iff_right hold) rfl rfl]

/-! ### The simulation stays ahead -/

section Ahead
variable {σ : List (Option ℕ)}

/-- Without a job on the core there is no backlog. -/
theorem backlog_idle {total : ℕ} {s : Sim} (hcores : 0 < opts.cores) (h : Inv opts total s)
    (hidle : ¬ ∃ j ∈ s.jobs, j.coreId ≠ -1) {j : SimulatorJob} (hj : j ∈ s.jobs) :
    j.arrived = false := by
  by_contra ha
  obtain ⟨p, hp, -⟩ := h.exists_place hj (by simpa using ha)
  exact hidle (h.exists_running hcores hp)

theorem run_ahead (hone : opts.cores = 1) (h : Workload lines) (hint : Ints lines)
    (hs : opts.scheme = .psjf) {n : ℕ} (hpc : (stateAt opts lines n).pc = .run)
    (ih : Ahead (Finset.range lines.length) (backlog (stateAt opts lines n).jobs)
      (otherBacklog σ (stateAt opts lines n).time (stateAt opts lines n).jobs)) :
    Ahead (Finset.range lines.length) (backlog ((stateAt opts lines n).jobs.map runJob))
      (otherBacklog σ ((stateAt opts lines n).time + 1) ((stateAt opts lines n).jobs.map runJob)) := by
  have hcores : 0 < opts.cores := by omega
  have hinv := stateAt_inv hcores h n
  have ht := time_nonneg hcores h n
  have hnext : ((stateAt opts lines n).time + 1).toNat = (stateAt opts lines n).time.toNat + 1 := by
    omega
  by_cases hidle : ∃ j ∈ (stateAt opts lines n).jobs, j.coreId ≠ -1
  · obtain ⟨j, hj, hc⟩ := hidle
    obtain ⟨k, l, hk, ho⟩ := origin hcores h n j hj
    obtain ⟨_, -, hg⟩ := hinv.good_mem hj
    rw [hpc] at hg
    have hleft := hg.left
    have h0 : j.runTime ≠ 0 := fun h0 => (hg.ended h0).2
    have hback := backlog_of_mem hinv.lock.ids hj (hinv.idle hj hc) ho.jobId
    have hmem : k ∈ Finset.range lines.length :=
      Finset.mem_range.mpr (List.getElem?_eq_some_iff.mp hk).1
    rw [backlog_run hone hinv hj hc ho.jobId]
    refine ih.serve hmem (by omega) (fun i _ hpos => ?_)
      ((σ[(stateAt opts lines n).time.toNat]?.join).getD 0) (fun i hi => ?_) ?_
    · -- a job with units left arrived, and the job that runs is the shortest
      have hex : ∃ j' ∈ (stateAt opts lines n).jobs, j'.arrived = true ∧ j'.jobId = (i : ℤ) := by
        by_contra hne
        rw [backlog_eq_zero fun j' hj' ha hi => absurd ⟨j', hj', ha, hi⟩ hne] at hpos
        omega
      obtain ⟨j', hj', ha', hi⟩ := hex
      have hle := shortest hone h hint hs hj hc hj' ha'
      rw [hback, backlog_of_mem hinv.lock.ids hj' ha' hi]
      omega
    · rw [otherBacklog, otherBacklog, if_congr (pending_map runJob_arrived runJob_jobId) rfl rfl, hnext]
      split_ifs
      · exact le_refl _
      · refine unitsLeft_other fun he => hi ?_
        rw [he]
        rfl
    · rw [otherBacklog, otherBacklog, if_congr (pending_map runJob_arrived runJob_jobId) rfl rfl, hnext]
      split_ifs
      · exact Nat.zero_le _
      · exact unitsLeft_served ..
  · refine Ahead.idle fun k _ => backlog_eq_zero fun j hj ha _ => ?_
    obtain ⟨j', hj', rfl⟩ := List.mem_map.mp hj
    rw [runJob_arrived, backlog_idle hcores hinv hidle hj'] at ha
    simp at ha

theorem arrive_ahead (hcores : 0 < opts.cores) (h : Workload lines) (hσ : Feasible lines σ)
    {n i k : ℕ} {j : SimulatorJob} {l : Line} (hi : (stateAt opts lines n).jobs[i]? = some j)
    (hnew : j.arrived = false) (hdue : j.arrivalTime = (stateAt opts lines n).time)
    (hk : lines[k]? = some l) (ho : Origin k l j) (c : ℤ)
    (ih : Ahead (Finset.range lines.length) (backlog (stateAt opts lines n).jobs)
      (otherBacklog σ (stateAt opts lines n).time (stateAt opts lines n).jobs)) :
    Ahead (Finset.range lines.length)
      (backlog (((stateAt opts lines n).jobs.map (clearCore c)).modify i (settle c)))
      (otherBacklog σ (stateAt opts lines n).time
        (((stateAt opts lines n).jobs.map (clearCore c)).modify i (settle c))) := by
  have hinv := stateAt_inv hcores h n
  have hj := List.mem_of_getElem? hi
  have hids : (((stateAt opts lines n).jobs.map (clearCore c)).map SimulatorJob.jobId).Nodup := by
    rw [List.map_map]
    simpa [Function.comp_def] using hinv.lock.ids
  have hi' : ((stateAt opts lines n).jobs.map (clearCore c))[i]? = some (clearCore c j) := by
    rw [List.getElem?_map, hi, Option.map_some]
  have hid : (clearCore c j).jobId = k := (clearCore_jobId c j).trans ho.jobId
  -- the other schedule has all units of the job left
  have hunits : unitsLeft σ (stateAt opts lines n).time.toNat k = j.runTime.toNat := by
    rw [unitsLeft_release fun u hu => ?_]
    · have h1 := hσ.units k l hk
      have h2 := ho.whole hnew
      omega
    · have h1 := hσ.release u k l hk hu
      have h2 := ho.arrivalTime
      omega
  have hx : backlog (stateAt opts lines n).jobs k = 0 := backlog_eq_zero fun j' hj' ha hk' => by
    rw [List.inj_on_of_nodup_map hinv.lock.ids hj' hj (hk'.trans ho.jobId.symm), hnew] at ha
    simp at ha
  have hy : otherBacklog σ (stateAt opts lines n).time (stateAt opts lines n).jobs k = 0 :=
    if_pos ⟨j, hj, hnew, ho.jobId⟩
  rw [backlog_settle hids hi' ((clearCore_arrived c j).trans hnew) hid, otherBacklog_settle _ hids hi' hid,
    clearCore_runTime, hunits, backlog_map _ fun a => ⟨clearCore_arrived .., clearCore_jobId ..,
      clearCore_runTime ..⟩, otherBacklog_congr fun _ => pending_map (clearCore_arrived c)
        (clearCore_jobId c)]
  exact ih.arrive (Finset.mem_range.mpr (List.getElem?_eq_some_iff.mp hk).1) hx hy _

/-- **The simulation stays ahead of every other schedule.** -/
theorem ahead_any (hone : opts.cores = 1) (h : Workload lines) (hint : Ints lines)
    (hs : opts.scheme = .psjf) (hσ : Feasible lines σ) (n : ℕ) :
    Ahead (Finset.range lines.length) (backlog (stateAt opts lines n).jobs)
      (otherBacklog σ (stateAt opts lines n).time (stateAt opts lines n).jobs) := by
  have hcores : 0 < opts.cores := by omega
  induction n with
  | zero =>
    refine Ahead.idle fun k _ => backlog_eq_zero fun j hj ha _ => ?_
    have hj' : j ∈ load lines := hj
    rw [load, List.mem_mapIdx] at hj'
    obtain ⟨i, hi, rfl⟩ := hj'
    simp at ha
  | succ n ih =>
    have hinv := stateAt_inv hcores h n
    cases stateAt_move hcores h n with
    | quiet _ hjobs _ htime => rwa [hjobs, htime]
    | finish i j r hpc hi h0 hcore _ hjobs htime =>
      have hback : backlog (stateAt opts lines (n + 1)).jobs = backlog (stateAt opts lines n).jobs := by
        rw [hjobs, backlog_map _ fun a => ⟨activateJob_arrived .., activateJob_jobId ..,
          activateJob_runTime ..⟩, backlog_deleteJob hi h0]
      rw [hback, htime, otherBacklog_congr fun k => ?_]
      · exact ih
      · have ha := hinv.idle (List.mem_of_getElem? hi) hcore
        rw [hjobs, pending_map (activateJob_arrived r j.coreId) (activateJob_jobId r j.coreId),
          ← pending_perm (deleteJob_spec hi).1, pending_cons]
        simp [ha]
    | expire i r hpc => exact absurd (hs.symm.trans (quantum_rr n hpc)) (by simp)
    | arrive i j c _ hi hnew hdue _ hjobs htime =>
      obtain ⟨k, l, hk, ho⟩ := origin hcores h n j (List.mem_of_getElem? hi)
      rw [hjobs, htime]
      exact arrive_ahead hcores h hσ hi hnew hdue hk ho c ih
    | run hpc hjobs _ htime =>
      rw [hjobs, htime]
      exact run_ahead hone h hint hs hpc ih

/-! ### The finish times -/

theorem pending_lt (hcores : 0 < opts.cores) (h : Workload lines) (hσ : Feasible lines σ) {n k : ℕ}
    (hpc : (stateAt opts lines n).pc = .run) (hp : Pending (stateAt opts lines n).jobs k) :
    (stateAt opts lines n).time.toNat < finishTime k σ := by
  obtain ⟨j, hj, ha, hk⟩ := hp
  obtain ⟨k', l, hl, ho⟩ := origin hcores h n j hj
  obtain rfl : k' = k := Int.natCast_inj.mp (ho.jobId.symm.trans hk)
  obtain ⟨_, -, hg⟩ := (stateAt_inv hcores h n).good_mem hj
  have hdue := hg.due
  rw [hpc, ha, cutoff] at hdue
  have hlate : ¬ j.arrivalTime < (stateAt opts lines n).time + 1 := by simpa using hdue
  have harr := ho.arrivalTime
  have h1 := h l (List.mem_of_getElem? hl)
  have h2 := hσ.units k' l hl
  -- all units of the job are still to come
  have hunits : unitsLeft σ (stateAt opts lines n).time.toNat k' = σ.count (some k') :=
    unitsLeft_release fun u hu => by
      have h3 := hσ.release u k' l hl hu
      omega
  rw [← unitsLeft_pos, hunits]
  omega

/-- A job of the array has not arrived, or it has units left. -/
theorem jobs_le (hcores : 0 < opts.cores) (h : Workload lines) {n : ℕ}
    (hpc : (stateAt opts lines n).pc = .run) :
    (stateAt opts lines n).jobs.length ≤
      ((Finset.range lines.length).filter fun k => Pending (stateAt opts lines n).jobs k).card +
        ((Finset.range lines.length).filter fun k => 0 < backlog (stateAt opts lines n).jobs k).card := by
  have hinv := stateAt_inv hcores h n
  have hlen := List.toFinset_card_of_nodup hinv.lock.ids
  rw [List.length_map] at hlen
  rw [← hlen]
  refine le_trans (Finset.card_le_card fun x hx => ?_) ((Finset.card_image_le
    (f := fun k : ℕ => (k : ℤ))).trans (Finset.card_union_le _ _))
  obtain ⟨j, hj, rfl⟩ := List.mem_map.mp (List.mem_toFinset.mp hx)
  obtain ⟨k, l, hk, ho⟩ := origin hcores h n j hj
  have hmem : k ∈ Finset.range lines.length :=
    Finset.mem_range.mpr (List.getElem?_eq_some_iff.mp hk).1
  refine Finset.mem_image.mpr ⟨k, Finset.mem_union.mpr ?_, ho.jobId.symm⟩
  by_cases ha : j.arrived = true
  · obtain ⟨_, -, hg⟩ := hinv.good_mem hj
    rw [hpc] at hg
    have hleft := hg.left
    have h0 : j.runTime ≠ 0 := fun h0 => (hg.ended h0).2
    refine Or.inr (Finset.mem_filter.mpr ⟨hmem, ?_⟩)
    rw [backlog_of_mem hinv.lock.ids hj ha ho.jobId]
    omega
  · exact Or.inl (Finset.mem_filter.mpr ⟨hmem, j, hj, by simpa using ha, ho.jobId⟩)

/-- **Another schedule has no fewer unfinished jobs.** -/
theorem unfinished_le (hone : opts.cores = 1) (h : Workload lines) (hint : Ints lines)
    (hs : opts.scheme = .psjf) (hσ : Feasible lines σ) {n : ℕ}
    (hpc : (stateAt opts lines n).pc = .run) :
    (stateAt opts lines n).jobs.length ≤ ((Finset.range lines.length).filter fun k =>
      (stateAt opts lines n).time.toNat < finishTime k σ).card := by
  have hcores : 0 < opts.cores := by omega
  have hinv := stateAt_inv hcores h n
  have hahead := (ahead_any hone h hint hs hσ n).card_le
  have hsplit := jobs_le hcores h hpc
  have hdisjoint : Disjoint
      ((Finset.range lines.length).filter fun k => Pending (stateAt opts lines n).jobs k)
      ((Finset.range lines.length).filter fun k => 0 < otherBacklog σ (stateAt opts lines n).time
        (stateAt opts lines n).jobs k) := by
    refine Finset.disjoint_filter.mpr fun k _ hp hpos => ?_
    rw [otherBacklog, if_pos hp] at hpos
    omega
  have hsub : ((Finset.range lines.length).filter fun k => Pending (stateAt opts lines n).jobs k) ∪
      ((Finset.range lines.length).filter fun k => 0 < otherBacklog σ (stateAt opts lines n).time
        (stateAt opts lines n).jobs k) ⊆ (Finset.range lines.length).filter fun k =>
          (stateAt opts lines n).time.toNat < finishTime k σ := by
    intro k hk
    rcases Finset.mem_union.mp hk with hk | hk
    · obtain ⟨hmem, hp⟩ := Finset.mem_filter.mp hk
      exact Finset.mem_filter.mpr ⟨hmem, pending_lt hcores h hσ hpc hp⟩
    · obtain ⟨hmem, hpos⟩ := Finset.mem_filter.mp hk
      unfold otherBacklog at hpos
      split_ifs at hpos
      · omega
      · exact Finset.mem_filter.mpr ⟨hmem, unitsLeft_pos.mp hpos⟩
  have hcard := Finset.card_le_card hsub
  rw [Finset.card_union_of_disjoint hdisjoint] at hcard
  omega

/-- A unit of time for the jobs that are not finished. -/
theorem sum_min_succ (J : Finset ℕ) {t : ℤ} (ht : 0 ≤ t) :
    ∑ k ∈ J, min (finishTime k σ : ℤ) (t + 1) =
      ∑ k ∈ J, min (finishTime k σ : ℤ) t + (J.filter fun k => t.toNat < finishTime k σ).card := by
  have hone : ∀ k ∈ J, min (finishTime k σ : ℤ) (t + 1) =
      min (finishTime k σ : ℤ) t + if t.toNat < finishTime k σ then 1 else 0 := fun k _ => by
    split_ifs <;> omega
  rw [Finset.sum_congr rfl hone, Finset.sum_add_distrib, Finset.sum_boole]

/-- **The finish times so far**, with the time for each unfinished job, are at most those of the other
schedule. -/
theorem finish_sum_le (hone : opts.cores = 1) (h : Workload lines) (hint : Ints lines)
    (hs : opts.scheme = .psjf) (hσ : Feasible lines σ) (n : ℕ) :
    sumFinished Prod.snd (trace opts lines n) +
      (stateAt opts lines n).jobs.length * (stateAt opts lines n).time ≤
        ∑ k ∈ Finset.range lines.length, min (finishTime k σ : ℤ) (stateAt opts lines n).time := by
  have hcores : 0 < opts.cores := by omega
  induction n with
  | zero =>
    have h0 : ∀ k ∈ Finset.range lines.length, min (finishTime k σ : ℤ) 0 = 0 := fun k _ => by omega
    have htime : (stateAt opts lines 0).time = 0 := rfl
    rw [htime, Finset.sum_congr rfl h0]
    simp [sumFinished, trace, finishes]
  | succ n ih =>
    have hsame : finishes (events (stateAt opts lines n)) = [] →
        sumFinished Prod.snd (trace opts lines (n + 1)) = sumFinished Prod.snd (trace opts lines n) :=
      fun hev => by rw [trace_succ, sumFinished_events _ hev]
    cases stateAt_move hcores h n with
    | quiet hev hjobs _ htime => rwa [hsame (finishes_quiet hev), hjobs, htime]
    | finish i j r hpc hi h0 _ _ hjobs htime =>
      have hlen := (deleteJob_spec hi).1.length_eq
      rw [List.length_cons] at hlen
      have hsum : sumFinished Prod.snd (trace opts lines (n + 1)) =
          sumFinished Prod.snd (trace opts lines n) + (stateAt opts lines n).time := by
        rw [trace_succ, sumFinished_append, events_finish hpc hi h0]
        simp [sumFinished, finishes]
      rw [hsum, hjobs, htime, List.length_map]
      rw [← hlen] at ih
      push_cast at ih
      linarith
    | expire i r hpc => exact absurd (hs.symm.trans (quantum_rr n hpc)) (by simp)
    | arrive i j c hpc _ _ _ _ hjobs htime =>
      rw [hsame (finishes_quiet (by simp [events, hpc])), hjobs, htime, List.length_modify,
        List.length_map]
      exact ih
    | run hpc hjobs _ htime =>
      have hle := unfinished_le hone h hint hs hσ hpc
      rw [hsame (finishes_run hpc), hjobs, htime, List.length_map,
        sum_min_succ _ (time_nonneg hcores h n), mul_add, mul_one]
      omega

end Ahead

/-! ### Optimality -/

/-- The average over the jobs of `f`, given the number of the job and its finish time in the schedule. -/
def average (f : ℤ × ℤ → ℤ) (lines : List Line) (σ : List (Option ℕ)) : ℚ :=
  ((∑ k ∈ Finset.range lines.length, f (k, finishTime k σ) : ℤ) : ℚ) / lines.length

section Statement
variable {σ : List (Option ℕ)}

/-- At the end, a sum over the jobs that finished is a sum over the lines. -/
theorem sumFinished_jobs (hcores : 0 < opts.cores) (h : Workload lines) {n : ℕ}
    (hnil : (stateAt opts lines n).jobs = []) (g : ℤ → ℤ) :
    sumFinished (fun x => g x.1) (trace opts lines n) = ∑ k ∈ Finset.range lines.length, g k := by
  have hids := (finishes_done hcores h hnil).map g
  rw [List.map_map, List.map_map] at hids
  exact hids.sum_eq

/-- A cost of a job that grows with its finish time. -/
theorem cost_le (hone : opts.cores = 1) (h : Workload lines) (hint : Ints lines)
    (hs : opts.scheme = .psjf) (hσ : Feasible lines σ) {n : ℕ}
    (hnil : (stateAt opts lines n).jobs = []) (g : ℤ → ℤ) :
    sumFinished (fun x => x.2 - g x.1) (trace opts lines n) ≤
      ∑ k ∈ Finset.range lines.length, ((finishTime k σ : ℤ) - g k) := by
  have hcores : 0 < opts.cores := by omega
  have hle := finish_sum_le hone h hint hs hσ n
  have hmin : ∑ k ∈ Finset.range lines.length, min (finishTime k σ : ℤ) (stateAt opts lines n).time ≤
      ∑ k ∈ Finset.range lines.length, (finishTime k σ : ℤ) :=
    Finset.sum_le_sum fun k _ => min_le_left _ _
  have hadd : sumFinished Prod.snd (trace opts lines n) =
      sumFinished (fun x => x.2 - g x.1) (trace opts lines n) +
        sumFinished (fun x => g x.1) (trace opts lines n) := by
    rw [sumFinished, sumFinished, sumFinished, ← List.sum_map_add]
    exact congrArg List.sum (List.map_congr_left fun x _ => (sub_add_cancel x.2 (g x.1)).symm)
  rw [hnil, List.length_nil, hadd, sumFinished_jobs hcores h hnil] at hle
  rw [Finset.sum_sub_distrib]
  simp only [Nat.cast_zero, zero_mul, add_zero] at hle
  omega

/-- An average over the jobs that finished. -/
theorem average_le (hone : opts.cores = 1) (h : Workload lines) (hint : Ints lines)
    (hs : opts.scheme = .psjf) (hσ : Feasible lines σ) {n : ℕ}
    (hnil : (stateAt opts lines n).jobs = []) {f : ℤ × ℤ → ℤ} (g : ℤ → ℤ)
    (hf : ∀ x, f x = x.2 - g x.1) :
    (sumFinished f (trace opts lines n) : ℚ) / lines.length ≤ average f lines σ := by
  have hle := cost_le hone h hint hs hσ hnil g
  have hfun : f = fun x => x.2 - g x.1 := funext hf
  rw [average, hfun]
  gcongr

/-- The averages that are reported when floats are read as exact rationals. -/
theorem averages_le (hone : opts.cores = 1) (h : Workload lines) (hint : Ints lines)
    (hs : opts.scheme = .psjf) (hσ : Feasible lines σ) {n : ℕ}
    (hnil : (stateAt opts lines n).jobs = []) :
    schedulerAverageTurnaroundTime (stateAt opts lines n).sched ≤ average (turnaround lines) lines σ ∧
    schedulerAverageWaitingTime (stateAt opts lines n).sched ≤ average (waited lines) lines σ := by
  have hcores : 0 < opts.cores := by omega
  obtain ⟨hturn, hwait⟩ := averages_eq hcores h n
  rw [hturn, hwait, finished_all hcores h hnil]
  constructor
  · exact average_le hone h hint hs hσ hnil (fun k => (lineOf lines k).arrivalTime) fun _ => rfl
  · refine average_le hone h hint hs hσ hnil
      (fun k => (lineOf lines k).arrivalTime + (lineOf lines k).runTime) fun x => ?_
    rw [waited, turnaround, sub_sub]

/-! ### Two jobs in turn -/

/-- The schedule that runs job 0 for `a` units and then job 1 for `b`. -/
def inTurn (a b : ℕ) : List (Option ℕ) := List.replicate a (some 0) ++ List.replicate b (some 1)

theorem inTurn_feasible {a b c : ℕ} (hc : c ≤ a) : Feasible [⟨0, a, 0⟩, ⟨c, b, 0⟩] (inTurn a b) := by
  constructor
  · intro k hk
    rcases List.mem_append.mp hk with hk | hk
    · obtain rfl := Option.some.inj (List.eq_of_mem_replicate hk)
      exact Nat.zero_lt_two
    · obtain rfl := Option.some.inj (List.eq_of_mem_replicate hk)
      exact Nat.one_lt_two
  · intro t k l hl ht
    rcases k with _ | _ | k
    · obtain rfl := Option.some.inj hl
      exact Int.natCast_nonneg t
    · obtain rfl := Option.some.inj hl
      have hle : a ≤ t := by
        by_contra hlt
        rw [inTurn, List.getElem?_append_left (by simpa using hlt)] at ht
        simpa using List.eq_of_mem_replicate (List.mem_of_getElem? ht)
      exact Int.ofNat_le.mpr (hc.trans hle)
    · simp at hl
  · intro k l hl
    rcases k with _ | _ | k
    · obtain rfl := Option.some.inj hl
      simp [inTurn, List.count_replicate]
    · obtain rfl := Option.some.inj hl
      simp [inTurn, List.count_replicate]
    · simp at hl

theorem finishTime_inTurn (a b : ℕ) : finishTime 0 (inTurn a b) ≤ a ∧ finishTime 1 (inTurn a b) ≤ a + b := by
  constructor <;> refine not_lt.mp fun hlt => ?_
  · have hmem := lt_finishTime.mp hlt
    rw [inTurn, List.drop_left' List.length_replicate] at hmem
    simpa using List.eq_of_mem_replicate hmem
  · have hmem := lt_finishTime.mp hlt
    rw [List.drop_eq_nil_of_le (by simp [inTurn])] at hmem
    simp at hmem

theorem average_inTurn (a b : ℕ) :
    average (turnaround [⟨0, a, 0⟩, ⟨a, b, 0⟩]) [⟨0, a, 0⟩, ⟨a, b, 0⟩] (inTurn a b) ≤ (a + b) / 2 := by
  have htime := finishTime_inTurn a b
  have hsum : ((finishTime 0 (inTurn a b) : ℤ) - 0) + ((finishTime 1 (inTurn a b) : ℤ) - a) ≤
      (a + b : ℕ) := by omega
  have hcast := (Int.cast_le (R := ℚ)).mpr hsum
  rw [Int.cast_natCast, Nat.cast_add] at hcast
  rw [average, List.length_cons, List.length_singleton, Finset.sum_range_succ, Finset.sum_range_one]
  exact div_le_div_of_nonneg_right hcast zero_le_two

/-- **A job that arrives when the other one finishes** runs after it, so that both turnaround times are the
running times. -/
theorem finishes_inTurn (hone : opts.cores = 1) (hs : opts.scheme = .psjf) {a b : ℕ} (ha : 0 < a)
    (hb : 0 < b) (hint : a < 2 ^ 31 ∧ b < 2 ^ 31) {n : ℕ}
    (hnil : (stateAt opts [⟨0, a, 0⟩, ⟨a, b, 0⟩] n).jobs = []) :
    (finishes (trace opts [⟨0, a, 0⟩, ⟨a, b, 0⟩] n)).Perm [(0, (a : ℤ)), (1, (a + b : ℤ))] := by
  have hcores : 0 < opts.cores := by omega
  have h : Workload [⟨0, a, 0⟩, ⟨a, b, 0⟩] := by
    simp [Workload]
    omega
  have hints : Ints [⟨0, a, 0⟩, ⟨a, b, 0⟩] := by
    simp [Ints]
    omega
  obtain ⟨fin, hfin⟩ := exists_finish hcores h hnil
  have hperm := finishes_perm hcores h hnil hfin
  -- each job takes at least its running time
  have hbound : ∀ x ∈ [((0 : ℤ), fin 0), (1, fin 1)],
      (lineOf [⟨0, a, 0⟩, ⟨a, b, 0⟩] x.1).runTime ≤ turnaround [⟨0, a, 0⟩, ⟨a, b, 0⟩] x :=
    fun x hx => (finished_bounds hcores h (hperm.mem_iff.mpr hx)).2
  have h0 : (a : ℤ) ≤ fin 0 - 0 := hbound (0, fin 0) (by simp)
  have h1 : (b : ℤ) ≤ fin 1 - a := hbound (1, fin 1) (by simp)
  -- and together not more than in turn
  have hsum := cost_le hone h hints hs (inTurn_feasible (le_refl a)) hnil fun _ => 0
  rw [sumFinished_eq hcores h hnil hfin] at hsum
  have hle : fin 0 + fin 1 ≤ (finishTime 0 (inTurn a b) : ℤ) + finishTime 1 (inTurn a b) := by
    simpa [Finset.sum_range_succ] using hsum
  have htime := finishTime_inTurn a b
  have he0 : fin 0 = a := by omega
  have he1 : fin 1 = a + b := by omega
  have hlist : (List.range 2).map (fun k : ℕ => ((k : ℤ), fin k)) = [(0, (a : ℤ)), (1, (a + b : ℤ))] := by
    rw [← he1, ← he0]
    rfl
  exact hperm.trans (List.Perm.of_eq hlist)

/-- **PSJF on one core is optimal**, up to the rounding of floats. The simulation ends with each job finished
once, and the sum of the finish times is at most that of any other schedule of the same jobs on one core. So
are the average turnaround and waiting times, with floats read as exact rationals. The floats that are
reported are larger by at most one factor for each job and four more, the waiting time counted with
`2 / 2 ^ 24` of the turnaround time; and if the turnaround times sum to at most `2 ^ 24` they are at most
the floats next to the averages of the other schedule. -/
theorem psjf_optimal (hone : opts.cores = 1) (hs : opts.scheme = .psjf) (h : Workload lines)
    (hint : Ints lines) : ∃ n, (stateAt opts lines n).pc = .stop .done ∧
      ((finishes (trace opts lines n)).map Prod.fst).Perm
        ((List.range lines.length).map fun k : ℕ => (k : ℤ)) ∧
      ∀ σ : List (Option ℕ), Feasible lines σ →
        sumFinished Prod.snd (trace opts lines n) ≤
          ∑ k ∈ Finset.range lines.length, (finishTime k σ : ℤ) ∧
        schedulerAverageTurnaroundTime (stateAt opts lines n).sched ≤
          average (turnaround lines) lines σ ∧
        schedulerAverageWaitingTime (stateAt opts lines n).sched ≤ average (waited lines) lines σ ∧
        floatAverageTurnaroundTime (stateAt opts lines n).sched ≤
          grow 24 ^ (lines.length + 4) * average (turnaround lines) lines σ ∧
        floatAverageWaitingTime (stateAt opts lines n).sched ≤
          grow 24 ^ (lines.length + 4) *
            (average (waited lines) lines σ + 2 / 2 ^ 24 * average (turnaround lines) lines σ) ∧
        (sumFinished (turnaround lines) (trace opts lines n) ≤ 2 ^ 24 →
          floatAverageTurnaroundTime (stateAt opts lines n).sched ≤
            roundRat 24 (average (turnaround lines) lines σ) ∧
          floatAverageWaitingTime (stateAt opts lines n).sched ≤
            roundRat 24 (average (waited lines) lines σ)) := by
  have hcores : 0 < opts.cores := by omega
  obtain ⟨n, hn⟩ := Runs.halts hcores h
  have hnil := ((stateAt_inv hcores h n).out _ hn).2
  refine ⟨n, hn, finishes_done hcores h hnil, fun σ hσ => ?_⟩
  have hsum := cost_le hone h hint hs hσ hnil fun _ => 0
  simp only [sub_zero] at hsum
  obtain ⟨hturn, hwait⟩ := averages_le hone h hint hs hσ hnil
  obtain ⟨hfturn, hfwait⟩ := float_averages_le hcores h n
  rw [finished_all hcores h hnil] at hfturn hfwait
  have hgrow : (0 : ℚ) ≤ grow 24 ^ (lines.length + 4) :=
    pow_nonneg (zero_le_one.trans (one_le_grow 24)) _
  refine ⟨hsum, hturn, hwait, hfturn.trans (mul_le_mul_of_nonneg_left hturn hgrow),
    hfwait.trans (mul_le_mul_of_nonneg_left (add_le_add hwait ?_) hgrow), fun hsmall => ?_⟩
  · exact mul_le_mul_of_nonneg_left hturn (by norm_num)
  · obtain ⟨heturn, hewait⟩ := float_averages_eq hcores h hsmall
    obtain ⟨hturn0, hwait0⟩ := averages_nonneg hcores h n
    rw [heturn, hewait]
    exact ⟨roundRat_mono (by norm_num) hturn0 hturn, roundRat_mono (by norm_num) hwait0 hwait⟩

/-- A long job and a short one that arrives after it: to run the long one first takes longer. -/
theorem psjf_optimal_two : ∃ n, (stateAt ⟨1, .psjf, 1⟩ [⟨0, 3, 0⟩, ⟨1, 1, 0⟩] n).pc = .stop .done ∧
    sumFinished Prod.snd (trace ⟨1, .psjf, 1⟩ [⟨0, 3, 0⟩, ⟨1, 1, 0⟩] n) ≤ 7 ∧
    floatAverageTurnaroundTime (stateAt ⟨1, .psjf, 1⟩ [⟨0, 3, 0⟩, ⟨1, 1, 0⟩] n).sched ≤
      grow 24 ^ 6 * 3 := by
  have h : Workload [⟨0, 3, 0⟩, ⟨1, 1, 0⟩] := by simp [Workload]
  have hone : (⟨1, .psjf, 1⟩ : Options).cores = 1 := rfl
  obtain ⟨n, hn, -, hle⟩ := psjf_optimal hone rfl h (by simp [Ints])
  obtain ⟨hsum, -, -, hfloat, -⟩ := hle (inTurn 3 1) (inTurn_feasible (c := 1) (by norm_num))
  have haverage : average (turnaround [⟨0, 3, 0⟩, ⟨1, 1, 0⟩]) [⟨0, 3, 0⟩, ⟨1, 1, 0⟩] (inTurn 3 1) = 3 := by
    norm_num [average, Finset.sum_range_succ, turnaround, lineOf, finishTime, inTurn, List.replicate]
  exact ⟨n, hn, hsum, haverage ▸ hfloat⟩

/-- Two jobs in turn, whose running times are no floats. -/
def longJobs : List Line := [⟨0, 16777219, 0⟩, ⟨16777219, 16777223, 0⟩]

/-- The turnaround times of `longJobs` are 16777219 and 16777223, which are rounded to 16777220 and 16777224,
so that the average that is reported is 16777222. It is 16777221, and the float next to it is 16777220. -/
theorem psjf_optimal_rounds : ∃ n σ, (stateAt ⟨1, .psjf, 1⟩ longJobs n).pc = .stop .done ∧
    Feasible longJobs σ ∧
    average (turnaround longJobs) longJobs σ <
      floatAverageTurnaroundTime (stateAt ⟨1, .psjf, 1⟩ longJobs n).sched ∧
    roundRat 24 (average (turnaround longJobs) longJobs σ) <
      floatAverageTurnaroundTime (stateAt ⟨1, .psjf, 1⟩ longJobs n).sched := by
  have hcores : 0 < (⟨1, .psjf, 1⟩ : Options).cores := Nat.one_pos
  have h : Workload longJobs := by simp [Workload, longJobs]
  obtain ⟨n, hn⟩ := Runs.halts hcores h
  have hnil := ((stateAt_inv hcores h n).out _ hn).2
  have hσ : Feasible longJobs (inTurn 16777219 16777223) := inTurn_feasible (c := 16777219) (le_refl _)
  have hone : (⟨1, .psjf, 1⟩ : Options).cores = 1 := rfl
  have hfinish := finishes_inTurn hone rfl (a := 16777219) (b := 16777223)
    (by norm_num) (by norm_num) (by norm_num) hnil
  -- the two terms of the float, in either order
  have htotal : (stateAt ⟨1, .psjf, 1⟩ longJobs n).sched.floats.turnaroundTime = 33554444 := by
    have hterms := hfinish.map (floatTurnaround longJobs)
    rw [(floats_trace hcores h n).1]
    rcases List.perm_pair.mp hterms with he | he
    · exact (congrArg (sumRounded 24) he).trans (by decide)
    · exact (congrArg (sumRounded 24) he).trans (by decide)
  have hround : ∀ m : ℤ, roundRat 24 m = roundInt 24 m := roundRat_intCast 24
  have hreport : floatAverageTurnaroundTime (stateAt ⟨1, .psjf, 1⟩ longJobs n).sched = 16777222 := by
    have hdiv : ((33554444 : ℤ) : ℚ) / (longJobs.length : ℕ) = ((16777222 : ℤ) : ℚ) := by
      norm_num [longJobs]
    rw [floatAverageTurnaroundTime, finished_all hcores h hnil, htotal, floatAverage_eq _ (by decide), hdiv,
      hround]
    exact congrArg Int.cast (show roundInt 24 16777222 = 16777222 by decide)
  have hopt : 0 ≤ average (turnaround longJobs) longJobs (inTurn 16777219 16777223) ∧
      average (turnaround longJobs) longJobs (inTurn 16777219 16777223) ≤ 16777221 := by
    have hle := (averages_le rfl h (by simp [Ints, longJobs]) rfl hσ hnil).1
    refine ⟨(averages_nonneg hcores h n).1.trans hle, ?_⟩
    exact (average_inTurn 16777219 16777223).trans_eq (by norm_num)
  refine ⟨n, inTurn 16777219 16777223, hn, hσ, ?_, ?_⟩
  · rw [hreport]
    exact hopt.2.trans_lt (by norm_num)
  · have hle := roundRat_mono (p := 24) (by norm_num) hopt.1 (hopt.2.trans_eq (Int.cast_ofNat _).symm)
    rw [hround, show roundInt 24 (OfNat.ofNat 16777221) = 16777220 by decide] at hle
    rw [hreport]
    exact hle.trans_lt (by norm_num)

end Statement

end Eecs678.Simulator.ShortestFirst
