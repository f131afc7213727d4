import Eecs678.Simulator.Trace
import Mathlib.Algebra.BigOperators.Ring.Finset
import Mathlib.Algebra.Field.Rat
import Mathlib.Data.Set.Card
import Mathlib.Data.Int.Interval
import Mathlib.Tactic.FieldSimp

/-!
# The statistics of the scheduler

The scheduler gets the times of its reports by subtracting time stamps. Each job is executed for as many
units as it asked for, between its arrival and its finish (`executed`), so what is left of that interval
are the units in which it waits: `statistics_trace`.
-/

namespace Eecs678.Simulator.Statistics

open Eecs678.Scheduler.Model Eecs678.Simulator.Model Eecs678.Simulator.Jobs
open Eecs678.Simulator.Lockstep Eecs678.Simulator.Trace

variable {opts : Options} {lines : List Line}

/-! ### The units of a job -/

/-- The units in which a job is executed. -/
def ranUnits (tr : List Event) (job : ℤ) : Finset ℤ :=
  (tr.filterMap fun
    | .ran job' _ time => if job' = job then some time else none
    | .finished _ _ => none).toFinset

theorem mem_ranUnits {tr : List Event} {k u : ℤ} : u ∈ ranUnits tr k ↔ ∃ c, .ran k c u ∈ tr := by
  rw [ranUnits, List.mem_toFinset, List.mem_filterMap]
  constructor
  · rintro ⟨e, he, h⟩
    cases e with
    | ran k' c u' =>
      simp only [Option.ite_none_right_eq_some, Option.some.injEq] at h
      obtain ⟨rfl, rfl⟩ := h
      exact ⟨c, he⟩
    | finished => simp at h
  · rintro ⟨c, he⟩
    exact ⟨_, he, by simp⟩

theorem ranUnits_same {n : ℕ} (hpc : (stateAt opts lines n).pc ≠ .run) (k : ℤ) :
    ranUnits (trace opts lines (n + 1)) k = ranUnits (trace opts lines n) k := by
  ext u
  simp only [mem_ranUnits, ran_same hpc]

/-- **The run phase adds a unit** for each job on a core. -/
theorem ranUnits_run (hcores : 0 < opts.cores) (h : Workload lines) {n : ℕ}
    (hpc : (stateAt opts lines n).pc = .run) {j : SimulatorJob} (hj : j ∈ (stateAt opts lines n).jobs) :
    ranUnits (trace opts lines (n + 1)) j.jobId =
      if j.coreId = -1 then ranUnits (trace opts lines n) j.jobId
      else insert (stateAt opts lines n).time (ranUnits (trace opts lines n) j.jobId) := by
  ext u
  simp only [mem_ranUnits, ran_job hcores h hpc hj]
  split_ifs with hc
  · rw [mem_ranUnits]
    exact ⟨fun ⟨c, hr⟩ => ⟨c, hr.resolve_right fun hu => hu.2.1 hc⟩, fun ⟨c, hr⟩ => ⟨c, Or.inl hr⟩⟩
  · rw [Finset.mem_insert, mem_ranUnits]
    constructor
    · rintro ⟨c, hr | ⟨hu, -⟩⟩
      · exact Or.inr ⟨c, hr⟩
      · exact Or.inl hu
    · rintro (hu | ⟨c, hr⟩)
      · exact ⟨j.coreId, Or.inr ⟨hu, hc, rfl⟩⟩
      · exact ⟨c, Or.inl hr⟩

theorem ranUnits_past (hcores : 0 < opts.cores) (h : Workload lines) {n : ℕ} {k u : ℤ}
    (hu : u ∈ ranUnits (trace opts lines n) k) : u < (stateAt opts lines n).time := by
  obtain ⟨c, hr⟩ := mem_ranUnits.mp hu
  exact ran_past hcores h hr

theorem move_runTime {s s' : Sim} (hm : Move opts s s') (hpc : s.pc ≠ .run) :
    ∀ j' ∈ s'.jobs, ∃ j ∈ s.jobs, j'.jobId = j.jobId ∧ j'.runTime = j.runTime := by
  intro j' hj'
  cases hm with
  | quiet _ hjobs => exact ⟨j', hjobs ▸ hj', rfl, rfl⟩
  | finish i j r _ hi _ _ _ hjobs =>
    rw [hjobs] at hj'
    obtain ⟨a, ha, rfl⟩ := List.mem_map.mp hj'
    exact ⟨a, mem_deleteJob hi ha, activateJob_jobId .., activateJob_runTime ..⟩
  | expire i r _ _ hjobs =>
    rw [hjobs, List.map_map] at hj'
    obtain ⟨a, ha, rfl⟩ := List.mem_map.mp hj'
    exact ⟨a, ha, by simp, by simp⟩
  | arrive i j c _ _ _ _ _ hjobs =>
    rw [hjobs] at hj'
    obtain ⟨b, hb, hb'⟩ := mem_modify hj'
    obtain ⟨a, ha, rfl⟩ := List.mem_map.mp hb
    refine ⟨a, ha, ?_⟩
    rcases hb' with rfl | rfl <;> exact ⟨clearCore_jobId .., clearCore_runTime ..⟩
  | run hpc' => exact absurd hpc' hpc

/-- A job that is executed has arrived. -/
theorem arrived_of_core {total : ℕ} {s : Sim} (h : Inv opts total s) (hpc : s.pc = .run)
    {j : SimulatorJob} (hj : j ∈ s.jobs) (hc : j.coreId ≠ -1) : j.arrivalTime ≤ s.time := by
  obtain ⟨_, -, hg⟩ := h.good_mem hj
  have hdue := hg.due.mp (by
    by_contra ha
    exact hc (hg.idle (by simpa using ha)))
  rw [hpc, cutoff] at hdue
  omega

/-- What a trace has of the units of the jobs. -/
structure Executed (lines : List Line) (s : Sim) (tr : List Event) : Prop where
  arrived : ∀ k u, u ∈ ranUnits tr k → (lineOf lines k).arrivalTime ≤ u
  alive : ∀ j ∈ s.jobs, ((ranUnits tr j.jobId).card : ℤ) + j.runTime = (lineOf lines j.jobId).runTime
  ended : ∀ k t, .finished k t ∈ tr →
    ((ranUnits tr k).card : ℤ) = (lineOf lines k).runTime ∧ ∀ u ∈ ranUnits tr k, u < t

theorem executed_run (hcores : 0 < opts.cores) (h : Workload lines) {n : ℕ}
    (hpc : (stateAt opts lines n).pc = .run)
    (ih : Executed lines (stateAt opts lines n) (trace opts lines n)) :
    Executed lines (stateAt opts lines (n + 1)) (trace opts lines (n + 1)) := by
  have hinv := stateAt_inv hcores h n
  obtain ⟨hjobs, -, -⟩ := (stateAt_move hcores h n).of_run hpc
  refine ⟨fun k u hu => ?_, fun j' hj' => ?_, fun k t ht => ?_⟩
  · obtain ⟨c, hr⟩ := mem_ranUnits.mp hu
    rcases (ran_succ n).mp hr with hr | ⟨-, rfl, j, hj, hc, rfl, -⟩
    · exact ih.arrived k u (mem_ranUnits.mpr ⟨c, hr⟩)
    · obtain ⟨k, l, hk, ho⟩ := origin hcores h n j hj
      rw [lineOf_origin hk ho, ← ho.arrivalTime]
      exact arrived_of_core hinv hpc hj hc
  · rw [hjobs] at hj'
    obtain ⟨j, hj, rfl⟩ := List.mem_map.mp hj'
    have halive := ih.alive j hj
    rw [runJob_jobId, ranUnits_run hcores h hpc hj, runJob]
    split_ifs with hc
    · exact halive
    · -- the unit that is run now is a new one
      rw [Finset.card_insert_of_notMem fun hu => absurd (ranUnits_past hcores h hu) (lt_irrefl _)]
      push_cast
      omega
  · rw [finished_same (finishes_run hpc)] at ht
    have hgone := finished_gone hcores h ht
    have hsame : ranUnits (trace opts lines (n + 1)) k = ranUnits (trace opts lines n) k := by
      ext u
      simp only [mem_ranUnits, ran_succ]
      refine exists_congr fun c => or_iff_left ?_
      rintro ⟨-, -, j, hj, -, rfl, -⟩
      exact hgone j hj rfl
    rw [hsame]
    exact ih.ended k t ht

theorem executed_same (hcores : 0 < opts.cores) (h : Workload lines) {n : ℕ}
    (hpc : (stateAt opts lines n).pc ≠ .run)
    (ih : Executed lines (stateAt opts lines n) (trace opts lines n)) :
    Executed lines (stateAt opts lines (n + 1)) (trace opts lines (n + 1)) := by
  have hsame : ∀ k : ℤ, ranUnits (trace opts lines (n + 1)) k = ranUnits (trace opts lines n) k :=
    ranUnits_same hpc
  refine ⟨fun k u hu => ih.arrived k u (hsame k ▸ hu), fun j' hj' => ?_, fun k t ht => ?_⟩
  · obtain ⟨j, hj, h1, h2⟩ := move_runTime (stateAt_move hcores h n) hpc j' hj'
    rw [hsame, h1, h2]
    exact ih.alive j hj
  · rw [hsame]
    rw [trace_succ, List.mem_append] at ht
    rcases ht with ht | ht
    · exact ih.ended k t ht
    · obtain ⟨i, j, -, hi, h0, rfl, rfl⟩ := mem_events_finished.mp ht
      have halive := ih.alive j (List.mem_of_getElem? hi)
      rw [h0, add_zero] at halive
      exact ⟨halive, fun u hu => ranUnits_past hcores h hu⟩

/-- **Each job is executed for as many units as it asked for**, after it arrived and before it finishes. -/
theorem executed (hcores : 0 < opts.cores) (h : Workload lines) (n : ℕ) :
    Executed lines (stateAt opts lines n) (trace opts lines n) := by
  induction n with
  | zero =>
    refine ⟨fun k u hu => by simp [mem_ranUnits, trace] at hu, fun j hj => ?_,
      fun k t ht => by simp [trace] at ht⟩
    obtain ⟨i, hi, rfl⟩ := List.mem_mapIdx.mp hj
    simp [ranUnits, trace, lineOf, List.getD_eq_getElem?_getD, hi]
  | succ n ih =>
    by_cases hpc : (stateAt opts lines n).pc = .run
    · exact executed_run hcores h hpc ih
    · exact executed_same hcores h hpc ih

/-! ### The reports -/

/-- The units that a job waits: it has arrived, it is not finished, and it is executed on no core. -/
def waits (lines : List Line) (tr : List Event) : Set (ℕ × ℤ) :=
  {x | x.1 < lines.length ∧ (lineOf lines x.1).arrivalTime ≤ x.2 ∧
    (∃ t, .finished x.1 t ∈ tr ∧ x.2 < t) ∧ ∀ c, .ran x.1 c x.2 ∉ tr}

section Reports
variable {n : ℕ} {fin : ℕ → ℤ}

/-- The jobs that finished, at the end, are the lines with their finish times. -/
theorem finishes_perm (hcores : 0 < opts.cores) (h : Workload lines)
    (hnil : (stateAt opts lines n).jobs = [])
    (hfin : ∀ k < lines.length, ∀ t : ℤ, .finished (k : ℤ) t ∈ trace opts lines n ↔ t = fin k) :
    (finishes (trace opts lines n)).Perm ((List.range lines.length).map fun k : ℕ => ((k : ℤ), fin k)) := by
  have hids := finishes_done hcores h hnil
  have hmap : finishes (trace opts lines n) =
      ((finishes (trace opts lines n)).map Prod.fst).map fun k => (k, fin k.toNat) := by
    rw [List.map_map]
    refine (List.map_id _).symm.trans (List.map_congr_left fun x hx => ?_)
    obtain ⟨i, hi, hix⟩ := List.mem_map.mp (hids.mem_iff.mp (List.mem_map_of_mem hx))
    have hx2 : x.2 = fin i := by
      refine (hfin i (List.mem_range.mp hi) x.2).mp ?_
      rw [← mem_finishes, hix]
      exact hx
    rw [Function.comp_apply, ← hix, Int.toNat_natCast, ← hx2, hix]
    rfl
  rw [hmap]
  refine (hids.map _).trans (List.Perm.of_eq ?_)
  rw [List.map_map]
  rfl

/-- A sum over the jobs that finished is a sum over the lines. -/
theorem sumFinished_eq (hcores : 0 < opts.cores) (h : Workload lines)
    (hnil : (stateAt opts lines n).jobs = [])
    (hfin : ∀ k < lines.length, ∀ t : ℤ, .finished (k : ℤ) t ∈ trace opts lines n ↔ t = fin k)
    (f : ℤ × ℤ → ℤ) :
    sumFinished f (trace opts lines n) = ∑ k ∈ Finset.range lines.length, f (k, fin k) := by
  rw [sumFinished, ((finishes_perm hcores h hnil hfin).map f).sum_eq, List.map_map]
  rfl

/-- **The units that the jobs wait** are those between arrival and finish in which they do not run. -/
theorem waits_card (hcores : 0 < opts.cores) (h : Workload lines)
    (hfin : ∀ k < lines.length, ∀ t : ℤ, .finished (k : ℤ) t ∈ trace opts lines n ↔ t = fin k) :
    ((waits lines (trace opts lines n)).ncard : ℤ) =
      ∑ k ∈ Finset.range lines.length, waited lines (k, fin k) := by
  have hex := executed hcores h n
  -- the units of job `k`
  let S : ℕ → Finset ℤ := fun k =>
    Finset.Ico (lineOf lines k).arrivalTime (fin k) \ ranUnits (trace opts lines n) k
  have hset : waits lines (trace opts lines n) =
      (fun x : (_ : ℕ) × ℤ => (x.1, x.2)) '' ((Finset.range lines.length).sigma S : Set _) := by
    ext ⟨k, u⟩
    simp only [waits, S, Set.mem_ofPred_eq, Set.mem_image, Finset.mem_coe, Finset.mem_sigma,
      Finset.mem_range, Finset.mem_sdiff, Finset.mem_Ico, mem_ranUnits, not_exists, Prod.mk.injEq]
    constructor
    · rintro ⟨hk, ha, ⟨t, ht, hut⟩, hr⟩
      exact ⟨⟨k, u⟩, ⟨hk, ⟨ha, (hfin k hk t).mp ht ▸ hut⟩, hr⟩, rfl, rfl⟩
    · rintro ⟨x, ⟨hk, ⟨ha, hu⟩, hr⟩, rfl, rfl⟩
      exact ⟨hk, ha, ⟨_, (hfin _ hk _).mpr rfl, hu⟩, hr⟩
  have hinj : Function.Injective fun x : (_ : ℕ) × ℤ => (x.1, x.2) := by
    rintro ⟨k, u⟩ ⟨k', u'⟩ he
    obtain ⟨rfl, rfl⟩ := Prod.mk.inj he
    rfl
  rw [hset, Set.ncard_image_of_injective _ hinj, Set.ncard_coe_finset, Finset.card_sigma, Nat.cast_sum]
  refine Finset.sum_congr rfl fun k hk => ?_
  obtain ⟨hcard, hlt⟩ := hex.ended k (fin k) ((hfin k (Finset.mem_range.mp hk) _).mpr rfl)
  have hsub : ranUnits (trace opts lines n) k ⊆ Finset.Ico (lineOf lines k).arrivalTime (fin k) :=
    fun u hu => Finset.mem_Ico.mpr ⟨hex.arrived k u hu, hlt u hu⟩
  have hle := Finset.card_le_card hsub
  rw [Int.card_Ico] at hle
  have hpos : 1 ≤ (lineOf lines k).runTime := by
    have hk' := List.getElem?_eq_getElem (Finset.mem_range.mp hk)
    rw [lineOf_eq hk']
    exact (h _ (List.mem_of_getElem? hk')).1
  rw [Finset.card_sdiff_of_subset hsub, Int.card_Ico, Nat.cast_sub hle, hcard, waited, turnaround]
  simp only
  omega

theorem average_mul (hcores : 0 < opts.cores) (h : Workload lines)
    (hnil : (stateAt opts lines n).jobs = []) {total : ℚ} (h0 : lines = [] → total = 0) :
    (if (stateAt opts lines n).sched.totalJobsFinished = 0 then 0
      else total / (stateAt opts lines n).sched.totalJobsFinished) * lines.length = total := by
  have hcount := (stateAt_inv hcores h n).lock.count
  rw [hnil, List.length_nil, Nat.add_zero] at hcount
  rw [hcount]
  split_ifs with hlen
  · rw [h0 (List.length_eq_zero_iff.mp hlen), zero_mul]
  · have hne : (lines.length : ℚ) ≠ 0 := Nat.cast_ne_zero.mpr hlen
    field_simp

end Reports

/-- **The statistics match the trace.** Each simulation ends, and at its end each job has one finish
time; the average turnaround time times the number of jobs is the sum of the times from the arrival of
a job to its finish, and the average waiting time times the number of jobs is the number of the units
that a job waits. -/
theorem statistics_trace (hcores : 0 < opts.cores) (h : Workload lines) :
    (∃ n, (stateAt opts lines n).pc = .stop .done) ∧
      ∀ n, (stateAt opts lines n).pc = .stop .done → ∃ fin : ℕ → ℤ,
        (∀ k < lines.length, ∀ t : ℤ, .finished (k : ℤ) t ∈ trace opts lines n ↔ t = fin k) ∧
        schedulerAverageTurnaroundTime (stateAt opts lines n).sched * lines.length =
          ((∑ k ∈ Finset.range lines.length, (fin k - (lineOf lines k).arrivalTime) : ℤ) : ℚ) ∧
        schedulerAverageWaitingTime (stateAt opts lines n).sched * lines.length =
          ((waits lines (trace opts lines n)).ncard : ℚ) := by
  refine ⟨Runs.halts hcores h, fun n hn => ?_⟩
  have hnil := ((stateAt_inv hcores h n).out _ hn).2
  obtain ⟨fin, hfin⟩ := exists_finish hcores h hnil
  obtain ⟨hturn, hwait⟩ := totals_trace hcores h n
  rw [sumFinished_eq hcores h hnil hfin] at hturn hwait
  rw [← waits_card hcores h hfin] at hwait
  refine ⟨fin, hfin, ?_, ?_⟩
  · rw [schedulerAverageTurnaroundTime, average_mul hcores h hnil, hturn]
    · rfl
    · rintro rfl
      rw [hturn]
      rfl
  · rw [schedulerAverageWaitingTime, average_mul hcores h hnil, hwait, Int.cast_natCast]
    rintro rfl
    rw [hwait]
    simp [waits]

/-- Two jobs on one core, under `RR` with a quantum of 1. -/
theorem statistics_trace_two : ∃ n, (stateAt ⟨1, .rr, 1⟩ [⟨0, 2, 0⟩, ⟨1, 1, 0⟩] n).pc = .stop .done ∧
    schedulerAverageWaitingTime (stateAt ⟨1, .rr, 1⟩ [⟨0, 2, 0⟩, ⟨1, 1, 0⟩] n).sched * 2 =
      ((waits [⟨0, 2, 0⟩, ⟨1, 1, 0⟩] (trace ⟨1, .rr, 1⟩ [⟨0, 2, 0⟩, ⟨1, 1, 0⟩] n)).ncard : ℚ) := by
  have h : Workload [⟨0, 2, 0⟩, ⟨1, 1, 0⟩] := by simp [Workload]
  obtain ⟨⟨n, hn⟩, hall⟩ := statistics_trace (show 0 < (⟨1, .rr, 1⟩ : Options).cores by decide) h
  obtain ⟨fin, -, -, h⟩ := hall n hn
  exact ⟨n, hn, h⟩

end Eecs678.Simulator.Statistics
