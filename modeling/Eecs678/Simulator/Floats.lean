import Eecs678.Simulator.Statistics

/-!
# The averages as floats

The scheduler sums the times of the jobs that finish in floats (`floats_trace`). No job has a negative time
(`finished_bounds`), so the sums are too large by at most one factor for each job, and the averages that are
reported by two or three more (`float_averages_le`). As long as the turnaround times sum to at most `2 ^ 24`
the only rounding is that of the division (`float_averages_eq`).
-/

namespace Eecs678.Simulator.Floats

open Eecs678.Lib.Floats Eecs678.Scheduler.Model Eecs678.Scheduler.Table Eecs678.Simulator.Model
open Eecs678.Simulator.Lockstep Eecs678.Simulator.Trace Eecs678.Simulator.Statistics

variable {opts : Options} {lines : List Line}

/-! ### The terms -/

/-- The turnaround time that `accumulate_stats` adds for a job that finished. -/
def floatTurnaround (lines : List Line) (x : ℤ × ℤ) : ℤ := float32 (turnaround lines x)

/-- The waiting time that `accumulate_stats` adds for a job that finished. -/
def floatWaited (lines : List Line) (x : ℤ × ℤ) : ℤ :=
  float32 (floatTurnaround lines x - float32 (lineOf lines x.1).runTime)

/-- **The floats of the scheduler are sums over the trace.** -/
theorem floats_trace (hcores : 0 < opts.cores) (h : Workload lines) (n : ℕ) :
    (stateAt opts lines n).sched.floats.turnaroundTime =
      sumRounded 24 ((finishes (trace opts lines n)).map (floatTurnaround lines)) ∧
    (stateAt opts lines n).sched.floats.waitTime =
      sumRounded 24 ((finishes (trace opts lines n)).map (floatWaited lines)) := by
  induction n with
  | zero => exact ⟨rfl, rfl⟩
  | succ n ih =>
    rw [trace_succ, finishes_append]
    rcases totals_step hcores h n with ⟨hev, htot⟩ | ⟨x, a, hev, hturn, hrun, htot⟩
    · have hf : (stateAt opts lines (n + 1)).sched.floats = (stateAt opts lines n).sched.floats :=
        congrArg (fun x : ℚ × ℚ × ℚ × FloatTotals => x.2.2.2) htot
      rw [hev, List.append_nil, hf]
      exact ih
    · have hf : (stateAt opts lines (n + 1)).sched.floats =
          accumulateFloats a (stateAt opts lines n).sched.floats :=
        congrArg (fun x : ℚ × ℚ × ℚ × FloatTotals => x.2.2.2) htot
      rw [hev, List.map_append, List.map_append, List.map_singleton, List.map_singleton,
        sumRounded_concat, sumRounded_concat, ← ih.1, ← ih.2, hf, floatWaited, floatTurnaround, ← hturn,
        ← hrun]
      exact ⟨rfl, rfl⟩

/-- **A job that finished has run**, and its turnaround time is at least what it ran. -/
theorem finished_bounds (hcores : 0 < opts.cores) (h : Workload lines) {n : ℕ} {x : ℤ × ℤ}
    (hx : x ∈ finishes (trace opts lines n)) :
    1 ≤ (lineOf lines x.1).runTime ∧ (lineOf lines x.1).runTime ≤ turnaround lines x := by
  have hex := executed hcores h n
  obtain ⟨hcard, hlt⟩ := hex.ended x.1 x.2 (mem_finishes.mp hx)
  have hsub : ranUnits (trace opts lines n) x.1 ⊆ Finset.Ico (lineOf lines x.1).arrivalTime x.2 :=
    fun u hu => Finset.mem_Ico.mpr ⟨hex.arrived x.1 u hu, hlt u hu⟩
  have hle := Finset.card_le_card hsub
  rw [Int.card_Ico] at hle
  have hmem := (finishes_ids hcores h n).mem_iff.mp
    (List.mem_append_left _ (List.mem_map_of_mem (f := Prod.fst) hx))
  obtain ⟨k, hk, hkx⟩ := List.mem_map.mp hmem
  have hline := List.getElem?_eq_getElem (List.mem_range.mp hk)
  have hpos : 1 ≤ (lineOf lines x.1).runTime := by
    rw [← hkx, lineOf_eq hline]
    exact (h _ (List.mem_of_getElem? hline)).1
  refine ⟨hpos, ?_⟩
  rw [turnaround]
  omega

theorem floatTurnaround_nonneg (hcores : 0 < opts.cores) (h : Workload lines) {n : ℕ} {x : ℤ × ℤ}
    (hx : x ∈ finishes (trace opts lines n)) : 0 ≤ floatTurnaround lines x := by
  have hb := finished_bounds hcores h hx
  exact roundInt_nonneg (by omega)

theorem floatWaited_nonneg (hcores : 0 < opts.cores) (h : Workload lines) {n : ℕ} {x : ℤ × ℤ}
    (hx : x ∈ finishes (trace opts lines n)) : 0 ≤ floatWaited lines x := by
  have hb := finished_bounds hcores h hx
  exact roundInt_nonneg (sub_nonneg.mpr (roundInt_mono (by norm_num) (by omega) hb.2))

/-! ### The sums -/

theorem finishes_length (hcores : 0 < opts.cores) (h : Workload lines) (n : ℕ) :
    (finishes (trace opts lines n)).length = (stateAt opts lines n).sched.totalJobsFinished := by
  have hcount := (stateAt_inv hcores h n).lock.count
  have hlen := (finishes_ids hcores h n).length_eq
  simp only [List.length_append, List.length_map, List.length_range] at hlen
  omega

/-- A sum over the jobs that finished, as a rational. -/
theorem sum_cast (f : ℤ × ℤ → ℤ) (tr : List Event) :
    ((finishes tr).map fun x => (f x : ℚ)).sum = sumFinished f tr := by
  rw [sumFinished, Int.cast_list_sum, List.map_map]
  rfl

/-- **The sums are too large by at most one factor for each job**, and one more. -/
theorem float_totals_le (hcores : 0 < opts.cores) (h : Workload lines) (n : ℕ) :
    ((stateAt opts lines n).sched.floats.turnaroundTime : ℚ) ≤
      grow 24 ^ ((stateAt opts lines n).sched.totalJobsFinished + 1) *
        sumFinished (turnaround lines) (trace opts lines n) ∧
    ((stateAt opts lines n).sched.floats.waitTime : ℚ) ≤
      grow 24 ^ ((stateAt opts lines n).sched.totalJobsFinished + 1) *
        (sumFinished (waited lines) (trace opts lines n) +
          2 / 2 ^ 24 * sumFinished (turnaround lines) (trace opts lines n)) := by
  obtain ⟨hturn, hwait⟩ := floats_trace hcores h n
  rw [hturn, hwait, ← finishes_length hcores h]
  constructor
  · rw [← sum_cast]
    refine sumRounded_le (fun x hx => floatTurnaround_nonneg hcores h hx) fun x hx => roundInt_le ?_
    have hb := finished_bounds hcores h hx
    omega
  · rw [← sum_cast, ← sum_cast, ← List.sum_map_mul_left, ← List.sum_map_add]
    refine sumRounded_le (fun x hx => floatWaited_nonneg hcores h hx) fun x hx => ?_
    have hb := finished_bounds hcores h hx
    have hle := roundInt_sub_le (p := 24) (by norm_num) (by omega : 0 ≤ (lineOf lines x.1).runTime) hb.2
    rw [waited, Int.cast_sub]
    exact hle

/-! ### Small sums -/

theorem terms_nonneg (hcores : 0 < opts.cores) (h : Workload lines) {n : ℕ} {x : ℤ × ℤ}
    (hx : x ∈ finishes (trace opts lines n)) :
    1 ≤ turnaround lines x ∧ 0 ≤ waited lines x ∧ waited lines x ≤ turnaround lines x := by
  have hb := finished_bounds hcores h hx
  rw [waited]
  omega

theorem turnaround_le_sum (hcores : 0 < opts.cores) (h : Workload lines) {n : ℕ} {x : ℤ × ℤ}
    (hx : x ∈ finishes (trace opts lines n)) :
    turnaround lines x ≤ sumFinished (turnaround lines) (trace opts lines n) := by
  refine List.single_le_sum (List.forall_mem_map.mpr fun y hy => ?_) _ (List.mem_map_of_mem hx)
  have := terms_nonneg hcores h hy
  omega

theorem float32_of_le {m : ℤ} (h0 : 0 ≤ m) (hm : m ≤ 2 ^ 24) : float32 m = m :=
  roundInt_of_le (by norm_num) (by rwa [abs_of_nonneg h0])

/-- **Small terms are exact.** -/
theorem terms_eq (hcores : 0 < opts.cores) (h : Workload lines) {n : ℕ} {x : ℤ × ℤ}
    (hx : x ∈ finishes (trace opts lines n)) (hle : turnaround lines x ≤ 2 ^ 24) :
    floatTurnaround lines x = turnaround lines x ∧ floatWaited lines x = waited lines x := by
  have hb := finished_bounds hcores h hx
  have hturn : floatTurnaround lines x = turnaround lines x := float32_of_le (by omega) hle
  have hrun : float32 (lineOf lines x.1).runTime = (lineOf lines x.1).runTime :=
    float32_of_le (by omega) (by omega)
  refine ⟨hturn, ?_⟩
  rw [floatWaited, hturn, hrun, waited]
  exact float32_of_le (by omega) (by omega)

/-- A unit or more is counted for each job that finished. -/
theorem finished_le_sum (hcores : 0 < opts.cores) (h : Workload lines) (n : ℕ) :
    ((stateAt opts lines n).sched.totalJobsFinished : ℤ) ≤
      sumFinished (turnaround lines) (trace opts lines n) := by
  have hcard := List.card_nsmul_le_sum ((finishes (trace opts lines n)).map (turnaround lines)) 1
    (List.forall_mem_map.mpr fun x hx => (terms_nonneg hcores h hx).1)
  rwa [List.length_map, nsmul_one, finishes_length hcores h] at hcard

/-- **Small sums are exact.** -/
theorem float_totals_eq (hcores : 0 < opts.cores) (h : Workload lines) {n : ℕ}
    (hsum : sumFinished (turnaround lines) (trace opts lines n) ≤ 2 ^ 24) :
    (stateAt opts lines n).sched.floats.turnaroundTime =
      sumFinished (turnaround lines) (trace opts lines n) ∧
    (stateAt opts lines n).sched.floats.waitTime = sumFinished (waited lines) (trace opts lines n) := by
  obtain ⟨hturn, hwait⟩ := floats_trace hcores h n
  have hterms := fun x (hx : x ∈ finishes (trace opts lines n)) =>
    terms_eq hcores h hx ((turnaround_le_sum hcores h hx).trans hsum)
  have hle : sumFinished (waited lines) (trace opts lines n) ≤
      sumFinished (turnaround lines) (trace opts lines n) :=
    List.sum_le_sum fun x hx => (terms_nonneg hcores h hx).2.2
  constructor
  · rw [hturn, List.map_congr_left fun x hx => (hterms x hx).1]
    exact sumRounded_eq (by norm_num)
      (List.forall_mem_map.mpr fun x hx => zero_le_one.trans (terms_nonneg hcores h hx).1) hsum
  · rw [hwait, List.map_congr_left fun x hx => (hterms x hx).2]
    exact sumRounded_eq (by norm_num)
      (List.forall_mem_map.mpr fun x hx => (terms_nonneg hcores h hx).2.1) (hle.trans hsum)

/-! ### The averages -/

/-- The division rounds once, and so does the number of jobs. -/
theorem floatAverage_le {total : ℤ} {c m : ℕ} {X : ℚ} (h0 : 0 ≤ total)
    (hX : (total : ℚ) ≤ grow 24 ^ m * X) : floatAverage total c ≤ grow 24 ^ (m + 3) * (X / c) := by
  unfold floatAverage
  split_ifs with hc
  · simp [hc]
  · have hg : (0 : ℚ) < grow 24 := zero_lt_one.trans_le (one_le_grow 24)
    have hpos : (0 : ℚ) < c := Nat.cast_pos.mpr (Nat.pos_of_ne_zero hc)
    have hcount : (c : ℚ) ≤ grow 24 ^ 2 * float32 c := by
      have := le_grow_sq_mul (p := 24) (by norm_num) (Int.natCast_nonneg c)
      rwa [Int.cast_natCast] at this
    have hfloat : (0 : ℚ) < float32 c := pos_of_mul_pos_right (hpos.trans_le hcount) (by positivity)
    have htotal : (0 : ℚ) ≤ total := by exact_mod_cast h0
    calc roundRat 24 (total / float32 c) ≤ grow 24 * (total / float32 c) :=
          roundRat_le (div_nonneg htotal hfloat.le)
      _ ≤ grow 24 * (total * grow 24 ^ 2 / c) := by
        refine mul_le_mul_of_nonneg_left ?_ hg.le
        rw [div_le_div_iff₀ hfloat hpos, mul_assoc]
        exact mul_le_mul_of_nonneg_left hcount htotal
      _ = grow 24 ^ 3 * (total / c) := by ring
      _ ≤ grow 24 ^ 3 * (grow 24 ^ m * X / c) :=
        mul_le_mul_of_nonneg_left (div_le_div_of_nonneg_right hX hpos.le) (by positivity)
      _ = grow 24 ^ (m + 3) * (X / c) := by ring

theorem floatAverage_eq (total : ℤ) {c : ℕ} (hc : c ≤ 2 ^ 24) :
    floatAverage total c = roundRat 24 (total / c) := by
  unfold floatAverage
  split_ifs with h0
  · rw [h0, Nat.cast_zero, div_zero, roundRat_zero]
  · have hexact : float32 c = c := roundInt_of_le (by norm_num) (by
      rw [Nat.abs_cast]
      exact_mod_cast hc)
    rw [hexact, Int.cast_natCast]

/-- The averages that are reported when floats are read as exact rationals. -/
theorem averages_eq (hcores : 0 < opts.cores) (h : Workload lines) (n : ℕ) :
    schedulerAverageTurnaroundTime (stateAt opts lines n).sched =
      sumFinished (turnaround lines) (trace opts lines n) /
        (stateAt opts lines n).sched.totalJobsFinished ∧
    schedulerAverageWaitingTime (stateAt opts lines n).sched =
      sumFinished (waited lines) (trace opts lines n) /
        (stateAt opts lines n).sched.totalJobsFinished := by
  obtain ⟨hturn, hwait⟩ := totals_trace hcores h n
  rw [schedulerAverageTurnaroundTime, schedulerAverageWaitingTime, hturn, hwait]
  split_ifs with h0
  · simp [h0]
  · exact ⟨rfl, rfl⟩

/-- The jobs that finished, at the end. -/
theorem finished_all (hcores : 0 < opts.cores) (h : Workload lines) {n : ℕ}
    (hnil : (stateAt opts lines n).jobs = []) :
    (stateAt opts lines n).sched.totalJobsFinished = lines.length := by
  have hcount := (stateAt_inv hcores h n).lock.count
  rwa [hnil, List.length_nil, Nat.add_zero] at hcount

theorem averages_nonneg (hcores : 0 < opts.cores) (h : Workload lines) (n : ℕ) :
    0 ≤ schedulerAverageTurnaroundTime (stateAt opts lines n).sched ∧
    0 ≤ schedulerAverageWaitingTime (stateAt opts lines n).sched := by
  obtain ⟨hturn, hwait⟩ := averages_eq hcores h n
  have hsum : ∀ f : ℤ × ℤ → ℤ, (∀ x ∈ finishes (trace opts lines n), 0 ≤ f x) →
      (0 : ℚ) ≤ sumFinished f (trace opts lines n) := fun f hf => by
    exact_mod_cast List.sum_nonneg (List.forall_mem_map.mpr hf)
  rw [hturn, hwait]
  exact ⟨div_nonneg (hsum _ fun x hx => zero_le_one.trans (terms_nonneg hcores h hx).1) (Nat.cast_nonneg _),
    div_nonneg (hsum _ fun x hx => (terms_nonneg hcores h hx).2.1) (Nat.cast_nonneg _)⟩

/-- **The averages are too large by at most one factor for each job**, and four more. -/
theorem float_averages_le (hcores : 0 < opts.cores) (h : Workload lines) (n : ℕ) :
    floatAverageTurnaroundTime (stateAt opts lines n).sched ≤
      grow 24 ^ ((stateAt opts lines n).sched.totalJobsFinished + 4) *
        schedulerAverageTurnaroundTime (stateAt opts lines n).sched ∧
    floatAverageWaitingTime (stateAt opts lines n).sched ≤
      grow 24 ^ ((stateAt opts lines n).sched.totalJobsFinished + 4) *
        (schedulerAverageWaitingTime (stateAt opts lines n).sched +
          2 / 2 ^ 24 * schedulerAverageTurnaroundTime (stateAt opts lines n).sched) := by
  obtain ⟨hturn, hwait⟩ := floats_trace hcores h n
  obtain ⟨hturn', hwait'⟩ := float_totals_le hcores h n
  obtain ⟨ht, hw⟩ := averages_eq hcores h n
  rw [ht, hw]
  constructor
  · refine floatAverage_le ?_ hturn'
    rw [hturn]
    exact sumRounded_nonneg (List.forall_mem_map.mpr fun x hx => floatTurnaround_nonneg hcores h hx)
  · rw [← mul_div_assoc, ← add_div]
    refine floatAverage_le ?_ hwait'
    rw [hwait]
    exact sumRounded_nonneg (List.forall_mem_map.mpr fun x hx => floatWaited_nonneg hcores h hx)

/-- **With small sums only the division rounds.** -/
theorem float_averages_eq (hcores : 0 < opts.cores) (h : Workload lines) {n : ℕ}
    (hsum : sumFinished (turnaround lines) (trace opts lines n) ≤ 2 ^ 24) :
    floatAverageTurnaroundTime (stateAt opts lines n).sched =
      roundRat 24 (schedulerAverageTurnaroundTime (stateAt opts lines n).sched) ∧
    floatAverageWaitingTime (stateAt opts lines n).sched =
      roundRat 24 (schedulerAverageWaitingTime (stateAt opts lines n).sched) := by
  obtain ⟨hturn, hwait⟩ := float_totals_eq hcores h hsum
  have hcount : (stateAt opts lines n).sched.totalJobsFinished ≤ 2 ^ 24 := by
    exact_mod_cast (finished_le_sum hcores h n).trans hsum
  obtain ⟨ht, hw⟩ := averages_eq hcores h n
  rw [ht, hw, floatAverageTurnaroundTime, floatAverageWaitingTime, floatAverage_eq _ hcount,
    floatAverage_eq _ hcount, hturn, hwait]
  exact ⟨rfl, rfl⟩

end Eecs678.Simulator.Floats
