import Eecs678.Lib.PrefixCode
import Eecs678.Simulator.Statistics
import Mathlib.Algebra.BigOperators.Group.Finset.Basic
import Mathlib.Tactic.IntervalCases

/-!
# The timing diagram

Each time unit appends a word to the diagram of each core (`cellString`), and `readCell` reads one such word:
the diagram of a core tells which job ran on it in each unit (`diagram_record`), and over all cores a job
appears as often as it was executed (`appearances`).
-/

namespace Eecs678.Simulator.Diagram

open Eecs678.Lib.PrefixCode Eecs678.Scheduler.Model Eecs678.Simulator.Model Eecs678.Simulator.Jobs
open Eecs678.Simulator.Lockstep Eecs678.Simulator.Runs Eecs678.Simulator.Trace
open Eecs678.Simulator.Statistics

/-! ### Words -/

/-- What is appended for a unit in which a core runs a job, or none. -/
def cellString : Option ℤ → String
  | none => "-"
  | some jobId => timeString jobId

/-- The job that one character stands for. -/
def letterId (c : Char) : ℤ :=
  if c.isDigit then (c.toNat : ℤ) - 48
  else if c.isLower then (c.toNat : ℤ) - 97 + 10
  else (c.toNat : ℤ) - 65 + 10 + 26

/-- The first unit of a diagram, and the rest of it. -/
def readCell : List Char → Option (Option ℤ × List Char)
  | [] => none
  | c :: rest =>
    if c = '-' then some (none, rest)
    else if c = '(' then
      some (some (Nat.ofDigitChars 10 (rest.takeWhile Char.isDigit) 0),
        (rest.dropWhile Char.isDigit).tail)
    else some (some (letterId c), rest)

/-- The units of a diagram. -/
def decodeDiagram (diagram : String) : List (Option ℤ) := decode readCell diagram.toList

example : decodeDiagram "0-0(123)aZ" = [some 0, none, some 0, some 123, some 10, some 61] := by decide

theorem toList_toString (n : ℕ) : (toString (n : ℤ)).toList = Nat.toDigits 10 n := by
  rw [Int.toString_eq_repr, Int.repr_eq_if, if_pos (Int.natCast_nonneg n), Int.toNat_natCast,
    Nat.toList_repr]

theorem reads_letter {cell : Option ℤ} {c : Char} (hcell : (cellString cell).toList = [c])
    (hidle : c ≠ '-') (hbracket : c ≠ '(') (hid : cell = some (letterId c)) :
    Reads readCell (fun cell => (cellString cell).toList) cell := by
  intro rest
  simp only [hcell, List.cons_append, List.nil_append]
  rw [readCell, if_neg hidle, if_neg hbracket, hid]

/-- The jobs that have a name of one character. -/
theorem reads_short {n : ℕ} (hn : n < 62) :
    Reads readCell (fun cell => (cellString cell).toList) (some (n : ℤ)) := by
  by_cases h10 : n < 10
  · have hlist : (cellString (some (n : ℤ))).toList = [n.digitChar] := by
      rw [cellString, timeString, if_pos (by omega), toList_toString, Nat.toDigits_of_lt_base h10]
    refine reads_letter hlist ?_ ?_ ?_ <;> interval_cases n <;> decide
  · by_cases h36 : n < 36
    · have hlist : (cellString (some (n : ℤ))).toList = [Char.ofNat ((n : ℤ) - 10 + 97).toNat] := by
        rw [cellString, timeString, if_neg (by omega), if_pos (by omega), String.toList_singleton]
      refine reads_letter hlist ?_ ?_ ?_ <;> interval_cases n <;> decide
    · have hlist : (cellString (some (n : ℤ))).toList =
          [Char.ofNat ((n : ℤ) - 10 - 26 + 65).toNat] := by
        rw [cellString, timeString, if_neg (by omega), if_neg (by omega), if_pos (by omega),
          String.toList_singleton]
      refine reads_letter hlist ?_ ?_ ?_ <;> interval_cases n <;> decide

/-- The number of the job between brackets: `snprintf` has room for seven digits. -/
theorem reads_long {n : ℕ} (hn : 62 ≤ n) (hsmall : n < 10 ^ 7) :
    Reads readCell (fun cell => (cellString cell).toList) (some (n : ℤ)) := by
  have hdigits : ∀ d ∈ Nat.toDigits 10 n, d.isDigit = true := fun d hd =>
    Nat.isDigit_of_mem_toDigits (by decide) (by decide) hd
  have hlen : (Nat.toDigits 10 n).length ≤ 7 :=
    (Nat.length_toDigits_le_iff (by decide) (by decide)).mpr hsmall
  have hlist : (cellString (some (n : ℤ))).toList = '(' :: (Nat.toDigits 10 n ++ [')']) := by
    rw [cellString, timeString, if_neg (by omega), if_neg (by omega), if_neg (by omega),
      String.toList_ofList, String.toList_append, String.toList_append, toList_toString]
    exact List.take_of_length_le (by simp; omega)
  intro rest
  simp only [hlist, List.cons_append, List.append_assoc, List.nil_append]
  rw [readCell, if_neg (by decide), if_pos rfl, takeWhile_word hdigits rfl, dropWhile_word hdigits rfl,
    Nat.ofDigitChars_ten_toDigits]
  rfl

/-- What a diagram may have for a unit. -/
def Printable : Option ℤ → Prop
  | none => True
  | some jobId => 0 ≤ jobId ∧ jobId < 10 ^ 7

/-- **Every word can be read.** -/
theorem reads_cell {cell : Option ℤ} (h : Printable cell) :
    Reads readCell (fun cell => (cellString cell).toList) cell := by
  cases cell with
  | none => exact fun rest => rfl
  | some jobId =>
    obtain ⟨h0, hlt⟩ := h
    obtain ⟨n, rfl⟩ := Int.eq_ofNat_of_zero_le h0
    by_cases hn : n < 62
    · exact reads_short hn
    · exact reads_long (by omega) (by omega)

theorem timeString_ne {jobId : ℤ} (h : Printable (some jobId)) : timeString jobId ≠ "" := by
  intro he
  exact (reads_cell h).ne_nil rfl (congrArg String.toList he)

/-! ### The units of a run -/

/-- The job that ran on core `c` in the unit that began at `u`. -/
def ranOn (tr : List Event) (c u : ℤ) : Option ℤ :=
  tr.findSome? fun
    | .ran job core time => if core = c ∧ time = u then some job else none
    | .finished _ _ => none

/-- What core `c` did in each time unit so far. -/
def record (opts : Options) (lines : List Line) (n c : ℕ) : List (Option ℤ) :=
  (List.range (stateAt opts lines n).time.toNat).map fun u : ℕ => ranOn (trace opts lines n) c u

theorem ranOn_some {tr : List Event} {c u k : ℤ} (h : ranOn tr c u = some k) : .ran k c u ∈ tr := by
  obtain ⟨e, he, hk⟩ := List.exists_of_findSome?_eq_some h
  cases e with
  | finished => cases hk
  | ran job core time =>
    simp only [Option.ite_none_right_eq_some, Option.some.injEq] at hk
    obtain ⟨⟨rfl, rfl⟩, rfl⟩ := hk
    exact he

section Record
variable {opts : Options} {lines : List Line} {n c : ℕ}

theorem ranOn_iff (hcores : 0 < opts.cores) (h : Workload lines) {c u k : ℤ} :
    ranOn (trace opts lines n) c u = some k ↔ .ran k c u ∈ trace opts lines n := by
  refine ⟨ranOn_some, fun hr => ?_⟩
  cases hk : ranOn (trace opts lines n) c u with
  | none => simpa using List.findSome?_eq_none_iff.mp hk _ hr
  | some k' => rw [ran_inj hcores h (ranOn_some hk) hr]

/-- What is run now is no unit of the past. -/
theorem ranOn_succ (hcores : 0 < opts.cores) (h : Workload lines) {c u : ℤ}
    (hu : (stateAt opts lines n).pc = .run → u ≠ (stateAt opts lines n).time) :
    ranOn (trace opts lines (n + 1)) c u = ranOn (trace opts lines n) c u := by
  refine Option.ext fun k => ?_
  rw [ranOn_iff hcores h, ranOn_iff hcores h, ran_succ]
  exact or_iff_left fun hr => hu hr.1 hr.2.1

theorem ranOn_now (hcores : 0 < opts.cores) (h : Workload lines) {k : ℤ}
    (hpc : (stateAt opts lines n).pc = .run) :
    ranOn (trace opts lines (n + 1)) c (stateAt opts lines n).time = some k ↔
      OnCore (stateAt opts lines n) c k := by
  rw [ranOn_iff hcores h, ran_succ]
  constructor
  · rintro (hr | ⟨-, -, j, hj, -, hid, hc⟩)
    · exact absurd (ran_past hcores h hr) (lt_irrefl _)
    · exact ⟨j, hj, hid, hc⟩
  · rintro ⟨j, hj, hid, hc⟩
    exact Or.inr ⟨hpc, rfl, j, hj, by omega, hid, hc⟩

theorem record_same (hcores : 0 < opts.cores) (h : Workload lines) (c : ℕ)
    (hpc : (stateAt opts lines n).pc ≠ .run) :
    record opts lines (n + 1) c = record opts lines n c := by
  rw [record, record, time_same hcores h hpc]
  exact List.map_congr_left fun u _ => ranOn_succ hcores h fun hr => absurd hr hpc

/-- **A time unit adds what each core does in it.** -/
theorem record_run (hcores : 0 < opts.cores) (h : Workload lines) (c : ℕ)
    (hpc : (stateAt opts lines n).pc = .run) : record opts lines (n + 1) c =
      record opts lines n c ++ [ranOn (trace opts lines (n + 1)) c (stateAt opts lines n).time] := by
  have htime := time_nonneg hcores h n
  have hsucc : ((stateAt opts lines n).time + 1).toNat = (stateAt opts lines n).time.toNat + 1 := by
    omega
  rw [record, record, time_run hcores h hpc, hsucc, List.range_succ, List.map_append, List.map_singleton,
    Int.toNat_of_nonneg htime]
  refine congrArg (· ++ _) (List.map_congr_left fun u hu => ranOn_succ hcores h fun _ => ?_)
  have := List.mem_range.mp hu
  omega

/-! ### The diagram of a core -/

theorem finishStep_diagram (i : ℕ) (s : Sim) :
    (finishStep opts i s).coreTimingDiagram = s.coreTimingDiagram := by
  unfold finishStep
  cases s.jobs[i]? with
  | none =>
    simp only
    split_ifs <;> rfl
  | some j =>
    simp only
    split_ifs
    · cases schedulerJobFinished j.coreId j.jobId s.time s.sched with
      | none => rfl
      | some res =>
        simp only
        cases setNewJob res.1 j.coreId (deleteJob i s.jobs) <;> rfl
    · rfl

theorem quantumStep_diagram (i : ℕ) (s : Sim) :
    (quantumStep opts i s).coreTimingDiagram = s.coreTimingDiagram := by
  unfold quantumStep
  split_ifs
  · cases s.jobs.findIdx? (fun j => j.coreId = (i : ℤ)) with
    | none => rfl
    | some k =>
      simp only
      cases schedulerQuantumExpired i s.time s.sched with
      | none => rfl
      | some res =>
        simp only
        cases setNewJob res.1 i (s.jobs.modify k fun j => { j with coreId := -1 }) <;> rfl
  · rfl
  · rfl

theorem arriveStep_diagram (i : ℕ) (s : Sim) :
    (arriveStep opts i s).coreTimingDiagram = s.coreTimingDiagram := by
  unfold arriveStep
  cases s.jobs[i]? with
  | none => rfl
  | some j =>
    simp only
    split_ifs <;> rfl

/-- Only the run phase writes into the diagrams. -/
theorem step_diagram {s : Sim} (hpc : s.pc ≠ .run) :
    (step opts s).coreTimingDiagram = s.coreTimingDiagram := by
  unfold step
  cases hp : s.pc with
  | top =>
    simp only
    split_ifs <;> rfl
  | finish i => exact finishStep_diagram i s
  | quantum i => exact quantumStep_diagram i s
  | arrive i => exact arriveStep_diagram i s
  | run => exact absurd hp hpc
  | stop why => rfl

/-- What the run phase writes into `time_string` for a core. -/
theorem timeStrings_core {total : ℕ} {s : Sim} (h : Inv opts total s) (hc : c < opts.cores)
    {u : RunPhase} (hrun : runJobs s.jobs s.quantumClock (List.replicate opts.cores "") 0 = .ok u)
    {cell : Option ℤ} (hcell : ∀ k, cell = some k ↔ OnCore s c k) :
    u.timeStrings[c]? = some (match cell with
      | none => ""
      | some k => timeString k) := by
  cases cell with
  | none =>
    have hidle : ∀ j ∈ s.jobs, j.coreId ≠ c := fun j hj hjc => by
      cases (hcell j.jobId).mpr ⟨j, hj, rfl, hjc⟩
    rw [(runJobs_idle hrun hidle).2, List.getElem?_replicate, if_pos hc]
  | some k =>
    obtain ⟨j, hj, rfl, hjc⟩ := (hcell k).mp rfl
    exact (runJobs_on hjc hrun h.apart hj).2

/-- **The run phase appends a word** to the diagram of each core. -/
theorem run_diagram {total : ℕ} {s : Sim} (h : Inv opts total s) (hpc : s.pc = .run)
    (hc : c < opts.cores) {d : String} (hd : s.coreTimingDiagram[c]? = some d) {cell : Option ℤ}
    (hcell : ∀ k, cell = some k ↔ OnCore s c k) (hprint : Printable cell) :
    (step opts s).coreTimingDiagram[c]? = some (d ++ cellString cell) := by
  obtain ⟨clock, strings, hrun, -⟩ := run_ok h
  have hstr := timeStrings_core h hc hrun hcell
  have hzip : (List.zipWith (fun diagram str => diagram ++ (if str = "" then "-" else str))
      s.coreTimingDiagram strings)[c]? = some (d ++ cellString cell) := by
    rw [List.getElem?_zipWith, hd, hstr]
    cases cell with
    | none => rfl
    | some k =>
      simp only [if_neg (timeString_ne hprint)]
      rfl
  simp only [step, hpc, runStep, hrun]
  split_ifs <;> exact hzip

end Record

section Statements
variable {opts : Options} {lines : List Line} {n c : ℕ}

theorem printable_ranOn (hcores : 0 < opts.cores) (h : Workload lines)
    (hsmall : lines.length ≤ 10 ^ 7) (n : ℕ) (c u : ℤ) : Printable (ranOn (trace opts lines n) c u) := by
  cases hk : ranOn (trace opts lines n) c u with
  | none => trivial
  | some k =>
    obtain ⟨i, hi, rfl⟩ := ran_line hcores h (ranOn_some hk)
    exact ⟨by omega, by omega⟩

theorem diagram_text (hcores : 0 < opts.cores) (h : Workload lines) (hsmall : lines.length ≤ 10 ^ 7)
    (hc : c < opts.cores) (n : ℕ) : ∃ d, (stateAt opts lines n).coreTimingDiagram[c]? = some d ∧
      d.toList = (record opts lines n c).flatMap fun cell => (cellString cell).toList := by
  induction n with
  | zero => exact ⟨"", by simp [stateAt, start, hc], rfl⟩
  | succ n ih =>
    obtain ⟨d, hd, htext⟩ := ih
    by_cases hpc : (stateAt opts lines n).pc = .run
    · refine ⟨d ++ cellString (ranOn (trace opts lines (n + 1)) c (stateAt opts lines n).time), ?_, ?_⟩
      · rw [stateAt_succ]
        exact run_diagram (stateAt_inv hcores h n) hpc hc hd (fun k => ranOn_now hcores h hpc)
          (printable_ranOn hcores h hsmall _ _ _)
      · rw [record_run hcores h c hpc, List.flatMap_append, List.flatMap_singleton, ← htext,
          String.toList_append]
    · refine ⟨d, ?_, ?_⟩
      · rw [stateAt_succ, step_diagram hpc]
        exact hd
      · rw [record_same hcores h c hpc]
        exact htext

/-- **The diagram of a core tells what the core did**, unit by unit. -/
theorem diagram_record (hcores : 0 < opts.cores) (h : Workload lines)
    (hsmall : lines.length ≤ 10 ^ 7) (hc : c < opts.cores) (n : ℕ) :
    ∃ d, (stateAt opts lines n).coreTimingDiagram[c]? = some d ∧
      decodeDiagram d = record opts lines n c := by
  obtain ⟨d, hd, htext⟩ := diagram_text hcores h hsmall hc n
  refine ⟨d, hd, ?_⟩
  rw [decodeDiagram, htext]
  refine decode_flatMap rfl fun cell hcell => reads_cell ?_
  obtain ⟨u, -, rfl⟩ := List.mem_map.mp hcell
  exact printable_ranOn hcores h hsmall _ _ _

/-- A job runs on one core in a unit. -/
theorem ran_core (hcores : 0 < opts.cores) (h : Workload lines) {k u c c' : ℤ}
    (hr : .ran k c u ∈ trace opts lines n) (hr' : .ran k c' u ∈ trace opts lines n) : c = c' := by
  induction n with
  | zero => simp [trace] at hr
  | succ n ih =>
    rcases (ran_succ n).mp hr with hr | ⟨-, hu, j, hj, -, rfl, rfl⟩
    · rcases (ran_succ n).mp hr' with hr' | ⟨-, hu, -⟩
      · exact ih hr hr'
      · exact absurd (ran_past hcores h hr) (by omega)
    · rcases (ran_succ n).mp hr' with hr' | ⟨-, -, j', hj', -, hid, rfl⟩
      · exact absurd (ran_past hcores h hr') (by omega)
      · rw [List.inj_on_of_nodup_map (stateAt_inv hcores h n).lock.ids hj' hj hid]

theorem record_apart (hcores : 0 < opts.cores) (h : Workload lines) {c' u : ℕ} {k : ℤ}
    (hu : (record opts lines n c)[u]? = some (some k))
    (hu' : (record opts lines n c')[u]? = some (some k)) : c = c' := by
  have hran : ∀ {c : ℕ}, (record opts lines n c)[u]? = some (some k) →
      .ran k c u ∈ trace opts lines n := fun {c} hu => by
    rw [record, List.getElem?_map, Option.map_eq_some_iff] at hu
    obtain ⟨u', hu', hk⟩ := hu
    obtain ⟨hlt, rfl⟩ := List.getElem?_eq_some_iff.mp hu'
    rw [List.getElem_range] at hk
    exact ranOn_some hk
  have := ran_core hcores h (hran hu) (hran hu')
  omega

/-- **Over all cores a job appears in the units in which it was executed.** -/
theorem appearances (hcores : 0 < opts.cores) (h : Workload lines) (n : ℕ) (k : ℤ) :
    ∑ c ∈ Finset.range opts.cores, (record opts lines n c).count (some k) =
      (ranUnits (trace opts lines n) k).card := by
  induction n with
  | zero => simp [record, stateAt, start, ranUnits, trace]
  | succ n ih =>
    by_cases hpc : (stateAt opts lines n).pc = .run
    · have hinv := stateAt_inv hcores h n
      have hcount : ∀ c : ℕ, (record opts lines (n + 1) c).count (some k) =
          (record opts lines n c).count (some k) +
            if ranOn (trace opts lines (n + 1)) c (stateAt opts lines n).time = some k then 1
            else 0 := fun c => by
        rw [record_run hcores h c hpc, List.count_append, List.count_singleton]
        simp
      simp only [hcount, Finset.sum_add_distrib, ih]
      by_cases hon : ∃ c₀, OnCore (stateAt opts lines n) c₀ k
      · -- the job is on this core and on no other
        obtain ⟨c₀, hon⟩ := hon
        have hcell : ∀ c : ℕ, ranOn (trace opts lines (n + 1)) c (stateAt opts lines n).time = some k ↔
            c₀ = c := fun c => by
          rw [ranOn_now hcores h hpc]
          exact ⟨fun hc => hon.core hinv hc, fun hc => hc ▸ hon⟩
        obtain ⟨j, hj, rfl, hc⟩ := hon
        simp only [hcell, Finset.sum_ite_eq]
        rw [if_pos (Finset.mem_range.mpr (OnCore.lt hinv ⟨j, hj, rfl, hc⟩)),
          ranUnits_run hcores h hpc hj, if_neg (by omega),
          Finset.card_insert_of_notMem fun hu => absurd (ranUnits_past hcores h hu) (lt_irrefl _)]
      · have hcell : ∀ c : ℕ, ranOn (trace opts lines (n + 1)) c (stateAt opts lines n).time ≠ some k :=
          fun c hc => hon ⟨c, (ranOn_now hcores h hpc).mp hc⟩
        have hsame : ranUnits (trace opts lines (n + 1)) k = ranUnits (trace opts lines n) k := by
          ext u
          simp only [mem_ranUnits, ran_succ]
          refine exists_congr fun c => or_iff_left ?_
          rintro ⟨-, -, j, hj, hne, hid, rfl⟩
          have hrange := (hinv.range hj).resolve_left hne
          exact hon ⟨j.coreId.toNat, j, hj, hid, by omega⟩
        simp only [hcell, if_false, Finset.sum_const_zero, Nat.add_zero, hsame]
    · simp only [record_same hcores h _ hpc, ranUnits_same hpc]
      exact ih

end Statements

end Eecs678.Simulator.Diagram
