import Eecs678.Lib.Floats
import Eecs678.Scheduler.Priqueue
import Mathlib.Data.Rat.Defs
import Mathlib.Logic.Function.Basic

/-!
# The scheduler library

`libscheduler.c`. A job record lives at a pointer, a number; `heap` is what the records hold and
`fresh` the pointer that `malloc` returns next, so a pointer is never used for two jobs. The slots
`core_job_ptrs` are a list with `NULL` as `none`, the ready queue a list of pointers.

Comparers subtract in 32-bit arithmetic (`int32`); the other sums stay small and are taken in `ℤ`. The
three totals are `float` in the source. They are kept twice: as the floats that they are (`floats`), where
every operation rounds to 24 bits, and as the rationals that they would be without rounding.
-/

namespace Eecs678.Scheduler.Model

open Eecs678.Lib.Floats Eecs678.Scheduler.Priqueue

/-- The value a 32-bit `int` holds. -/
def int32 (x : ℤ) : ℤ := Int.bmod x (2 ^ 32)

theorem int32_eq {x : ℤ} (h : -2 ^ 31 ≤ x) (h' : x < 2 ^ 31) : int32 x = x :=
  Int.bmod_eq_of_le (by omega) (by omega)

/-- `scheme_t`. -/
inductive Scheme
  | fcfs
  | sjf
  | psjf
  | pri
  | ppri
  | rr
deriving DecidableEq, Repr

/-- `job_t`. -/
structure JobT where
  jobNumber : ℤ
  arrivalTime : ℤ
  runningTime : ℤ
  remainingTime : ℤ
  priority : ℤ
  coreId : ℤ
  startTime : ℤ
  finishTime : ℤ
  lastScheduledTime : ℤ
deriving DecidableEq, Repr

/-- `total_wait_time`, `total_turnaround_time` and `total_response_time`. Each of these floats is a sum of
rounded integers, and so an integer. -/
structure FloatTotals where
  waitTime : ℤ
  turnaroundTime : ℤ
  responseTime : ℤ
deriving DecidableEq, Repr

/-- The globals of `libscheduler.c`, and the memory of the job records. The three totals in `ℚ` are the
floats of `floats` read as exact rationals. -/
structure Sched where
  currentScheme : Scheme
  coreJobPtrs : List (Option ℕ)
  jobQueue : List ℕ
  heap : ℕ → JobT
  fresh : ℕ
  totalWaitTime : ℚ
  totalTurnaroundTime : ℚ
  totalResponseTime : ℚ
  totalJobsFinished : ℕ
  floats : FloatTotals

/-! ### Comparers -/

def compareFcfs (a b : JobT) : ℤ := int32 (a.arrivalTime - b.arrivalTime)

def compareSjf (a b : JobT) : ℤ :=
  if a.remainingTime ≠ b.remainingTime then int32 (a.remainingTime - b.remainingTime)
  else int32 (a.arrivalTime - b.arrivalTime)

def comparePri (a b : JobT) : ℤ :=
  if a.priority ≠ b.priority then int32 (a.priority - b.priority)
  else int32 (a.arrivalTime - b.arrivalTime)

def compareRr (a b : JobT) : ℤ := int32 (a.arrivalTime - b.arrivalTime)

/-- The comparer that `scheduler_start_up` gives the queue. -/
def comparer : Scheme → JobT → JobT → ℤ
  | .fcfs => compareFcfs
  | .sjf => compareSjf
  | .psjf => compareSjf
  | .pri => comparePri
  | .ppri => comparePri
  | .rr => compareRr

/-! ### Helpers -/

/-- Writes a job record. -/
def setJob (p : ℕ) (j : JobT) (s : Sched) : Sched := { s with heap := Function.update s.heap p j }

/-- `priqueue_offer(&job_queue, p)`. -/
def offer (p : ℕ) (s : Sched) : Sched :=
  { s with jobQueue :=
      (priqueueOffer (fun p q => comparer s.currentScheme (s.heap p) (s.heap q)) s.jobQueue p).1 }

/-- `find_idle_core`, with `none` for `-1`. -/
def findIdleCore (s : Sched) : Option ℕ := s.coreJobPtrs.findIdx? Option.isNone

/-- `place_job_on_core`. -/
def placeJobOnCore (p c : ℕ) (time : ℤ) (s : Sched) : Sched :=
  setJob p { s.heap p with
    coreId := c
    lastScheduledTime := time
    startTime := if (s.heap p).startTime = -1 then time else (s.heap p).startTime }
    { s with coreJobPtrs := s.coreJobPtrs.set c (some p) }

/-- What the three callbacks do to the record of a running job to bring it up to date. -/
def JobT.elapse (time : ℤ) (j : JobT) : JobT :=
  { j with
    remainingTime := j.remainingTime - (time - j.lastScheduledTime)
    lastScheduledTime := time }

/-- `update_remaining_times`: the loop over the cores. -/
def updateRemainingTimes (time : ℤ) (s : Sched) : Sched :=
  { s with heap := s.coreJobPtrs.foldl (fun h c =>
      match c with
      | none => h
      | some p => Function.update h p ((h p).elapse time)) s.heap }

/-- What a `float` makes of an integer. -/
def float32 (n : ℤ) : ℤ := roundInt 24 n

/-- The assignments of `accumulate_stats` to the three floats. -/
def accumulateFloats (j : JobT) (f : FloatTotals) : FloatTotals :=
  let turnaround := float32 (j.finishTime - j.arrivalTime)
  let response := float32 (j.startTime - j.arrivalTime)
  let wait := float32 (turnaround - float32 j.runningTime)
  { turnaroundTime := float32 (f.turnaroundTime + turnaround)
    responseTime := float32 (f.responseTime + response)
    waitTime := float32 (f.waitTime + wait) }

/-- `accumulate_stats`. -/
def accumulateStats (j : JobT) (s : Sched) : Sched :=
  let turnaround : ℚ := (j.finishTime - j.arrivalTime : ℤ)
  let response : ℚ := (j.startTime - j.arrivalTime : ℤ)
  let wait : ℚ := turnaround - j.runningTime
  { s with
    totalTurnaroundTime := s.totalTurnaroundTime + turnaround
    totalResponseTime := s.totalResponseTime + response
    totalWaitTime := s.totalWaitTime + wait
    totalJobsFinished := s.totalJobsFinished + 1
    floats := accumulateFloats j s.floats }

/-- The search for the worst running job: the loop from core `i` on, with the job and the core
found so far. -/
def worstLoop (cmp : JobT → JobT → ℤ) (heap : ℕ → JobT) :
    List (Option ℕ) → ℕ → Option (ℕ × ℕ) → Option (ℕ × ℕ)
  | [], _, worst => worst
  | none :: l, i, worst => worstLoop cmp heap l (i + 1) worst
  | some r :: l, i, none => worstLoop cmp heap l (i + 1) (some (r, i))
  | some r :: l, i, some (w, c) =>
    worstLoop cmp heap l (i + 1) (if 0 < cmp (heap r) (heap w) then some (r, i) else some (w, c))

/-! ### The callbacks -/

/-- `scheduler_start_up`. -/
def schedulerStartUp (cores : ℕ) (scheme : Scheme) : Sched where
  currentScheme := scheme
  coreJobPtrs := List.replicate cores none
  jobQueue := []
  heap := fun _ => ⟨0, 0, 0, 0, 0, 0, 0, 0, 0⟩
  fresh := 0
  totalWaitTime := 0
  totalTurnaroundTime := 0
  totalResponseTime := 0
  totalJobsFinished := 0
  floats := ⟨0, 0, 0⟩

/-- The record of an arriving job. -/
def newJobRecord (jobNumber time runningTime priority : ℤ) : JobT where
  jobNumber := jobNumber
  arrivalTime := time
  runningTime := runningTime
  remainingTime := runningTime
  priority := priority
  coreId := -1
  startTime := -1
  finishTime := -1
  lastScheduledTime := time

/-- The comparison that picks the job to preempt. -/
def preemptCompare (scheme : Scheme) : JobT → JobT → ℤ :=
  if scheme = .psjf then compareSjf else comparePri

/-- The worst running job and its core, if the scheme preempts and the new job `p` goes before it. -/
def victim (p : ℕ) (s : Sched) : Option (ℕ × ℕ) :=
  if s.currentScheme = .psjf ∨ s.currentScheme = .ppri then
    match worstLoop (preemptCompare s.currentScheme) s.heap s.coreJobPtrs 0 none with
    | none => none
    | some (w, c) =>
      if preemptCompare s.currentScheme (s.heap p) (s.heap w) < 0 then some (w, c) else none
  else none

/-- `malloc` and the assignments at the start of `scheduler_new_job`. -/
def allocJob (j : JobT) (s : Sched) : Sched := { setJob s.fresh j s with fresh := s.fresh + 1 }

/-- `scheduler_new_job`: the core the job is to run on, or `-1`. -/
def schedulerNewJob (jobNumber time runningTime priority : ℤ) (s : Sched) : ℤ × Sched :=
  let p := s.fresh
  let s := updateRemainingTimes time
    (allocJob (newJobRecord jobNumber time runningTime priority) s)
  match findIdleCore s with
  | some c => (c, placeJobOnCore p c time s)
  | none =>
    match victim p s with
    | some (w, c) =>
      (c, placeJobOnCore p c time (offer w (setJob w { s.heap w with coreId := -1 } s)))
    | none => (-1, offer p s)

/-- The slot a core number refers to, if it holds a job. -/
def jobOn (core : ℤ) (s : Sched) : Option ℕ :=
  if 0 ≤ core then s.coreJobPtrs[core.toNat]?.join else none

/-- The end of `scheduler_job_finished` and of `scheduler_quantum_expired`: the next job of the
queue goes to the core, and its number is returned. -/
def pollOnto (core : ℕ) (time : ℤ) (s : Sched) : ℤ × Sched :=
  match priqueuePoll s.jobQueue with
  | (_, none) => (-1, s)
  | (q, some next) =>
    ((s.heap next).jobNumber, placeJobOnCore next core time { s with jobQueue := q })

/-- `scheduler_job_finished`; no result when the core is none or idle. The job number is not used. -/
def schedulerJobFinished (core : ℤ) (_jobNumber time : ℤ) (s : Sched) : Option (ℤ × Sched) :=
  match jobOn core s with
  | none => none
  | some p =>
    let s := setJob p { (s.heap p).elapse time with finishTime := time } s
    let s := accumulateStats (s.heap p) s
    some (pollOnto core.toNat time { s with coreJobPtrs := s.coreJobPtrs.set core.toNat none })

/-- `scheduler_quantum_expired`; no result when the core is none or idle. -/
def schedulerQuantumExpired (core time : ℤ) (s : Sched) : Option (ℤ × Sched) :=
  match jobOn core s with
  | none => none
  | some p =>
    let s := setJob p { (s.heap p).elapse time with coreId := -1 } s
    let s := { s with coreJobPtrs := s.coreJobPtrs.set core.toNat none }
    some (pollOnto core.toNat time (offer p s))

/-! ### The averages -/

/-- The division of a total by `total_jobs_finished`, in `float` arithmetic. -/
def floatAverage (total : ℤ) (finished : ℕ) : ℚ :=
  if finished = 0 then 0 else roundRat 24 (total / float32 finished)

/-- `scheduler_average_waiting_time`. -/
def floatAverageWaitingTime (s : Sched) : ℚ := floatAverage s.floats.waitTime s.totalJobsFinished

/-- `scheduler_average_turnaround_time`. -/
def floatAverageTurnaroundTime (s : Sched) : ℚ :=
  floatAverage s.floats.turnaroundTime s.totalJobsFinished

/-- `scheduler_average_response_time`. -/
def floatAverageResponseTime (s : Sched) : ℚ := floatAverage s.floats.responseTime s.totalJobsFinished

/-- `scheduler_average_waiting_time`, with floats read as exact rationals. -/
def schedulerAverageWaitingTime (s : Sched) : ℚ :=
  if s.totalJobsFinished = 0 then 0 else s.totalWaitTime / s.totalJobsFinished

/-- `scheduler_average_turnaround_time`, with floats read as exact rationals. -/
def schedulerAverageTurnaroundTime (s : Sched) : ℚ :=
  if s.totalJobsFinished = 0 then 0 else s.totalTurnaroundTime / s.totalJobsFinished

/-- `scheduler_average_response_time`, with floats read as exact rationals. -/
def schedulerAverageResponseTime (s : Sched) : ℚ :=
  if s.totalJobsFinished = 0 then 0 else s.totalResponseTime / s.totalJobsFinished

/-- What `scheduler_show_queue` prints: the queued jobs with their `core_id`, then the running jobs
with their core. -/
def schedulerShowQueue (s : Sched) : List (ℤ × ℤ) :=
  s.jobQueue.map (fun p => ((s.heap p).jobNumber, (s.heap p).coreId)) ++
    (s.coreJobPtrs.zipIdx.filterMap fun x => x.1.map fun p => ((s.heap p).jobNumber, (x.2 : ℤ)))

end Eecs678.Scheduler.Model
