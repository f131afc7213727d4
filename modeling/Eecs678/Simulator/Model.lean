import Eecs678.Scheduler.Model

/-!
# The simulator

The main loop of `simulator.c` as a machine: `Pc` says which loop of `main` runs and at which index,
and `step` is one iteration of that loop, from the call of a callback to what is done with its
result. The ways out of `main` are the `Stop`s; an index outside its array is `Stop.fault`. One is left out,
"Out of memory": the diagrams have no bound here, where `main` returns 3 if `realloc` fails, and has no size
for a diagram of `2 ^ 30` characters (`Simulator.Buffers` has the bytes). What `main` prints is left out too.
-/

namespace Eecs678.Simulator.Model

open Eecs678.Scheduler.Model

/-- The options: `-c cores`, `-s scheme` and the quantum of `RR`. -/
structure Options where
  cores : ℕ
  scheme : Scheme
  quantum : ℤ

/-- `simulator_job_list_t`. -/
structure SimulatorJob where
  jobId : ℤ
  arrivalTime : ℤ
  runTime : ℤ
  priority : ℤ
  coreId : ℤ
  arrived : Bool
deriving DecidableEq

/-- The ways out of `main`. -/
inductive Stop
  /-- `return 0`. -/
  | done
  /-- "selected an invalid job". -/
  | invalidJob
  /-- "selected an invalid core". -/
  | invalidCore
  /-- "All cores are idle and at least one job remains unscheduled." -/
  | allIdle
  /-- The assertion on `time_string`. -/
  | assertion
  /-- An index outside its array. -/
  | fault
deriving DecidableEq

/-- Where `main` is: at the head of the `while` loop, in the three loops over callbacks at index `i`,
before the run phase, or out. -/
inductive Pc
  | top
  | finish (i : ℕ)
  | quantum (i : ℕ)
  | arrive (i : ℕ)
  | run
  | stop (why : Stop)
deriving DecidableEq

/-- The variables of `main`; `jobs` are the first `active_jobs` entries. -/
structure Sim where
  pc : Pc
  time : ℤ
  jobs : List SimulatorJob
  jobsAlive : ℤ
  quantumClock : List ℤ
  coreTimingDiagram : List String
  sched : Sched

/-! ### Helpers -/

/-- `set_active_job`, with `none` for `0`. -/
def setActiveJob (jobId coreId : ℤ) : List SimulatorJob → Option (List SimulatorJob)
  | [] => none
  | j :: jobs =>
    if j.jobId = jobId ∧ j.arrived then some ({ j with coreId := coreId } :: jobs)
    else (setActiveJob jobId coreId jobs).map (j :: ·)

/-- `new_job_id != -1 && !set_active_job(..)`, with `none` if it holds. -/
def setNewJob (newJobId coreId : ℤ) (jobs : List SimulatorJob) : Option (List SimulatorJob) :=
  if newJobId = -1 then some jobs else setActiveJob newJobId coreId jobs

/-- Entry `i` is deleted: the last entry is copied over it. -/
def deleteJob (i : ℕ) (jobs : List SimulatorJob) : List SimulatorJob :=
  match jobs.getLast? with
  | none => []
  | some last => (if i ≠ jobs.length - 1 then jobs.set i last else jobs).dropLast

/-- The loop of the arrival phase that takes the jobs off core `c`. -/
def clearCore (c : ℤ) (j : SimulatorJob) : SimulatorJob :=
  if j.coreId = c then { j with coreId := -1 } else j

/-- `quantum_clock[core] = quantum`, done for `RR` only. -/
def resetClock (opts : Options) (core : ℤ) (clock : List ℤ) : List ℤ :=
  if opts.scheme = .rr then clock.set core.toNat opts.quantum else clock

/-- What is written into `time_string` for a job. -/
def timeString (jobId : ℤ) : String :=
  if jobId < 10 then toString jobId
  else if jobId < 10 + 26 then String.singleton (Char.ofNat (jobId - 10 + 97).toNat)
  else if jobId < 10 + 26 + 26 then String.singleton (Char.ofNat (jobId - 10 - 26 + 65).toNat)
  else String.ofList (("(" ++ toString jobId ++ ")").toList.take 9)

/-- What the loop of the run phase computes. -/
structure RunPhase where
  jobs : List SimulatorJob
  quantumClock : List ℤ
  timeStrings : List String
  coresWorking : ℕ

/-- The loop of the run phase over the jobs. -/
def runJobs : List SimulatorJob → List ℤ → List String → ℕ → Except Stop RunPhase
  | [], clock, strings, working => .ok ⟨[], clock, strings, working⟩
  | j :: jobs, clock, strings, working =>
    if j.coreId = -1 then
      (runJobs jobs clock strings working).map fun u => { u with jobs := j :: u.jobs }
    else if j.coreId < 0 then .error .fault
    else
      match clock[j.coreId.toNat]?, strings[j.coreId.toNat]? with
      | some k, some str =>
        if str ≠ "" then .error .assertion
        else
          (runJobs jobs (clock.set j.coreId.toNat (k - 1))
            (strings.set j.coreId.toNat (timeString j.jobId)) (working + 1)).map fun u =>
              { u with jobs := { j with runTime := j.runTime - 1 } :: u.jobs }
      | _, _ => .error .fault

/-! ### The phases -/

/-- The loop over the jobs that finished, at index `i`. -/
def finishStep (opts : Options) (i : ℕ) (s : Sim) : Sim :=
  match s.jobs[i]? with
  | none =>
    if s.jobs.length = 0 then { s with pc := .stop .done }
    else if opts.scheme = .rr then { s with pc := .quantum 0 }
    else { s with pc := .arrive 0 }
  | some j =>
    if j.runTime = 0 then
      match schedulerJobFinished j.coreId j.jobId s.time s.sched with
      | none => { s with pc := .stop .fault }
      | some (newJobId, sched) =>
        let s := { s with
          sched := sched
          quantumClock := resetClock opts j.coreId s.quantumClock
          jobs := deleteJob i s.jobs
          jobsAlive := s.jobsAlive - 1 }
        match setNewJob newJobId j.coreId s.jobs with
        | none => { s with pc := .stop .invalidJob }
        | some jobs => { s with jobs := jobs, pc := .finish i }
    else { s with pc := .finish (i + 1) }

/-- The loop over the cores whose quantum expired, at core `i`. -/
def quantumStep (opts : Options) (i : ℕ) (s : Sim) : Sim :=
  if i < opts.cores then
    if s.quantumClock[i]? = some 0 then
      match s.jobs.findIdx? (fun j => j.coreId = (i : ℤ)) with
      | none => { s with pc := .quantum (i + 1) }
      | some k =>
        match schedulerQuantumExpired i s.time s.sched with
        | none => { s with pc := .stop .fault }
        | some (newJobId, sched) =>
          let s := { s with
            sched := sched
            jobs := s.jobs.modify k fun j => { j with coreId := -1 }
            quantumClock := s.quantumClock.set i opts.quantum }
          match setNewJob newJobId i s.jobs with
          | none => { s with pc := .stop .invalidJob }
          | some jobs => { s with jobs := jobs, pc := .quantum (i + 1) }
    else { s with pc := .quantum (i + 1) }
  else { s with pc := .arrive 0 }

/-- The loop over the jobs that arrive, at index `i`. -/
def arriveStep (opts : Options) (i : ℕ) (s : Sim) : Sim :=
  match s.jobs[i]? with
  | none => { s with pc := .run }
  | some j =>
    if j.arrivalTime = s.time then
      let (newJobCoreId, sched) := schedulerNewJob j.jobId s.time j.runTime j.priority s.sched
      let s := { s with
        sched := sched
        jobs := s.jobs.modify i fun j => { j with arrived := true }
        jobsAlive := s.jobsAlive + 1 }
      if 0 ≤ newJobCoreId ∧ newJobCoreId < opts.cores then
        { s with
          jobs := (s.jobs.map (clearCore newJobCoreId)).modify i fun j =>
            { j with coreId := newJobCoreId }
          quantumClock := resetClock opts newJobCoreId s.quantumClock
          pc := .arrive (i + 1) }
      else if newJobCoreId = -1 then { s with pc := .arrive (i + 1) }
      else { s with pc := .stop .invalidCore }
    else { s with pc := .arrive (i + 1) }

/-- The run phase, the sanity check and the end of the time unit. -/
def runStep (opts : Options) (s : Sim) : Sim :=
  match runJobs s.jobs s.quantumClock (List.replicate opts.cores "") 0 with
  | .error why => { s with pc := .stop why }
  | .ok u =>
    let s : Sim := { s with
      jobs := u.jobs
      quantumClock := u.quantumClock
      coreTimingDiagram := List.zipWith
        (fun diagram str => diagram ++ (if str = "" then "-" else str))
        s.coreTimingDiagram u.timeStrings }
    if 0 < s.jobsAlive ∧ u.coresWorking = 0 then { s with pc := .stop .allIdle }
    else { s with time := s.time + 1, pc := .top }

/-- One iteration of the loop that `main` is in. -/
def step (opts : Options) (s : Sim) : Sim :=
  match s.pc with
  | .top => if 0 < s.jobs.length then { s with pc := .finish 0 } else { s with pc := .stop .done }
  | .finish i => finishStep opts i s
  | .quantum i => quantumStep opts i s
  | .arrive i => arriveStep opts i s
  | .run => runStep opts s
  | .stop _ => s

/-- One line of the workload: arrival time, running time and priority. -/
structure Line where
  arrivalTime : ℤ
  runTime : ℤ
  priority : ℤ

/-- The jobs that are loaded: the number of a job is its line. -/
def load (lines : List Line) : List SimulatorJob :=
  lines.mapIdx fun i l => ⟨i, l.arrivalTime, l.runTime, l.priority, -1, false⟩

/-- `main` before its `while` loop. -/
def start (opts : Options) (lines : List Line) : Sim where
  pc := .top
  time := 0
  jobs := load lines
  jobsAlive := 0
  quantumClock := List.replicate opts.cores (-1)
  coreTimingDiagram := List.replicate opts.cores ""
  sched := schedulerStartUp opts.cores opts.scheme

/-- The state after `n` iterations. -/
def stateAt (opts : Options) (lines : List Line) (n : ℕ) : Sim := (step opts)^[n] (start opts lines)

end Eecs678.Simulator.Model
