import Eecs678.Lib.Descriptors
import Eecs678.Lib.Rotation
import Eecs678.Quash.Commands

/-!
# Running scripts

`project1/quash/src/execute.c`. The state of quash has its descriptors, the globals of `execute.c`, the
environment, the running flag of `quash.c` and `state.parsed_str`; `log` is what it has done that other
processes or the user can see. The queues are the sequences that `deque.h` makes of them, and a loop
that pops the front of a queue as many times as it is long is a `rotate`. What the kernel answers is a
parameter. `none` is a failed `assert` or an `abort()`.

A pipe is a number, and a new pipe gets a new one: `fresh` says that quash has no descriptor of a pipe
that is still to come.
-/

namespace Eecs678.Quash.Execute

open Eecs678.Lib.Descriptors Eecs678.Lib.Rotation Eecs678.Quash.Commands

/-- How `open` is called. -/
inductive Mode
  | read
  | truncate
  | append
deriving DecidableEq, Repr

/-- What a descriptor can refer to. -/
inductive Obj
  | pipeRead (k : ℕ)
  | pipeWrite (k : ℕ)
  | file (path : Option Str) (mode : Mode)
  | other (n : ℕ)
deriving DecidableEq, Repr

/-- The pipe an object is an end of. -/
def Obj.pipe? : Obj → Option ℕ
  | .pipeRead k => some k
  | .pipeWrite k => some k
  | _ => none

structure Job where
  jobId : ℤ
  pids : List ℤ
  cmdString : Str
deriving DecidableEq, Repr

inductive Event
  /-- `waitpid(pid, &status, WNOHANG)`, with its result. -/
  | poll (pid result : ℤ)
  /-- `waitpid(pid, &status, 0)`. -/
  | wait (pid : ℤ)
  /-- `kill(pid, signal)`. -/
  | kill (pid signal : ℤ)
  /-- A process is forked; `-1` when that fails. -/
  | fork (pid : ℤ)
  /-- `print_job`. -/
  | job (jobId pid : ℤ) (cmd : Str)
  /-- `print_job_bg_start`. -/
  | jobStart (jobId pid : ℤ) (cmd : Str)
  /-- `print_job_bg_complete`. -/
  | jobComplete (jobId pid : ℤ) (cmd : Str)
deriving DecidableEq, Repr

/-- The slots of `pipes` are numbered 0 and 1. -/
instance neZero_slots : NeZero 2 := ⟨Nat.succ_ne_zero 1⟩

structure Shell where
  table : Table Obj
  nextPipe : ℕ
  fresh : ∀ fd o k, table.get fd = some o → o.pipe? = some k → k < nextPipe
  pipes : Fin 2 → ℕ × ℕ
  pipeIndex : Fin 2
  env : Str → Option Str
  backgroundJobs : List Job
  nextJobId : ℤ
  dequesInitialized : Bool
  running : Bool
  parsedStr : Str
  log : List Event

/-- Quash as it starts on a terminal: the initial values of the globals, and the descriptors 0, 1
and 2. -/
def initialShell (env : Str → Option Str) : Shell where
  table :=
    { get := fun fd => if fd < 3 then some (.other fd) else none
      limit := 3
      closed := fun fd h => if_neg (by omega) }
  nextPipe := 0
  fresh := fun fd o k ho hk => by
    simp only at ho
    split at ho <;> cases ho
    cases hk
  pipes := fun _ => (0, 0)
  pipeIndex := 0
  env := env
  backgroundJobs := []
  nextJobId := 1
  dequesInitialized := false
  running := true
  parsedStr := []
  log := []

/-- What the kernel answers while one process is created: whether `pipe`, the two `open`s and `chdir`
succeed, the pid or the failure of `fork`, and what `getcwd` returns. -/
structure Answers where
  pipe : Bool
  fork : Option ℕ
  openIn : Bool
  openOut : Bool
  chdir : Bool
  cwd : Str

/-- What the kernel answers while one script runs. In one check there is one answer for each pid, which
differs from `waitpid` for a pid that is polled more than once: a job with two failed forks polls `-1`
twice, and that may give two answers. -/
structure Kernel where
  poll : ℤ → ℤ
  stage : ℕ → Answers

/-- A new process: after an `open` that fails it exits with 1, otherwise it runs its command on its
table; `output` is what `jobs` prints, `none` when its assertion fails. -/
inductive Child
  | exited
  | running (table : Table Obj) (output : Option (List Event))

namespace Shell

def emit (es : List Event) (s : Shell) : Shell := { s with log := s.log ++ es }

/-- `pipe(pipes[pipe_index])`, when it succeeds. -/
def pipe (s : Shell) : Shell :=
  let read := s.table.openAt (.pipeRead s.nextPipe)
  let write := read.2.openAt (.pipeWrite s.nextPipe)
  { s with
    table := write.2
    nextPipe := s.nextPipe + 1
    pipes := Function.update s.pipes s.pipeIndex (read.1, write.1)
    fresh := fun fd o k ho hk => by
      simp only [write, read, Table.openAt, Table.get_set] at ho
      split at ho
      · cases ho
        cases hk
        exact Nat.lt_succ_self _
      · split at ho
        · cases ho
          cases hk
          exact Nat.lt_succ_self _
        · exact Nat.lt_succ_of_lt (s.fresh fd o k ho hk) }

/-- `close(fd)` in quash. -/
def close (fd : ℕ) (s : Shell) : Shell :=
  { s with
    table := s.table.close fd
    fresh := fun x o k ho hk => by
      rw [Table.get_close] at ho
      split at ho
      · cases ho
      · exact s.fresh x o k ho hk }

def setenv (name val : Str) (s : Shell) : Shell := { s with env := Function.update s.env name (some val) }

end Shell

/-! ### The background jobs -/

/-- The inner loop of `check_jobs_bg_status`: one pid, and whether all are done so far. -/
def pollPid (poll : ℤ → ℤ) (pid : ℤ) : Bool × List Event → Option (Option ℤ × Bool × List Event)
  | (allDone, log) =>
    if poll pid = 0 then some (some pid, false, log ++ [.poll pid (poll pid)])
    else some (none, allDone, log ++ [.poll pid (poll pid)])

/-- The outer loop of `check_jobs_bg_status`: one job. -/
def pollJob (poll : ℤ → ℤ) (job : Job) (log : List Event) : Option (Option Job × List Event) := do
  let (pids, allDone, log) ← rotate (pollPid poll) job.pids.length job.pids (true, log)
  if allDone then return (none, log ++ [.jobComplete job.jobId 0 job.cmdString])
  else return (some { job with pids := pids }, log)

/-- `check_jobs_bg_status`. -/
def checkJobsBgStatus (poll : ℤ → ℤ) (s : Shell) : Option Shell :=
  if !s.dequesInitialized || s.backgroundJobs.isEmpty then some s else do
    let (jobs, log) ← rotate (pollJob poll) s.backgroundJobs.length s.backgroundJobs s.log
    return { s with backgroundJobs := jobs, log := log }

/-- The inner loop of `run_kill`. -/
def killPid (signal pid : ℤ) (log : List Event) : Option (Option ℤ × List Event) :=
  some (some pid, log ++ [.kill pid signal])

/-- The outer loop of `run_kill`. -/
def killJob (signal jobId : ℤ) (job : Job) (log : List Event) : Option (Option Job × List Event) :=
  if job.jobId = jobId then do
    let (pids, log) ← rotate (killPid signal) job.pids.length job.pids log
    return (some { job with pids := pids }, log)
  else some (some job, log)

/-- `run_kill`. -/
def runKill (signal jobId : ℤ) (s : Shell) : Option Shell :=
  if s.dequesInitialized then do
    let (jobs, log) ← rotate (killJob signal jobId) s.backgroundJobs.length s.backgroundJobs s.log
    return { s with backgroundJobs := jobs, log := log }
  else none

/-- The loop of `run_jobs`; `peek_front_pid_deque` asserts that there is a pid. -/
def printJob (job : Job) (log : List Event) : Option (Option Job × List Event) := do
  let pid ← job.pids.head?
  return (some job, log ++ [.job job.jobId pid job.cmdString])

/-- `run_jobs`, with the jobs it leaves and what it prints. -/
def runJobs (s : Shell) : Option (List Job × List Event) :=
  if !s.dequesInitialized || s.backgroundJobs.isEmpty then some (s.backgroundJobs, [])
  else rotate printJob s.backgroundJobs.length s.backgroundJobs []

/-! ### Commands -/

/-- `run_export`. -/
def runExport (envVar val : Str) (s : Shell) : Shell := s.setenv envVar val

/-- `run_cd`. -/
def runCd (a : Answers) (dir : Option Str) (s : Shell) : Shell :=
  match dir with
  | none => s
  | some _ => if a.chdir then s.setenv "PWD".toList a.cwd else s

/-- `child_run_command`: what the commands print that quash itself knows. -/
def childRunCommand (cmd : Command) (s : Shell) : Option (List Event) :=
  match cmd with
  | .jobs => (runJobs s).map Prod.snd
  | _ => some []

/-- `parent_run_command`. -/
def parentRunCommand (a : Answers) (cmd : Command) (s : Shell) : Option Shell :=
  match cmd with
  | .export envVar val => some (runExport envVar val s)
  | .cd dir => some (runCd a dir s)
  | .kill sig job _ _ => runKill sig job s
  | _ => some s

/-! ### Processes -/

/-- `open`, `dup2` to `target` and `close`; `none` when `open` fails. -/
def redirect (granted : Bool) (o : Obj) (target : ℕ) (t : Table Obj) : Option (Table Obj) :=
  if granted then some ((t.openAt o).2.moveTo (t.openAt o).1 target) else none

/-- Standard input of a child. -/
def childIn (a : Answers) (holder : CommandHolder) (s : Shell) (t : Table Obj) : Option (Table Obj) :=
  if holder.flags.redirectIn then redirect a.openIn (.file holder.redirectIn .read) 0 t
  else if holder.flags.pipeIn then some (t.moveTo (s.pipes (1 - s.pipeIndex)).1 0)
  else some t

/-- Standard output of a child. -/
def childOut (a : Answers) (holder : CommandHolder) (s : Shell) (t : Table Obj) : Option (Table Obj) :=
  if holder.flags.redirectOut then
    redirect a.openOut
      (.file holder.redirectOut (if holder.flags.redirectAppend then .append else .truncate)) 1 t
  else if holder.flags.pipeOut then some (t.moveTo (s.pipes s.pipeIndex).2 1)
  else some t

/-- The branch of `create_process` in the child, up to the command; `none` when an `open` fails. -/
def childTable (a : Answers) (holder : CommandHolder) (s : Shell) : Option (Table Obj) := do
  let t ← childIn a holder s s.table
  let t ← childOut a holder s t
  return if holder.flags.pipeOut then t.close (s.pipes s.pipeIndex).1 else t

def child (a : Answers) (holder : CommandHolder) (s : Shell) : Child :=
  match childTable a holder s with
  | none => .exited
  | some t => .running t (childRunCommand holder.cmd s)

/-- The branch of `create_process` in quash, up to the command. -/
def parentTables (holder : CommandHolder) (s : Shell) : Shell :=
  let s := if holder.flags.pipeOut then s.close (s.pipes s.pipeIndex).2 else s
  let s := if holder.flags.pipeIn then s.close (s.pipes (1 - s.pipeIndex)).1 else s
  { s with pipeIndex := 1 - s.pipeIndex }

/-- What `fork` returns in quash. -/
def forkPid (a : Answers) : ℤ :=
  match a.fork with
  | some pid => pid
  | none => -1

/-- Quash before the `fork`: after `pipe`, where there is one and it succeeds. -/
def withPipe (a : Answers) (holder : CommandHolder) (s : Shell) : Shell :=
  if holder.flags.pipeOut && a.pipe then s.pipe else s

/-- `create_process`: the pid, the child if there is one, and quash. -/
def createProcess (a : Answers) (holder : CommandHolder) (s : Shell) :
    Option (ℤ × Option Child × Shell) := do
  let s := withPipe a holder s
  let new := a.fork.map fun _ => child a holder s
  let s ← parentRunCommand a holder.cmd ((parentTables holder s).emit [.fork (forkPid a)])
  return (forkPid a, new, s)

/-- The loop of `run_script` over the holders, from the stage `i` on. -/
def createProcesses (stage : ℕ → Answers) :
    ℕ → List CommandHolder → Shell → Option (List ℤ × List (Option Child) × Shell)
  | _, [], s => some ([], [], s)
  | i, holder :: holders, s => do
    let (pid, new, s) ← createProcess (stage i) holder s
    let (pids, news, s) ← createProcesses stage (i + 1) holders s
    return (pid :: pids, new :: news, s)

/-- The script is one `exit`. -/
def exitAlone (holders : List CommandHolder) : Bool :=
  match holders with
  | [holder] => holder.cmd == .exit
  | _ => false

def isBackground (holders : List CommandHolder) : Bool :=
  match holders with
  | holder :: _ => holder.flags.background
  | [] => false

/-- The end of `run_script`: a foreground job is waited for, a background job is put on the list. -/
def finishScript (holders : List CommandHolder) (pids : List ℤ) (s : Shell) : Option Shell :=
  if isBackground holders then do
    let pid ← pids.head?
    return { s.emit [.jobStart s.nextJobId pid s.parsedStr] with
      backgroundJobs := s.backgroundJobs ++ [⟨s.nextJobId, pids, s.parsedStr⟩]
      nextJobId := s.nextJobId + 1 }
  else return s.emit (pids.map .wait)

/-- The start of `run_script`, up to the test for `exit`. -/
def startScript (k : Kernel) (s : Shell) : Option Shell :=
  checkJobsBgStatus k.poll
    (if s.dequesInitialized then s else { s with backgroundJobs := [], dequesInitialized := true })

/-- The rest of `run_script`, with the children it has created. -/
def bodyScript (k : Kernel) (holders : List CommandHolder) (s : Shell) :
    Option (List (Option Child) × Shell) :=
  if exitAlone holders then some ([], { s with running := false })
  else do
    let (pids, news, s) ← createProcesses k.stage 0 holders { s with pipeIndex := 0 }
    let s ← finishScript holders pids s
    return (news, s)

/-- `run_script`. -/
def runScript (k : Kernel) (holders : List CommandHolder) (s : Shell) :
    Option (List (Option Child) × Shell) := do
  let s ← startScript k s
  bodyScript k holders s

end Eecs678.Quash.Execute
