import Eecs678.Quash.Execute

/-!
# What the loops over the background jobs do

Each loop of `execute.c` that turns a queue is a walk over the queue in order. `startScript_eq` and
`parentRunCommand_eq` say all that the start of a script and a command in quash change.
-/

namespace Eecs678.Quash.Jobs

open Eecs678.Lib.Rotation Eecs678.Quash.Commands Eecs678.Quash.Execute

/-- The job with the pids that still run; `none` when all are done. -/
def remaining (poll : ℤ → ℤ) (job : Job) : Option Job :=
  if job.pids.filter (poll · = 0) = [] then none
  else some { job with pids := job.pids.filter (poll · = 0) }

def polls (poll : ℤ → ℤ) (pids : List ℤ) : List Event := pids.map fun pid => .poll pid (poll pid)

/-- What one check does to the outside for one job. -/
def checked (poll : ℤ → ℤ) (job : Job) : List Event :=
  polls poll job.pids ++
    if job.pids.filter (poll · = 0) = [] then [.jobComplete job.jobId 0 job.cmdString] else []

/-- The signals of `kill` to one job. -/
def killed (signal jobId : ℤ) (job : Job) : List Event :=
  if job.jobId = jobId then job.pids.map fun pid => .kill pid signal else []

/-! ### The check -/

theorem walk_pollPid (poll : ℤ → ℤ) : ∀ (pids : List ℤ) (allDone : Bool) (log : List Event),
    walk (pollPid poll) pids (allDone, log) =
      some (pids.filter (poll · = 0), allDone && (pids.filter (poll · = 0)).isEmpty,
        log ++ polls poll pids)
  | [], allDone, log => by simp [walk, polls]
  | pid :: pids, allDone, log => by
    by_cases h : poll pid = 0
    · simp [walk, pollPid, h, walk_pollPid poll pids, polls]
    · simp [walk, pollPid, h, walk_pollPid poll pids, polls]

theorem pollJob_eq (poll : ℤ → ℤ) (job : Job) (log : List Event) :
    pollJob poll job log = some (remaining poll job, log ++ checked poll job) := by
  unfold pollJob
  rw [rotate_length, walk_pollPid]
  simp only [bind, Option.bind, Bool.true_and, List.isEmpty_iff, remaining, checked]
  split <;> simp [pure]

/-- **The check** keeps, in order, the jobs and pids that still run. -/
theorem checkJobsBgStatus_eq (poll : ℤ → ℤ) {s : Shell} (h : s.dequesInitialized) :
    checkJobsBgStatus poll s = some { s.emit (s.backgroundJobs.flatMap (checked poll)) with
      backgroundJobs := s.backgroundJobs.filterMap (remaining poll) } := by
  obtain ⟨t, n, f, p, i, e, jobs, id, init, r, str, log⟩ := s
  obtain rfl : init = true := h
  unfold checkJobsBgStatus
  cases jobs with
  | nil => simp [Shell.emit]
  | cons job jobs =>
    simp only [rotate_length, walk_log fun job _ log => pollJob_eq poll job log]
    rfl

/-- The start of a script, from any state: the check on the queues there are. -/
theorem startScript_eq (k : Kernel) (s : Shell) : ∃ jobs, startScript k s =
    some { s.emit (jobs.flatMap (checked k.poll)) with
      backgroundJobs := jobs.filterMap (remaining k.poll), dequesInitialized := true } ∧
    jobs = if s.dequesInitialized then s.backgroundJobs else [] := by
  refine ⟨_, ?_, rfl⟩
  unfold startScript
  obtain ⟨t, n, f, p, i, e, jobs, id, init, r, str, log⟩ := s
  cases init with
  | true => exact checkJobsBgStatus_eq k.poll rfl
  | false => exact checkJobsBgStatus_eq k.poll rfl

/-- The check before a script leaves all but the jobs alone. -/
theorem startScript_some (k : Kernel) (s : Shell) : ∃ s₀, startScript k s = some s₀ ∧
    s₀.dequesInitialized = true ∧ s₀.running = s.running ∧ s₀.env = s.env ∧ s₀.table = s.table ∧
      s₀.nextPipe = s.nextPipe := by
  obtain ⟨jobs, hstart, -⟩ := startScript_eq k s
  exact ⟨_, hstart, rfl, rfl, rfl, rfl, rfl⟩

/-! ### `kill` and `jobs` -/

theorem killJob_eq (signal jobId : ℤ) (job : Job) (log : List Event) :
    killJob signal jobId job log = some (some job, log ++ killed signal jobId job) := by
  unfold killJob killed
  split
  · have hpid : ∀ pid ∈ job.pids, ∀ log, killPid signal pid log =
        some (some pid, log ++ [Event.kill pid signal]) := fun pid _ log => rfl
    rw [rotate_length, walk_log hpid, List.filterMap_some]
    simp [bind, Option.bind, pure, List.map_eq_flatMap]
  · rw [List.append_nil]

/-- **`run_kill`** leaves the jobs as they are and signals the pids of the one job. -/
theorem runKill_eq (signal jobId : ℤ) {s : Shell} (h : s.dequesInitialized) :
    runKill signal jobId s = some (s.emit (s.backgroundJobs.flatMap (killed signal jobId))) := by
  unfold runKill
  rw [if_pos h, rotate_length, walk_log fun job _ log => killJob_eq signal jobId job log]
  simp only [bind, Option.bind, List.filterMap_some]
  rfl

/-- **`run_jobs`** leaves the jobs as they are and prints a line for each. -/
theorem runJobs_eq {s : Shell} (h : ∀ job ∈ s.backgroundJobs, job.pids ≠ []) :
    runJobs s = some (s.backgroundJobs, if s.dequesInitialized then
      s.backgroundJobs.flatMap fun job => [.job job.jobId (job.pids.headD 0) job.cmdString] else []) := by
  have hprint : ∀ job ∈ s.backgroundJobs, ∀ log, printJob job log =
      some (some job, log ++ [.job job.jobId (job.pids.headD 0) job.cmdString]) := by
    intro job hjob log
    cases hp : job.pids with
    | nil => exact absurd hp (h job hjob)
    | cons pid pids => simp [printJob, hp, bind, Option.bind, pure]
  unfold runJobs
  rw [rotate_length, walk_log hprint, List.filterMap_some, List.nil_append]
  cases s.dequesInitialized with
  | false => rfl
  | true => cases s.backgroundJobs <;> rfl

/-! ### A command in quash -/

/-- What a command signals. -/
def signals (cmd : Command) (jobs : List Job) : List Event :=
  match cmd with
  | .kill signal jobId _ _ => jobs.flatMap (killed signal jobId)
  | _ => []

/-- The environment after a command. -/
def envAfterCommand (a : Answers) (cmd : Command) (env : Str → Option Str) : Str → Option Str :=
  match cmd with
  | .export envVar val => Function.update env envVar (some val)
  | .cd (some _) => if a.chdir then Function.update env "PWD".toList (some a.cwd) else env
  | _ => env

/-- **A command in quash** changes the environment and sends signals, and nothing else. -/
theorem parentRunCommand_eq (a : Answers) (cmd : Command) {s : Shell} (h : s.dequesInitialized) :
    parentRunCommand a cmd s = some { s.emit (signals cmd s.backgroundJobs) with
      env := envAfterCommand a cmd s.env } := by
  have hsame : s = { s.emit [] with env := s.env } := by simp [Shell.emit]
  unfold parentRunCommand signals envAfterCommand
  cases cmd with
  | «export» envVar val => simp [runExport, Shell.setenv, Shell.emit]
  | cd dir =>
    unfold runCd
    cases dir with
    | none => exact congrArg some hsame
    | some dir =>
      simp only
      split
      · simp [Shell.setenv, Shell.emit]
      · exact congrArg some hsame
  | kill signal jobId _ _ => exact runKill_eq signal jobId h
  | generic args => exact congrArg some hsame
  | echo args => exact congrArg some hsame
  | pwd => exact congrArg some hsame
  | jobs => exact congrArg some hsame
  | exit => exact congrArg some hsame

/-- What `create_process` leaves alone before the command. -/
structure SameJobs (s s' : Shell) : Prop where
  init : s'.dequesInitialized = s.dequesInitialized
  jobs : s'.backgroundJobs = s.backgroundJobs
  nextJobId : s'.nextJobId = s.nextJobId
  parsedStr : s'.parsedStr = s.parsedStr
  running : s'.running = s.running

theorem parentTables_same (a : Answers) (holder : CommandHolder) (s : Shell) :
    SameJobs s (parentTables holder (withPipe a holder s)) ∧
      (parentTables holder (withPipe a holder s)).env = s.env ∧
      (parentTables holder (withPipe a holder s)).log = s.log := by
  unfold parentTables withPipe
  cases holder.flags.pipeOut <;> cases holder.flags.pipeIn <;> cases a.pipe <;>
    exact ⟨⟨rfl, rfl, rfl, rfl, rfl⟩, rfl, rfl⟩

/-- **One process.** -/
theorem createProcess_eq (a : Answers) (holder : CommandHolder) {s : Shell}
    (h : s.dequesInitialized) :
    createProcess a holder s =
      some (forkPid a, a.fork.map fun _ => child a holder (withPipe a holder s),
        { (parentTables holder (withPipe a holder s)).emit
            (.fork (forkPid a) :: signals holder.cmd s.backgroundJobs) with
          env := envAfterCommand a holder.cmd s.env }) := by
  obtain ⟨hsame, henv, -⟩ := parentTables_same a holder s
  have hcmd := parentRunCommand_eq a holder.cmd
    (s := (parentTables holder (withPipe a holder s)).emit [.fork (forkPid a)]) (hsame.init.trans h)
  unfold createProcess
  simp only [hcmd, bind, Option.bind, pure]
  simp only [Shell.emit, hsame.jobs, henv, List.append_assoc, List.singleton_append]

/-! ### A script after its check -/

/-- The pids of `n` stages from the stage `i` on. -/
def stagePids (stage : ℕ → Answers) (i n : ℕ) : List ℤ :=
  (List.range' i n).map fun k => forkPid (stage k)

/-- What the stages do to the outside while the jobs are `jobs`. -/
def stageEvents (stage : ℕ → Answers) (jobs : List Job) : ℕ → List CommandHolder → List Event
  | _, [] => []
  | i, holder :: holders =>
    .fork (forkPid (stage i)) :: signals holder.cmd jobs ++ stageEvents stage jobs (i + 1) holders

/-- The environment after the stages. -/
def envAfter (stage : ℕ → Answers) : ℕ → List CommandHolder → (Str → Option Str) → Str → Option Str
  | _, [], env => env
  | i, holder :: holders, env =>
    envAfter stage (i + 1) holders (envAfterCommand (stage i) holder.cmd env)

/-- **The loop over the stages** leaves the jobs as they are. -/
theorem createProcesses_eq (stage : ℕ → Answers) : ∀ (holders : List CommandHolder) (i : ℕ) {s : Shell},
    s.dequesInitialized = true → ∃ news s',
      createProcesses stage i holders s = some (stagePids stage i holders.length, news, s') ∧
      SameJobs s s' ∧ s'.env = envAfter stage i holders s.env ∧
      s'.log = s.log ++ stageEvents stage s.backgroundJobs i holders
  | [], i, s, h => ⟨[], s, rfl, ⟨rfl, rfl, rfl, rfl, rfl⟩, rfl, (List.append_nil _).symm⟩
  | holder :: holders, i, s, h => by
    obtain ⟨hsame, -, hlog⟩ := parentTables_same (stage i) holder s
    obtain ⟨new, s₁, hs₁, hsame₁, henv₁, hlog₁⟩ : ∃ new s₁, createProcess (stage i) holder s =
        some (forkPid (stage i), new, s₁) ∧ SameJobs s s₁ ∧
        s₁.env = envAfterCommand (stage i) holder.cmd s.env ∧
        s₁.log = s.log ++ .fork (forkPid (stage i)) :: signals holder.cmd s.backgroundJobs :=
      ⟨_, _, createProcess_eq (stage i) holder h,
        ⟨hsame.init, hsame.jobs, hsame.nextJobId, hsame.parsedStr, hsame.running⟩, rfl,
        congrArg (· ++ _) hlog⟩
    obtain ⟨news, s', g1, g2, g3, g4⟩ := createProcesses_eq stage holders (i + 1)
      (hsame₁.init.trans h)
    refine ⟨new :: news, s', ?_, ⟨g2.init.trans hsame₁.init, g2.jobs.trans hsame₁.jobs,
      g2.nextJobId.trans hsame₁.nextJobId, g2.parsedStr.trans hsame₁.parsedStr,
      g2.running.trans hsame₁.running⟩, ?_, ?_⟩
    · simp only [createProcesses, hs₁, g1, bind, Option.bind]
      rfl
    · rw [g3, henv₁, envAfter]
    · rw [g4, hlog₁, hsame₁.jobs, stageEvents, List.append_assoc]

/-- The job a script starts. -/
def started (k : Kernel) (holders : List CommandHolder) (s : Shell) : List Job :=
  if !exitAlone holders && isBackground holders then
    [⟨s.nextJobId, stagePids k.stage 0 holders.length, s.parsedStr⟩]
  else []

/-- Neither a poll nor the message of a completed job. -/
def Event.quiet : Event → Bool
  | .poll _ _ => false
  | .jobComplete _ _ _ => false
  | _ => true

theorem quiet_signals (cmd : Command) (jobs : List Job) : ∀ e ∈ signals cmd jobs, Event.quiet e := by
  intro e he
  unfold signals at he
  cases cmd with
  | kill signal jobId _ _ =>
    obtain ⟨job, -, he⟩ := List.mem_flatMap.mp he
    unfold killed at he
    split at he
    · obtain ⟨pid, -, rfl⟩ := List.mem_map.mp he
      rfl
    · cases he
  | _ => cases he

theorem quiet_stageEvents (stage : ℕ → Answers) (jobs : List Job) : ∀ (holders : List CommandHolder)
    (i : ℕ), ∀ e ∈ stageEvents stage jobs i holders, Event.quiet e
  | [], i, e, he => by cases he
  | holder :: holders, i, e, he => by
    rw [stageEvents, List.cons_append, List.mem_cons, List.mem_append] at he
    rcases he with rfl | he | he
    · rfl
    · exact quiet_signals _ _ e he
    · exact quiet_stageEvents stage jobs holders (i + 1) e he

theorem fork_mem_stageEvents (stage : ℕ → Answers) (jobs : List Job) : ∀ (holders : List CommandHolder)
    (i : ℕ), ∀ pid ∈ stagePids stage i holders.length, .fork pid ∈ stageEvents stage jobs i holders
  | [], i, pid, hp => by cases hp
  | holder :: holders, i, pid, hp => by
    rw [stageEvents, List.cons_append, List.mem_cons, List.mem_append]
    rcases List.mem_cons.mp hp with rfl | hp
    · exact .inl rfl
    · exact .inr (.inr (fork_mem_stageEvents stage jobs holders (i + 1) pid hp))

/-- The end of a script whose stages have the given pids. -/
theorem finishScript_eq (holders : List CommandHolder) {pids : List ℤ} (hpids : holders ≠ [] → pids ≠ [])
    (s : Shell) : ∃ s' es, finishScript holders pids s = some s' ∧
      s'.dequesInitialized = s.dequesInitialized ∧
      s'.backgroundJobs = s.backgroundJobs ++
        (if isBackground holders then [⟨s.nextJobId, pids, s.parsedStr⟩] else []) ∧
      s'.nextJobId = s.nextJobId + (if isBackground holders then 1 else 0) ∧
      s'.running = s.running ∧ s'.env = s.env ∧
      s'.log = s.log ++ es ∧ ∀ e ∈ es, Event.quiet e := by
  unfold finishScript
  by_cases hbg : isBackground holders = true
  · obtain ⟨pid, pids, rfl⟩ := List.exists_cons_of_ne_nil (hpids (by rintro rfl; cases hbg))
    simp only [if_pos hbg]
    refine ⟨_, [.jobStart s.nextJobId pid s.parsedStr], rfl, rfl, rfl, rfl, rfl, rfl, rfl,
      fun e he => ?_⟩
    rw [List.mem_singleton.mp he]
    rfl
  · simp only [if_neg hbg]
    refine ⟨_, pids.map .wait, rfl, rfl, (List.append_nil _).symm, (add_zero _).symm, rfl, rfl, rfl,
      fun e he => ?_⟩
    obtain ⟨pid, -, rfl⟩ := List.mem_map.mp he
    rfl

theorem stagePids_ne_nil (stage : ℕ → Answers) {holders : List CommandHolder} (h : holders ≠ []) :
    stagePids stage 0 holders.length ≠ [] := by
  obtain ⟨holder, rest, rfl⟩ := List.exists_cons_of_ne_nil h
  exact List.cons_ne_nil _ _

/-- **A script after its check**: the job it starts comes last, and nothing is polled. -/
theorem bodyScript_eq (k : Kernel) (holders : List CommandHolder) {s : Shell}
    (h : s.dequesInitialized = true) :
    ∃ news s' es, bodyScript k holders s = some (news, s') ∧ s'.dequesInitialized = true ∧
      s'.backgroundJobs = s.backgroundJobs ++ started k holders s ∧
      s'.nextJobId = s.nextJobId + (started k holders s).length ∧ s'.log = s.log ++ es ∧
      (∀ e ∈ es, Event.quiet e) ∧ ∀ job ∈ started k holders s, ∀ pid ∈ job.pids, .fork pid ∈ es := by
  unfold bodyScript started
  by_cases hexit : exitAlone holders = true
  · rw [hexit]
    exact ⟨[], _, [], rfl, h, (List.append_nil _).symm, (add_zero _).symm, (List.append_nil _).symm,
      fun e he => absurd he List.not_mem_nil, fun job hj => absurd hj List.not_mem_nil⟩
  · rw [if_neg hexit]
    obtain ⟨news, s₁, h1, h2, -, h3⟩ := createProcesses_eq k.stage holders 0
      (s := { s with pipeIndex := 0 }) h
    obtain ⟨s', es, g1, g2, g3, g4, -, -, g5, g6⟩ := finishScript_eq holders (stagePids_ne_nil k.stage) s₁
    simp only [h1, g1, bind, Option.bind]
    rw [Bool.not_eq_true] at hexit
    rw [hexit, Bool.not_false, Bool.true_and]
    refine ⟨news, s', stageEvents k.stage s.backgroundJobs 0 holders ++ es, rfl,
      g2.trans (h2.init.trans h), ?_, ?_, ?_, ?_, ?_⟩
    · rw [g3, h2.jobs, h2.nextJobId, h2.parsedStr]
    · rw [g4, h2.nextJobId]
      split <;> rfl
    · rw [g5, h3, List.append_assoc]
    · intro e he
      rcases List.mem_append.mp he with he | he
      · exact quiet_stageEvents _ _ _ _ e he
      · exact g6 e he
    · intro job hjob pid hpid
      split at hjob
      · rw [List.mem_singleton.mp hjob] at hpid
        exact List.mem_append_left _ (fork_mem_stageEvents _ _ _ _ pid hpid)
      · cases hjob

/-- **A script returns**, and stops quash when it is one `exit`. -/
theorem runScript_eq (k : Kernel) (holders : List CommandHolder) (s : Shell) :
    ∃ news s', runScript k holders s = some (news, s') ∧
      s'.running = (s.running && !exitAlone holders) ∧
      (exitAlone holders = false → s'.env = envAfter k.stage 0 holders s.env) := by
  obtain ⟨s₀, hstart, hinit, hrunning, henv, -⟩ := startScript_some k s
  unfold runScript bodyScript
  simp only [hstart, bind, Option.bind]
  by_cases hexit : exitAlone holders = true
  · rw [if_pos hexit, hexit]
    exact ⟨[], _, rfl, (Bool.and_false _).symm, fun hc => by cases hc⟩
  · rw [if_neg hexit]
    obtain ⟨news, s₁, h1, h2, h3, -⟩ := createProcesses_eq k.stage holders 0
      (s := { s₀ with pipeIndex := 0 }) hinit
    obtain ⟨s', es, g1, -, -, -, g2, g3, -⟩ := finishScript_eq holders (stagePids_ne_nil k.stage) s₁
    simp only [h1, g1]
    rw [Bool.not_eq_true] at hexit
    refine ⟨news, s', rfl, ?_, fun _ => ?_⟩
    · rw [g2, h2.running, hexit, Bool.not_false, Bool.and_true, ← hrunning]
    · rw [g3, h3, ← henv]

end Eecs678.Quash.Jobs
