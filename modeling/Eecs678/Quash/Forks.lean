import Eecs678.Quash.Background

/-!
# Failed forks

A `fork` that fails takes the branch of the parent in `create_process`, and the `-1` it returns goes
into the pids of the job. `Run` are the sequences of scripts under any pattern of successful and failed
forks, `Makes` is what a script passes to `waitpid` and `kill`, with the job it is passed for, and
`exists_makes` says that nothing else is passed. `Owned` ties the pids in the list to the children of
their jobs: `script_owned` is one script, `contained` is a run, and `onlyLast` shows that its condition
is needed, so that `contained_iff` says when the failed forks do no harm.
-/

namespace Eecs678.Quash.Forks

open Eecs678.Quash.Commands Eecs678.Quash.Execute Eecs678.Quash.Jobs Eecs678.Quash.Background

/-! ### Scripts, and what they pass -/

/-- A script, and what the kernel answers while it runs: the pid of a child is positive. -/
structure Script where
  kernel : Kernel
  holders : List CommandHolder
  str : Str
  positive : ∀ i pid, (kernel.stage i).fork = some pid → 0 < pid

namespace Script

/-- The pids of the children that are forked for a script. -/
def children (x : Script) : List ℤ :=
  (List.range x.holders.length).filterMap fun i => (x.kernel.stage i).fork.map Int.ofNat

/-- **Every fork of a script succeeds.** A script that is one `exit` does not fork. -/
def Forked (x : Script) : Prop :=
  exitAlone x.holders = true ∨ ∀ i < x.holders.length, (x.kernel.stage i).fork.isSome

/-- `run_script`, after `parse` has set the command string. -/
def run (x : Script) (s : Shell) : Option (List (Option Child) × Shell) :=
  runScript x.kernel x.holders { s with parsedStr := x.str }

/-- The background job that a script starts, if it does, with its children. -/
def job (x : Script) (s : Shell) : List (ℤ × List ℤ) :=
  if !exitAlone x.holders && isBackground x.holders then [(s.nextJobId, x.children)] else []

end Script

/-- A call of `waitpid` or `kill`, with the background job it is made for; `wait` is for the script that
runs. -/
inductive Call
  | poll (jobId pid : ℤ)
  | kill (jobId pid : ℤ)
  | wait (pid : ℤ)

def Call.pid : Call → ℤ
  | .poll _ pid => pid
  | .kill _ pid => pid
  | .wait pid => pid

/-- The pid that is passed to `waitpid` or `kill`. -/
def Event.passed : Event → Option ℤ
  | .poll pid _ => some pid
  | .wait pid => some pid
  | .kill pid _ => some pid
  | _ => none

/-- **The calls of a script** that is run from `s`. -/
inductive Makes (x : Script) (s : Shell) : Call → Prop
  /-- `check_jobs_bg_status` on a job of the list. -/
  | poll {job : Job} {rest : Option Job} {log es : List Event} {pid r : ℤ}
      (hinit : s.dequesInitialized = true) (hjob : job ∈ s.backgroundJobs)
      (hpoll : pollJob x.kernel.poll job log = some (rest, log ++ es)) (he : .poll pid r ∈ es) :
      Makes x s (.poll job.jobId pid)
  /-- `create_process` on a `kill` command, after the processes before it. -/
  | kill {s₀ s₁ s₂ : Shell} {i : ℕ} {holder : CommandHolder} {pids : List ℤ}
      {news : List (Option Child)} {sig jobId p pid : ℤ} {sigStr jobStr : Str} {new : Option Child}
      {es : List Event}
      (hstart : startScript x.kernel { s with parsedStr := x.str } = some s₀)
      (hexit : exitAlone x.holders = false) (hholder : x.holders[i]? = some holder)
      (hcmd : holder.cmd = .kill sig jobId sigStr jobStr)
      (hbefore : createProcesses x.kernel.stage 0 (x.holders.take i) { s₀ with pipeIndex := 0 } =
        some (pids, news, s₁))
      (hcreate : createProcess (x.kernel.stage i) holder s₁ = some (p, new, s₂))
      (hlog : s₂.log = s₁.log ++ es) (he : .kill pid sig ∈ es) : Makes x s (.kill jobId pid)
  /-- The end of `run_script`. -/
  | wait {s₀ s₁ : Shell} {news : List (Option Child)} {es : List Event} {pid : ℤ}
      (hstart : startScript x.kernel { s with parsedStr := x.str } = some s₀)
      (hbody : bodyScript x.kernel x.holders s₀ = some (news, s₁)) (hlog : s₁.log = s₀.log ++ es)
      (he : .wait pid ∈ es) : Makes x s (.wait pid)

/-! ### Runs -/

/-- Quash before a script, with the background jobs there have been and their children. -/
structure Session where
  shell : Shell
  forked : List (ℤ × List ℤ)

/-- A script, and quash before it. -/
structure Round where
  script : Script
  before : Session

/-- **The runs of scripts**, whatever the forks return. -/
inductive Run (env : Str → Option Str) : List Round → Session → Prop
  | start : Run env [] ⟨initialShell env, []⟩
  | script {rounds : List Round} {t : Session} {s' : Shell} {news : List (Option Child)} (x : Script)
      (h : Run env rounds t) (hs : x.run t.shell = some (news, s')) :
      Run env (rounds ++ [⟨x, t⟩]) ⟨s', t.forked ++ x.job t.shell⟩

/-- A child that has been forked for the background job. -/
def Session.ForkedFor (t : Session) (jobId pid : ℤ) : Prop :=
  ∃ pids, (jobId, pids) ∈ t.forked ∧ pid ∈ pids

/-- **The pid is that of a child** of the job that the call is made for. -/
def Round.Proper (r : Round) : Call → Prop
  | .poll jobId pid => 0 < pid ∧ r.before.ForkedFor jobId pid
  | .kill jobId pid => 0 < pid ∧ r.before.ForkedFor jobId pid
  | .wait pid => 0 < pid ∧ pid ∈ r.script.children

/-- **The failed forks stay contained**: a script passes only pids of children. -/
def Round.Contained (r : Round) : Prop :=
  ∀ call, Makes r.script r.before.shell call → r.Proper call

/-- **No fork fails**, but for those of a background job after which no script runs. -/
def OnlyLast (rounds : List Round) : Prop :=
  ∀ ys r zs, rounds = ys ++ r :: zs →
    r.script.Forked ∨ (isBackground r.script.holders = true ∧ zs = [])

/-! ### What a script does -/

variable {x : Script} {s s' : Shell} {news : List (Option Child)}

/-- The jobs that the check at the start of a script goes through. -/
def listed (s : Shell) : List Job := if s.dequesInitialized then s.backgroundJobs else []

theorem mem_listed {job : Job} (h : job ∈ listed s) :
    s.dequesInitialized = true ∧ job ∈ s.backgroundJobs := by
  unfold listed at h
  split at h
  · next hinit => exact ⟨hinit, h⟩
  · cases h

/-- The state after the check at the start of a script. -/
def afterCheck (x : Script) (s : Shell) : Shell :=
  { ({ s with parsedStr := x.str } : Shell).emit ((listed s).flatMap (checked x.kernel.poll)) with
    backgroundJobs := (listed s).filterMap (remaining x.kernel.poll), dequesInitialized := true }

theorem startScript_listed (x : Script) (s : Shell) :
    startScript x.kernel { s with parsedStr := x.str } = some (afterCheck x s) := by
  obtain ⟨jobs, hstart, rfl⟩ := startScript_eq x.kernel { s with parsedStr := x.str }
  exact hstart

theorem run_eq (x : Script) (s : Shell) :
    x.run s = bodyScript x.kernel x.holders (afterCheck x s) := by
  unfold Script.run runScript
  rw [startScript_listed]
  rfl

/-- The processes of a script, some of them or all: what their forks return, and the list as it was. -/
theorem stages_eq (x : Script) (s : Shell) (holders : List CommandHolder) : ∃ news s₁,
    createProcesses x.kernel.stage 0 holders { afterCheck x s with pipeIndex := 0 } =
      some (stagePids x.kernel.stage 0 holders.length, news, s₁) ∧ SameJobs (afterCheck x s) s₁ := by
  obtain ⟨news, s₁, hcreate, hsame, -, -⟩ := createProcesses_eq x.kernel.stage holders 0
    (s := { afterCheck x s with pipeIndex := 0 }) rfl
  exact ⟨news, s₁, hcreate, hsame.init, hsame.jobs, hsame.nextJobId, hsame.parsedStr, hsame.running⟩

theorem stages_spec {holders : List CommandHolder} {s₀ s₁ : Shell} {pids : List ℤ}
    (hstart : startScript x.kernel { s with parsedStr := x.str } = some s₀)
    (hcreate : createProcesses x.kernel.stage 0 holders { s₀ with pipeIndex := 0 } =
      some (pids, news, s₁)) :
    s₀ = afterCheck x s ∧ pids = stagePids x.kernel.stage 0 holders.length ∧
      SameJobs (afterCheck x s) s₁ := by
  obtain rfl := Option.some.inj ((startScript_listed x s).symm.trans hstart)
  obtain ⟨news', s₁', hcreate', hsame⟩ := stages_eq x s holders
  obtain ⟨rfl, h⟩ := Prod.mk.inj (Option.some.inj (hcreate'.symm.trans hcreate))
  obtain ⟨-, rfl⟩ := Prod.mk.inj h
  exact ⟨rfl, rfl, hsame⟩

theorem mem_afterCheck {job' : Job} (h : job' ∈ (afterCheck x s).backgroundJobs) :
    ∃ job ∈ s.backgroundJobs, job'.jobId = job.jobId ∧ ∀ pid ∈ job'.pids, pid ∈ job.pids := by
  obtain ⟨job, hjob, hr⟩ := List.mem_filterMap.mp h
  obtain ⟨hid, hpids⟩ := remaining_spec hr
  refine ⟨job, (mem_listed hjob).2, hid, fun pid hp => ?_⟩
  rw [hpids] at hp
  exact List.mem_of_mem_filter hp

/-- What the end of a script does to the outside. -/
def endEvents (k : Kernel) (holders : List CommandHolder) (s : Shell) : List Event :=
  if isBackground holders then
    [.jobStart s.nextJobId ((stagePids k.stage 0 holders.length).headD 0) s.parsedStr]
  else (stagePids k.stage 0 holders.length).map .wait

theorem exitAlone_eq {holders : List CommandHolder} (h : exitAlone holders = true) :
    ∃ holder, holders = [holder] ∧ holder.cmd = .exit := by
  unfold exitAlone at h
  split at h
  · next holder => exact ⟨holder, rfl, eq_of_beq h⟩
  · cases h

/-- A script that is one `exit` does nothing to the outside. -/
theorem bodyScript_exit {k : Kernel} {holders : List CommandHolder} (hexit : exitAlone holders = true)
    (hs : bodyScript k holders s = some (news, s')) : s'.log = s.log := by
  unfold bodyScript at hs
  rw [if_pos hexit] at hs
  obtain ⟨-, rfl⟩ := Prod.mk.inj (Option.some.inj hs)
  rfl

/-- **The log of a script** after its check. -/
theorem bodyScript_log {k : Kernel} {holders : List CommandHolder} (hinit : s.dequesInitialized = true)
    (hexit : exitAlone holders = false) (hs : bodyScript k holders s = some (news, s')) :
    s'.log = s.log ++ (stageEvents k.stage s.backgroundJobs 0 holders ++ endEvents k holders s) := by
  obtain ⟨news₁, s₁, h1, h2, -, h3⟩ := createProcesses_eq k.stage holders 0
    (s := { s with pipeIndex := 0 }) hinit
  unfold bodyScript at hs
  rw [hexit, if_neg Bool.false_ne_true] at hs
  simp only [h1, bind, Option.bind] at hs
  unfold endEvents
  cases hbg : isBackground holders with
  | false =>
    simp only [finishScript, hbg, Bool.false_eq_true, if_false, pure] at hs ⊢
    obtain ⟨rfl, rfl⟩ := Prod.mk.inj (Option.some.inj hs)
    simp only [Shell.emit, h3, List.append_assoc]
  | true =>
    have hne : stagePids k.stage 0 holders.length ≠ [] :=
      stagePids_ne_nil k.stage (by rintro rfl; cases hbg)
    obtain ⟨pid, pids, hp⟩ := List.exists_cons_of_ne_nil hne
    simp only [finishScript, hbg, if_true, hp, List.head?_cons, List.headD_cons, bind, Option.bind,
      pure] at hs ⊢
    obtain ⟨rfl, rfl⟩ := Prod.mk.inj (Option.some.inj hs)
    simp only [Shell.emit, h3, h2.nextJobId, h2.parsedStr, List.append_assoc]

/-- **The log of one process.** -/
theorem createProcess_log {a : Answers} {holder : CommandHolder} {p : ℤ} {new : Option Child}
    (hinit : s.dequesInitialized = true) (hs : createProcess a holder s = some (p, new, s')) :
    s'.log = s.log ++ .fork (forkPid a) :: signals holder.cmd s.backgroundJobs := by
  rw [createProcess_eq a holder hinit] at hs
  obtain ⟨-, h⟩ := Prod.mk.inj (Option.some.inj hs)
  obtain ⟨-, rfl⟩ := Prod.mk.inj h
  exact congrArg (· ++ _) (parentTables_same a holder s).2.2

/-- The processes fork, and signal what their commands name. -/
theorem mem_stageEvents {stage : ℕ → Answers} {jobs : List Job} {e : Event} :
    ∀ {holders : List CommandHolder} {i : ℕ}, e ∈ stageEvents stage jobs i holders →
      (∃ pid, e = .fork pid) ∨ ∃ (j : ℕ) (holder : CommandHolder),
        holders[j]? = some holder ∧ e ∈ signals holder.cmd jobs
  | [], i, h => absurd h List.not_mem_nil
  | holder :: holders, i, h => by
    rw [stageEvents, List.cons_append, List.mem_cons, List.mem_append] at h
    rcases h with rfl | h | h
    · exact .inl ⟨_, rfl⟩
    · exact .inr ⟨0, holder, rfl, h⟩
    · rcases mem_stageEvents h with hf | ⟨j, holder', hj, hs⟩
      · exact .inl hf
      · exact .inr ⟨j + 1, holder', hj, hs⟩

/-- **The signals of a command** go to the jobs with the id it names. -/
theorem mem_signals {cmd : Command} {jobs : List Job} {e : Event} (h : e ∈ signals cmd jobs) :
    ∃ sig jobId sigStr jobStr, cmd = .kill sig jobId sigStr jobStr ∧
      ∃ job ∈ jobs, job.jobId = jobId ∧ ∃ pid ∈ job.pids, e = .kill pid sig := by
  unfold signals at h
  cases cmd with
  | kill sig jobId sigStr jobStr =>
    obtain ⟨job, hjob, he⟩ := List.mem_flatMap.mp h
    unfold killed at he
    split at he
    · next hid =>
      obtain ⟨pid, hp, rfl⟩ := List.mem_map.mp he
      exact ⟨sig, jobId, sigStr, jobStr, rfl, job, hjob, hid, pid, hp, rfl⟩
    · cases he
  | _ => cases h

theorem mem_stagePids {stage : ℕ → Answers} {n : ℕ} {pid : ℤ} :
    pid ∈ stagePids stage 0 n ↔ ∃ i < n, forkPid (stage i) = pid := by
  unfold stagePids
  rw [← List.range_eq_range', List.mem_map]
  simp only [List.mem_range]

/-! ### Everything that is passed -/

theorem passed_checked {poll : ℤ → ℤ} {job : Job} {e : Event} {pid : ℤ} (h : e ∈ checked poll job)
    (hp : Event.passed e = some pid) : e = .poll pid (poll pid) ∧ pid ∈ job.pids := by
  unfold checked polls at h
  rcases List.mem_append.mp h with h | h
  · obtain ⟨p, hmem, rfl⟩ := List.mem_map.mp h
    cases hp
    exact ⟨rfl, hmem⟩
  · split at h
    · rw [List.mem_singleton.mp h] at hp
      cases hp
    · cases h

/-- At its end a script waits for what its forks have returned, unless it is in the background. -/
theorem passed_endEvents {k : Kernel} {holders : List CommandHolder} {e : Event} {pid : ℤ}
    (h : e ∈ endEvents k holders s) (hp : Event.passed e = some pid) :
    e = .wait pid ∧ isBackground holders = false ∧ pid ∈ stagePids k.stage 0 holders.length := by
  unfold endEvents at h
  split at h
  · rw [List.mem_singleton.mp h] at hp
    cases hp
  · next hbg =>
    obtain ⟨p, hmem, rfl⟩ := List.mem_map.mp h
    cases hp
    exact ⟨rfl, Bool.eq_false_iff.mpr hbg, hmem⟩

/-- The check of a script polls the pids in the list. -/
theorem makes_check {e : Event} {pid : ℤ} (he : e ∈ (listed s).flatMap (checked x.kernel.poll))
    (hp : Event.passed e = some pid) : ∃ jobId, Makes x s (.poll jobId pid) := by
  obtain ⟨job, hjob, he⟩ := List.mem_flatMap.mp he
  obtain ⟨hinit, hmem⟩ := mem_listed hjob
  obtain ⟨rfl, -⟩ := passed_checked he hp
  exact ⟨job.jobId, .poll hinit hmem (pollJob_eq x.kernel.poll job []) he⟩

/-- A `kill` command signals the job that it names. -/
theorem makes_signal {i : ℕ} {holder : CommandHolder} {sig jobId pid : ℤ} {sigStr jobStr : Str}
    (hexit : exitAlone x.holders = false) (hholder : x.holders[i]? = some holder)
    (hcmd : holder.cmd = .kill sig jobId sigStr jobStr)
    (he : .kill pid sig ∈ signals holder.cmd (afterCheck x s).backgroundJobs) :
    Makes x s (.kill jobId pid) := by
  obtain ⟨news, s₁, hbefore, hsame⟩ := stages_eq x s (x.holders.take i)
  have hcreate := createProcess_eq (x.kernel.stage i) holder hsame.init
  rw [← hsame.jobs] at he
  exact .kill (startScript_listed x s) hexit hholder hcmd hbefore hcreate
    (createProcess_log hsame.init hcreate) (List.mem_cons_of_mem _ he)

/-- The processes of a script signal what their commands name. -/
theorem makes_stage {e : Event} {pid : ℤ} (hexit : exitAlone x.holders = false)
    (he : e ∈ stageEvents x.kernel.stage (afterCheck x s).backgroundJobs 0 x.holders)
    (hp : Event.passed e = some pid) : ∃ jobId, Makes x s (.kill jobId pid) := by
  rcases mem_stageEvents he with ⟨p, rfl⟩ | ⟨i, holder, hholder, he⟩
  · cases hp
  · obtain ⟨sig, jobId, sigStr, jobStr, hcmd, -, -, -, p, -, rfl⟩ := mem_signals he
    cases hp
    exact ⟨jobId, makes_signal hexit hholder hcmd he⟩

/-- **What a script adds to the log**: the check, its processes, its end. -/
theorem mem_script_log (hs : x.run s = some (news, s')) {es : List Event} (hlog : s'.log = s.log ++ es)
    {e : Event} (he : e ∈ es) : e ∈ (listed s).flatMap (checked x.kernel.poll) ∨
      (exitAlone x.holders = false ∧
        (e ∈ stageEvents x.kernel.stage (afterCheck x s).backgroundJobs 0 x.holders ∨
          e ∈ endEvents x.kernel x.holders (afterCheck x s))) := by
  rw [run_eq] at hs
  have hcheck : (afterCheck x s).log = s.log ++ (listed s).flatMap (checked x.kernel.poll) := rfl
  cases hexit : exitAlone x.holders with
  | true =>
    have hes := hlog.symm.trans ((bodyScript_exit hexit hs).trans hcheck)
    rw [List.append_cancel_left hes] at he
    exact .inl he
  | false =>
    have hes := hlog.symm.trans (bodyScript_log (s := afterCheck x s) rfl hexit hs)
    rw [hcheck, List.append_assoc] at hes
    rw [List.append_cancel_left hes, List.mem_append, List.mem_append] at he
    exact he.imp_right fun he => ⟨rfl, he⟩

/-- **What a script passes is one of its calls.** -/
theorem exists_makes (hs : x.run s = some (news, s')) {es : List Event} (hlog : s'.log = s.log ++ es)
    {e : Event} (he : e ∈ es) {pid : ℤ} (hp : Event.passed e = some pid) :
    ∃ call, Makes x s call ∧ call.pid = pid := by
  rcases mem_script_log hs hlog he with he | ⟨hexit, he | he⟩
  · obtain ⟨jobId, hm⟩ := makes_check he hp
    exact ⟨_, hm, rfl⟩
  · obtain ⟨jobId, hm⟩ := makes_stage hexit he hp
    exact ⟨_, hm, rfl⟩
  · rw [run_eq] at hs
    have hbody := bodyScript_log (s := afterCheck x s) rfl hexit hs
    rw [(passed_endEvents he hp).1] at he
    exact ⟨_, .wait (startScript_listed x s) hs hbody (List.mem_append_right _ he), rfl⟩

/-! ### The calls -/

/-- A poll is of a pid in the list. -/
theorem poll_of_makes {jobId pid : ℤ} (h : Makes x s (.poll jobId pid)) :
    ∃ job ∈ s.backgroundJobs, job.jobId = jobId ∧ pid ∈ job.pids := by
  cases h with
  | @poll job rest log es pid r hinit hjob hpoll he =>
    rw [pollJob_eq] at hpoll
    obtain ⟨-, hes⟩ := Prod.mk.inj (Option.some.inj hpoll)
    rw [← List.append_cancel_left hes] at he
    exact ⟨job, hjob, rfl, (passed_checked he rfl).2⟩

/-- A signal is to a pid in the list, of the job that the command names. -/
theorem kill_of_makes {jobId pid : ℤ} (h : Makes x s (.kill jobId pid)) :
    ∃ job ∈ s.backgroundJobs, job.jobId = jobId ∧ pid ∈ job.pids := by
  cases h with
  | @kill s₀ s₁ s₂ i holder pids news sig jobId p pid sigStr jobStr new es hstart hexit hholder hcmd
      hbefore hcreate hlog he =>
    obtain ⟨-, -, hsame⟩ := stages_spec hstart hbefore
    rw [createProcess_log hsame.init hcreate] at hlog
    rw [← List.append_cancel_left hlog, List.mem_cons] at he
    rcases he with he | he
    · cases he
    · obtain ⟨sig', jobId', sigStr', jobStr', hcmd', job', hjob', hid, q, hq, he⟩ := mem_signals he
      cases hcmd.symm.trans hcmd'
      cases he
      rw [hsame.jobs] at hjob'
      obtain ⟨job, hjob, hid', hpids⟩ := mem_afterCheck hjob'
      exact ⟨job, hjob, hid'.symm.trans hid, hpids pid hq⟩

/-- A wait is for what a fork of the script has returned. -/
theorem wait_of_makes {pid : ℤ} (h : Makes x s (.wait pid)) :
    exitAlone x.holders = false ∧ isBackground x.holders = false ∧
      pid ∈ stagePids x.kernel.stage 0 x.holders.length := by
  cases h with
  | @wait s₀ s₁ news es pid hstart hbody hlog he =>
    obtain rfl := Option.some.inj ((startScript_listed x s).symm.trans hstart)
    cases hexit : exitAlone x.holders with
    | true =>
      rw [bodyScript_exit hexit hbody, List.self_eq_append_right] at hlog
      rw [hlog] at he
      cases he
    | false =>
      rw [bodyScript_log rfl hexit hbody] at hlog
      rw [← List.append_cancel_left hlog, List.mem_append] at he
      rcases he with he | he
      · rcases mem_stageEvents he with ⟨p, he⟩ | ⟨i, holder, -, he⟩
        · cases he
        · obtain ⟨_, _, _, _, -, _, -, -, _, -, hkill⟩ := mem_signals he
          cases hkill
      · exact ⟨rfl, (passed_endEvents he rfl).2⟩

/-! ### One script -/

/-- What the forks of a script return: a child, or `-1`. -/
theorem mem_stagePids_or {pid : ℤ} (h : pid ∈ stagePids x.kernel.stage 0 x.holders.length) :
    (0 < pid ∧ pid ∈ x.children) ∨
      (pid = -1 ∧ ∃ i < x.holders.length, (x.kernel.stage i).fork.isSome = false) := by
  obtain ⟨i, hi, rfl⟩ := mem_stagePids.mp h
  unfold forkPid
  cases hf : (x.kernel.stage i).fork with
  | none => exact .inr ⟨rfl, i, hi, by rw [hf]; rfl⟩
  | some p =>
    refine .inl ⟨Int.natCast_pos.mpr (x.positive i p hf), List.mem_filterMap.mpr ⟨i, ?_, ?_⟩⟩
    · exact List.mem_range.mpr hi
    · rw [hf]
      rfl

theorem Script.Forked.child {pid : ℤ} (h : x.Forked) (hexit : exitAlone x.holders = false)
    (hpid : pid ∈ stagePids x.kernel.stage 0 x.holders.length) : 0 < pid ∧ pid ∈ x.children := by
  rcases mem_stagePids_or hpid with hc | ⟨-, i, hi, hnone⟩
  · exact hc
  · rcases h with h | h
    · cases h.symm.trans hexit
    · cases (h i hi).symm.trans hnone

/-- **A fork that fails** returns `-1`, and that is kept. -/
theorem failed_mem (h : ¬ x.Forked) :
    exitAlone x.holders = false ∧ -1 ∈ stagePids x.kernel.stage 0 x.holders.length := by
  unfold Script.Forked at h
  push Not at h
  obtain ⟨hexit, i, hi, hnone⟩ := h
  refine ⟨Bool.eq_false_iff.mpr hexit, mem_stagePids.mpr ⟨i, hi, ?_⟩⟩
  unfold forkPid
  cases hf : (x.kernel.stage i).fork with
  | none => rfl
  | some p => exact absurd (by rw [hf]; rfl) hnone

/-- **The pids in the list** are those of children of their jobs. -/
def Owned (t : Session) : Prop :=
  ∀ job ∈ t.shell.backgroundJobs, ∀ pid ∈ job.pids, 0 < pid ∧ t.ForkedFor job.jobId pid

theorem Owned.proper {t : Session} (h : Owned t) {jobId pid : ℤ}
    (hj : ∃ job ∈ t.shell.backgroundJobs, job.jobId = jobId ∧ pid ∈ job.pids) :
    0 < pid ∧ t.ForkedFor jobId pid := by
  obtain ⟨job, hjob, rfl, hp⟩ := hj
  exact h job hjob pid hp

/-- **One script**, when the list is in order, and its forks succeed or nothing waits for them. -/
theorem contained_of_owned {r : Round} (h : Owned r.before)
    (hr : r.script.Forked ∨ isBackground r.script.holders = true) : r.Contained := by
  intro call hcall
  cases call with
  | poll jobId pid => exact h.proper (poll_of_makes hcall)
  | kill jobId pid => exact h.proper (kill_of_makes hcall)
  | wait pid =>
    obtain ⟨hexit, hbg, hpid⟩ := wait_of_makes hcall
    rcases hr with hr | hr
    · exact hr.child hexit hpid
    · cases hbg.symm.trans hr

/-- What a script leaves in the list: what the check has kept, and the job it starts. -/
theorem jobs_after (hs : x.run s = some (news, s')) :
    s'.backgroundJobs = (afterCheck x s).backgroundJobs ++ started x.kernel x.holders (afterCheck x s) ∧
      s'.dequesInitialized = true := by
  rw [run_eq] at hs
  obtain ⟨news₁, s₁, es, h1, h2, h3, -⟩ := bodyScript_eq x.kernel x.holders (s := afterCheck x s) rfl
  rw [hs] at h1
  obtain ⟨-, rfl⟩ := Prod.mk.inj (Option.some.inj h1)
  exact ⟨h3, h2⟩

/-- **A script whose forks succeed** keeps the list in order. -/
theorem script_owned {t : Session} (h : Owned t) (hx : x.Forked)
    (hs : x.run t.shell = some (news, s')) : Owned ⟨s', t.forked ++ x.job t.shell⟩ := by
  intro job hjob pid hp
  rw [(jobs_after hs).1, List.mem_append] at hjob
  rcases hjob with hjob | hjob
  · obtain ⟨old, hold, hid, hpids⟩ := mem_afterCheck hjob
    obtain ⟨hpos, pids, hmem, hpid⟩ := h old hold pid (hpids pid hp)
    exact ⟨hpos, pids, hid ▸ List.mem_append_left _ hmem, hpid⟩
  · unfold started at hjob
    split at hjob
    · next hc =>
      rw [List.mem_singleton.mp hjob] at hp ⊢
      rw [Bool.and_eq_true, Bool.not_eq_true'] at hc
      obtain ⟨hpos, hpid⟩ := hx.child hc.1 hp
      refine ⟨hpos, x.children, List.mem_append_right _ ?_, hpid⟩
      unfold Script.job
      rw [hc.1, hc.2]
      exact List.mem_singleton_self _
    · cases hjob

/-! ### Runs -/

variable {env : Str → Option Str} {rounds : List Round} {t : Session}

theorem onlyLast_concat {r : Round} : OnlyLast (rounds ++ [r]) ↔
    (∀ q ∈ rounds, q.script.Forked) ∧ (r.script.Forked ∨ isBackground r.script.holders = true) := by
  constructor
  · intro h
    refine ⟨fun q hq => ?_, (h rounds r [] rfl).imp_right And.left⟩
    obtain ⟨ys, zs, rfl⟩ := List.append_of_mem hq
    rcases h ys q (zs ++ [r]) (by simp only [List.append_assoc, List.cons_append]) with hf | ⟨-, hnil⟩
    · exact hf
    · cases List.append_eq_nil_iff.mp hnil |>.2
  · rintro ⟨hall, hlast⟩ ys q zs heq
    rcases List.eq_nil_or_concat zs with rfl | ⟨zs, z, rfl⟩
    · obtain ⟨-, hqr⟩ := List.append_inj' heq rfl
      cases hqr
      exact hlast.imp_right fun hbg => ⟨hbg, rfl⟩
    · rw [List.concat_eq_append, ← List.cons_append, ← List.append_assoc] at heq
      obtain ⟨rfl, -⟩ := List.append_inj' heq rfl
      exact .inl (hall q (List.mem_append_right _ List.mem_cons_self))

theorem onlyLast_of_forked (h : ∀ r ∈ rounds, r.script.Forked) : OnlyLast rounds :=
  fun _ r _ heq => .inl (h r (heq ▸ List.mem_append_right _ List.mem_cons_self))

/-- **A run whose forks succeed** keeps the list in order. -/
theorem run_owned (h : Run env rounds t) (hall : ∀ r ∈ rounds, r.script.Forked) : Owned t := by
  induction h with
  | start =>
    intro job hjob
    cases hjob
  | script x _ hs ih =>
    exact script_owned (ih fun r hr => hall r (List.mem_append_left _ hr))
      (hall _ List.mem_concat_self) hs

/-- **The condition is enough.** -/
theorem contained (h : Run env rounds t) (hlast : OnlyLast rounds) : ∀ r ∈ rounds, r.Contained := by
  induction h with
  | start =>
    intro r hr
    cases hr
  | @script rounds t s' news x h hs ih =>
    obtain ⟨hall, hx⟩ := onlyLast_concat.mp hlast
    intro r hr
    rcases List.mem_append.mp hr with hr | hr
    · exact ih (onlyLast_of_forked hall) r hr
    · rw [List.mem_singleton.mp hr]
      exact contained_of_owned (run_owned h hall) hx

theorem Round.Proper.pos {r : Round} {call : Call} (h : r.Proper call) : 0 < call.pid := by
  cases call <;> exact h.1

/-- A fork that fails in the foreground is waited for. -/
theorem makes_wait_failed (h : ¬ x.Forked) (hbg : isBackground x.holders = false) :
    Makes x s (.wait (-1)) := by
  obtain ⟨hexit, hmem⟩ := failed_mem h
  obtain ⟨news, s', es, hbody, -⟩ := bodyScript_eq x.kernel x.holders (s := afterCheck x s) rfl
  have hwait : Event.wait (-1) ∈ endEvents x.kernel x.holders (afterCheck x s) := by
    unfold endEvents
    rw [hbg]
    exact List.mem_map.mpr ⟨-1, hmem, rfl⟩
  exact .wait (startScript_listed x s) hbody (bodyScript_log rfl hexit hbody)
    (List.mem_append_right _ hwait)

/-- A fork that fails in the background leaves its `-1` in the list. -/
theorem failed_listed (h : ¬ x.Forked) (hbg : isBackground x.holders = true)
    (hs : x.run s = some (news, s')) :
    s'.dequesInitialized = true ∧ ∃ job ∈ s'.backgroundJobs, -1 ∈ job.pids := by
  obtain ⟨hexit, hmem⟩ := failed_mem h
  obtain ⟨hjobs, hinit⟩ := jobs_after hs
  refine ⟨hinit, ⟨(afterCheck x s).nextJobId, _, (afterCheck x s).parsedStr⟩, ?_, hmem⟩
  rw [hjobs, started, hexit, hbg]
  exact List.mem_append_right _ List.mem_cons_self

/-- A `-1` in the list is polled by the next script. -/
theorem makes_poll_failed (hinit : s.dequesInitialized = true) {job : Job}
    (hjob : job ∈ s.backgroundJobs) (hpid : -1 ∈ job.pids) : Makes x s (.poll job.jobId (-1)) :=
  .poll hinit hjob (pollJob_eq x.kernel.poll job []) (poll_mem_checked.mpr ⟨hpid, rfl⟩)

/-- A call with `-1` is for no child. -/
theorem not_contained {r : Round} {call : Call} (h : Makes r.script r.before.shell call)
    (hpid : call.pid = -1) : ¬ r.Contained := by
  intro hc
  have := (hc call h).pos
  omega

/-- **The condition is needed**: the `-1` of a failed fork is waited for, or in the list. -/
theorem onlyLast (h : Run env rounds t) (hc : ∀ r ∈ rounds, r.Contained) :
    OnlyLast rounds ∧ ((∀ r ∈ rounds, r.script.Forked) ∨
      (t.shell.dequesInitialized = true ∧ ∃ job ∈ t.shell.backgroundJobs, -1 ∈ job.pids)) := by
  induction h with
  | start =>
    refine ⟨fun ys r zs heq => ?_, .inl fun r hr => absurd hr List.not_mem_nil⟩
    cases ys <;> cases heq
  | @script rounds t s' news x h hs ih =>
    obtain ⟨-, hall | ⟨hinit, job, hjob, hpid⟩⟩ := ih fun r hr => hc r (List.mem_append_left _ hr)
    · rw [onlyLast_concat]
      by_cases hx : x.Forked
      · refine ⟨⟨hall, .inl hx⟩, .inl fun r hr => ?_⟩
        rcases List.mem_append.mp hr with hr | hr
        · exact hall r hr
        · rw [List.mem_singleton.mp hr]
          exact hx
      · cases hbg : isBackground x.holders with
        | false =>
          exact absurd (hc ⟨x, t⟩ List.mem_concat_self) (not_contained (makes_wait_failed hx hbg) rfl)
        | true =>
          exact ⟨⟨hall, .inr rfl⟩, .inr (failed_listed hx hbg hs)⟩
    · exact absurd (hc ⟨x, t⟩ List.mem_concat_self)
        (not_contained (makes_poll_failed hinit hjob hpid) rfl)

/-- **When the failed forks stay contained.** A run passes to `waitpid` and `kill` only pids of children
of the job each call is for if and only if no fork fails, but for those of a background job after which
no script runs. -/
theorem contained_iff (h : Run env rounds t) : (∀ r ∈ rounds, r.Contained) ↔ OnlyLast rounds :=
  ⟨fun hc => (onlyLast h hc).1, contained h⟩

/-! ### Runs that show it -/

/-- A script of one command, in the foreground or not, with the process that is forked for it. -/
def oneCommand (cmd : Command) (background : Bool) (fork : Option ℕ)
    (positive : ∀ pid, fork = some pid → 0 < pid) : Script where
  kernel := ⟨fun _ => 0, fun _ => ⟨true, fork, true, true, true, []⟩⟩
  holders := [⟨none, none, ⟨false, false, false, false, false, background⟩, cmd⟩]
  str := []
  positive := fun _ => positive

/-- `sleep &`, then `kill 9 1`. -/
theorem contained_iff_kill : ∃ rounds t, Run (fun _ => none) rounds t ∧ (∀ r ∈ rounds, r.Contained) ∧
    ∃ r ∈ rounds, Makes r.script r.before.shell (.kill 1 100) := by
  let x₁ := oneCommand (.generic ["sleep".toList]) true (some 100) fun pid hp => by
    cases hp
    decide
  let x₂ := oneCommand (.kill 9 1 "9".toList "1".toList) false (some 101) fun pid hp => by
    cases hp
    decide
  obtain ⟨news₁, s₁, hs₁, -⟩ := runScript_eq x₁.kernel x₁.holders
    { initialShell fun _ => none with parsedStr := x₁.str }
  obtain ⟨news₂, s₂, hs₂, -⟩ := runScript_eq x₂.kernel x₂.holders { s₁ with parsedStr := x₂.str }
  have hrun₁ : Run (fun _ => none) _ _ := .script x₁ .start hs₁
  have hrun₂ : Run (fun _ => none) _ _ := .script x₂ hrun₁ hs₂
  have hforked₁ : x₁.Forked := .inr fun i _ => rfl
  have hforked₂ : x₂.Forked := .inr fun i _ => rfl
  refine ⟨_, _, hrun₂, (contained_iff hrun₂).mpr (onlyLast_concat.mpr ⟨fun r hr => ?_, .inl hforked₂⟩),
    ⟨x₂, s₁, _⟩, List.mem_concat_self, ?_⟩
  · rw [List.mem_singleton.mp hr]
    exact hforked₁
  · obtain ⟨hjobs, hinit⟩ := jobs_after hs₁
    have hlist : (afterCheck x₂ s₁).backgroundJobs = [⟨1, [100], []⟩] := by
      simp only [afterCheck, listed, hinit, hjobs, if_true]
      rfl
    refine makes_signal (i := 0) rfl rfl rfl ?_
    rw [hlist]
    exact List.mem_cons_self

/-- `ls`, and its `fork` fails. -/
def failedLs : Round where
  script := oneCommand (.generic ["ls".toList]) false none fun pid hp => by cases hp
  before := ⟨initialShell fun _ => none, []⟩

/-- There `-1` is waited for. -/
theorem contained_iff_failed : (∃ t, Run (fun _ => none) [failedLs] t) ∧
    Makes failedLs.script failedLs.before.shell (.wait (-1)) ∧ ¬ failedLs.Contained := by
  obtain ⟨news, s', hs, -⟩ := runScript_eq failedLs.script.kernel failedLs.script.holders
    { failedLs.before.shell with parsedStr := failedLs.script.str }
  have hfailed : ¬ failedLs.script.Forked := by
    rintro (hexit | hall)
    · cases hexit
    · cases hall 0 Nat.one_pos
  have hwait : Makes failedLs.script failedLs.before.shell (.wait (-1)) :=
    makes_wait_failed hfailed rfl
  exact ⟨⟨_, .script failedLs.script .start hs⟩, hwait, not_contained hwait rfl⟩

end Eecs678.Quash.Forks
