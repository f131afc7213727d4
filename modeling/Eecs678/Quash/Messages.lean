import Eecs678.Quash.JobIds

/-!
# The messages about background jobs

Quash prints a message when a background job starts and one when it is complete, and `jobs` prints a line
for each job. `Prints` are the messages of a script, with the job each is printed for (`prints_cases`), and
`exists_prints` and `exists_prints_child` say that there are no others. `Kept` ties the list to the
scripts that have started its jobs, and `messages_iff` says when every message names a process of its job.
-/

namespace Eecs678.Quash.Messages

open Eecs678.Lib.Descriptors Eecs678.Quash.Commands Eecs678.Quash.Execute Eecs678.Quash.Jobs
open Eecs678.Quash.Background Eecs678.Quash.Forks Eecs678.Quash.JobIds

/-- What a message says: an id, a pid and a command. -/
def Event.message : Event → Option (ℤ × ℤ × Str)
  | .job jobId pid cmd => some (jobId, pid, cmd)
  | .jobStart jobId pid cmd => some (jobId, pid, cmd)
  | .jobComplete jobId pid cmd => some (jobId, pid, cmd)
  | _ => none

/-- **The messages of a script** that is run from `s`, each with the job that it is printed for. -/
inductive Prints (x : Script) (s : Shell) : Job → Event → Prop
  /-- `check_jobs_bg_status` on a job of the list. -/
  | complete {job : Job} {rest : Option Job} {log es : List Event} {jobId pid : ℤ} {cmd : Str}
      (hinit : s.dequesInitialized = true) (hjob : job ∈ s.backgroundJobs)
      (hpoll : pollJob x.kernel.poll job log = some (rest, log ++ es))
      (he : .jobComplete jobId pid cmd ∈ es) : Prints x s job (.jobComplete jobId pid cmd)
  /-- The end of `run_script`, for the job that it puts on the list. -/
  | start {s₀ s₁ s₂ : Shell} {pids : List ℤ} {news : List (Option Child)} {job : Job} {es : List Event}
      {jobId pid : ℤ} {cmd : Str}
      (hstart : startScript x.kernel { s with parsedStr := x.str } = some s₀)
      (hexit : exitAlone x.holders = false)
      (hcreate : createProcesses x.kernel.stage 0 x.holders { s₀ with pipeIndex := 0 } =
        some (pids, news, s₁))
      (hfinish : finishScript x.holders pids s₁ = some s₂)
      (hjob : s₂.backgroundJobs = s₁.backgroundJobs ++ [job]) (hlog : s₂.log = s₁.log ++ es)
      (he : .jobStart jobId pid cmd ∈ es) : Prints x s job (.jobStart jobId pid cmd)
  /-- `run_jobs` in a child: a line for each job of the list, in order. -/
  | line {s₀ s₁ s₂ : Shell} {i n : ℕ} {holder : CommandHolder} {pids : List ℤ}
      {news : List (Option Child)} {p : ℤ} {table : Table Obj} {lines : List Event} {job : Job} {e : Event}
      (hstart : startScript x.kernel { s with parsedStr := x.str } = some s₀)
      (hexit : exitAlone x.holders = false) (hholder : x.holders[i]? = some holder)
      (hbefore : createProcesses x.kernel.stage 0 (x.holders.take i) { s₀ with pipeIndex := 0 } =
        some (pids, news, s₁))
      (hcreate : createProcess (x.kernel.stage i) holder s₁ =
        some (p, some (.running table (some lines)), s₂))
      (hjob : s₁.backgroundJobs[n]? = some job) (he : lines[n]? = some e) : Prints x s job e

/-- The job is the one that the script of the round has started. -/
def Of (q : Round) (job : Job) : Prop :=
  Starts q.script ∧ job.jobId = q.before.shell.nextJobId

/-- **The message names the job**: its id, its command and the pid of a child that was forked for it. -/
def Names (q : Round) (e : Event) : Prop :=
  ∃ pid ∈ q.script.children, Event.message e = some (q.before.shell.nextJobId, pid, q.script.str)

/-- The redirections of a process that can be opened. -/
def Opens (a : Answers) (holder : CommandHolder) : Prop :=
  (holder.flags.redirectIn = true → a.openIn = true) ∧
    (holder.flags.redirectOut = true → a.openOut = true)

/-- A script in which `jobs` runs. -/
def Shows (x : Script) : Prop :=
  ∃ i holder, x.holders[i]? = some holder ∧ holder.cmd = .jobs ∧ (x.kernel.stage i).fork.isSome ∧
    Opens (x.kernel.stage i) holder

/-- **A round in which the messages can name their jobs**: no job is found to be complete, the first
`fork` of a job that is started succeeds, and no `jobs` comes upon a job of which the first pid that
still runs is the `-1` of a failed `fork`. -/
structure Nameable (r : Round) : Prop where
  runs : ∀ job ∈ listed r.before.shell, ∃ pid ∈ job.pids, r.script.kernel.poll pid = 0
  forked : Starts r.script → (r.script.kernel.stage 0).fork.isSome
  shown : Shows r.script → ∀ job ∈ listed r.before.shell,
    job.pids.find? (r.script.kernel.poll · = 0) ≠ some (-1)

variable {x : Script} {s s' : Shell} {news : List (Option Child)} {job : Job} {e : Event}

/-! ### The three kinds of messages -/

/-- **The completion message** has the pid 0. -/
theorem complete_mem_checked {poll : ℤ → ℤ} {jobId pid : ℤ} {cmd : Str} :
    .jobComplete jobId pid cmd ∈ checked poll job ↔ remaining poll job = none ∧
      Event.jobComplete jobId pid cmd = .jobComplete job.jobId 0 job.cmdString := by
  unfold checked polls
  rw [List.mem_append, remaining_eq_none, List.mem_map]
  constructor
  · rintro (⟨p, -, he⟩ | he)
    · cases he
    · split at he
      · next hnil => exact ⟨hnil, List.mem_singleton.mp he⟩
      · cases he
  · rintro ⟨hnil, he⟩
    rw [he, if_pos hnil]
    exact .inr (List.mem_singleton_self _)

/-- A check polls, and reports what is complete. -/
theorem mem_checked {poll : ℤ → ℤ} (h : e ∈ checked poll job) :
    (∃ pid, e = .poll pid (poll pid)) ∨ e = .jobComplete job.jobId 0 job.cmdString := by
  rcases List.mem_append.mp h with h | h
  · obtain ⟨pid, -, rfl⟩ := List.mem_map.mp h
    exact .inl ⟨pid, rfl⟩
  · split at h
    · exact .inr (List.mem_singleton.mp h)
    · cases h

theorem finishScript_background {holders : List CommandHolder} (hbg : isBackground holders = true)
    (pid : ℤ) (pids : List ℤ) (s : Shell) : finishScript holders (pid :: pids) s =
      some { s.emit [.jobStart s.nextJobId pid s.parsedStr] with
        backgroundJobs := s.backgroundJobs ++ [⟨s.nextJobId, pid :: pids, s.parsedStr⟩]
        nextJobId := s.nextJobId + 1 } := by
  unfold finishScript
  rw [if_pos hbg]
  rfl

/-- The line that `jobs` prints for a job. -/
def line (job : Job) : Event := .job job.jobId (job.pids.headD 0) job.cmdString

/-- **The lines of `jobs`.** -/
theorem runJobs_lines (hinit : s.dequesInitialized = true) (hne : ∀ job ∈ s.backgroundJobs, job.pids ≠ []) :
    (runJobs s).map Prod.snd = some (s.backgroundJobs.map line) := by
  rw [runJobs_eq hne, if_pos hinit, List.map_eq_flatMap]
  rfl

theorem redirect_ne_none {granted : Bool} {o : Obj} {target : ℕ} {t : Table Obj} :
    redirect granted o target t ≠ none ↔ granted = true := by
  unfold redirect
  cases granted
  · exact iff_of_false (fun h => h rfl) Bool.false_ne_true
  · exact iff_of_true (Option.some_ne_none _) rfl

theorem childIn_ne_none {a : Answers} {holder : CommandHolder} {t : Table Obj} :
    childIn a holder s t ≠ none ↔ (holder.flags.redirectIn = true → a.openIn = true) := by
  unfold childIn
  split
  · next h => exact redirect_ne_none.trans ⟨fun hg _ => hg, fun hg => hg h⟩
  · next h =>
    refine iff_of_true ?_ fun hc => absurd hc h
    split <;> exact Option.some_ne_none _

theorem childOut_ne_none {a : Answers} {holder : CommandHolder} {t : Table Obj} :
    childOut a holder s t ≠ none ↔ (holder.flags.redirectOut = true → a.openOut = true) := by
  unfold childOut
  split
  · next h => exact redirect_ne_none.trans ⟨fun hg _ => hg, fun hg => hg h⟩
  · next h =>
    refine iff_of_true ?_ fun hc => absurd hc h
    split <;> exact Option.some_ne_none _

/-- A child comes to its command when its redirections can be opened. -/
theorem childTable_ne_none {a : Answers} {holder : CommandHolder} :
    childTable a holder s ≠ none ↔ Opens a holder := by
  unfold childTable Opens
  rw [← childIn_ne_none (s := s) (t := s.table)]
  cases hin : childIn a holder s s.table with
  | none => exact iff_of_false (fun h => h rfl) fun h => h.1 rfl
  | some t =>
    rw [← childOut_ne_none (s := s) (t := t)]
    simp only [bind, Option.bind, ne_eq, reduceCtorEq, not_false_eq_true, true_and]
    cases childOut a holder s t with
    | none => rfl
    | some t' => exact iff_of_true (Option.some_ne_none _) (Option.some_ne_none _)

theorem withPipe_jobs (a : Answers) (holder : CommandHolder) (s : Shell) :
    (withPipe a holder s).backgroundJobs = s.backgroundJobs ∧
      (withPipe a holder s).dequesInitialized = s.dequesInitialized := by
  unfold withPipe
  split <;> exact ⟨rfl, rfl⟩

/-- **What a child prints**: the lines of `jobs`, and nothing for another command. -/
theorem createProcess_lines {a : Answers} {holder : CommandHolder} {p : ℤ} {table : Table Obj}
    {lines : List Event} (hinit : s.dequesInitialized = true)
    (hne : ∀ job ∈ s.backgroundJobs, job.pids ≠ []) {s₂ : Shell}
    (h : createProcess a holder s = some (p, some (.running table (some lines)), s₂)) :
    a.fork.isSome ∧ Opens a holder ∧
      lines = if holder.cmd = .jobs then s.backgroundJobs.map line else [] := by
  obtain ⟨hjobs, hinit'⟩ := withPipe_jobs a holder s
  rw [createProcess_eq a holder hinit] at h
  obtain ⟨-, h⟩ := Prod.mk.inj (Option.some.inj h)
  obtain ⟨hnew, -⟩ := Prod.mk.inj h
  obtain ⟨pid, hfork, hchild⟩ := Option.map_eq_some_iff.mp hnew
  unfold child at hchild
  cases ht : childTable a holder (withPipe a holder s) with
  | none =>
    rw [ht] at hchild
    cases hchild
  | some t =>
    rw [ht] at hchild
    obtain ⟨-, hlines⟩ := Child.running.inj hchild
    refine ⟨by rw [hfork]; rfl, childTable_ne_none.mp (by rw [ht]; exact Option.some_ne_none _), ?_⟩
    unfold childRunCommand at hlines
    split_ifs with hcmd
    · rw [hcmd] at hlines
      simp only at hlines
      rw [runJobs_lines (hinit'.trans hinit) (hjobs ▸ hne), hjobs] at hlines
      exact (Option.some.inj hlines).symm
    · split at hlines
      · next hc => exact absurd hc hcmd
      · exact (Option.some.inj hlines).symm

/-- A child that runs `jobs`. -/
theorem createProcess_jobs {a : Answers} {holder : CommandHolder} (hinit : s.dequesInitialized = true)
    (hne : ∀ job ∈ s.backgroundJobs, job.pids ≠ []) (hcmd : holder.cmd = .jobs) (hfork : a.fork.isSome)
    (hopens : Opens a holder) : ∃ p table s₂, createProcess a holder s =
      some (p, some (.running table (some (s.backgroundJobs.map line))), s₂) := by
  obtain ⟨hjobs, hinit'⟩ := withPipe_jobs a holder s
  obtain ⟨pid, hpid⟩ := Option.isSome_iff_exists.mp hfork
  obtain ⟨t, ht⟩ := Option.ne_none_iff_exists'.mp (childTable_ne_none (s := withPipe a holder s).mpr hopens)
  have hchild : child a holder (withPipe a holder s) =
      .running t (some (s.backgroundJobs.map line)) := by
    unfold child childRunCommand
    rw [ht, hcmd]
    simp only
    rw [runJobs_lines (hinit'.trans hinit) (hjobs ▸ hne), hjobs]
  have hcreate := createProcess_eq a holder hinit
  rw [hpid, Option.map_some, hchild] at hcreate
  exact ⟨_, t, _, hcreate⟩

/-! ### One script -/

theorem mem_afterCheck_iff {job' : Job} : job' ∈ (afterCheck x s).backgroundJobs ↔
    ∃ job ∈ listed s, remaining x.kernel.poll job = some job' := List.mem_filterMap

theorem afterCheck_pids_ne_nil : ∀ job ∈ (afterCheck x s).backgroundJobs, job.pids ≠ [] := by
  intro job' hjob'
  obtain ⟨job, -, hr⟩ := mem_afterCheck_iff.mp hjob'
  unfold remaining at hr
  split at hr
  · cases hr
  · next hne => exact Option.some.inj hr ▸ hne

theorem Shows.exitAlone (h : Shows x) : exitAlone x.holders = false := by
  obtain ⟨i, holder, hholder, hcmd, -⟩ := h
  rw [← Bool.not_eq_true]
  intro hexit
  obtain ⟨holder', hholders, hcmd'⟩ := exitAlone_eq hexit
  rw [hholders, List.getElem?_singleton] at hholder
  split at hholder
  · rw [Option.some.inj hholder, hcmd] at hcmd'
    cases hcmd'
  · cases hholder

/-- The pids of a job that is started begin with what the first `fork` returns. -/
theorem stagePids_cons (stage : ℕ → Answers) {holders : List CommandHolder}
    (hbg : isBackground holders = true) : ∃ pids, stagePids stage 0 holders.length =
      forkPid (stage 0) :: pids := by
  cases holders with
  | nil => cases hbg
  | cons holder holders => exact ⟨_, rfl⟩

/-- What a child of a script prints, and the list that it sees. -/
theorem child_lines {s₀ s₁ s₂ : Shell} {i : ℕ} {holder : CommandHolder} {pids : List ℤ} {p : ℤ}
    {table : Table Obj} {lines : List Event}
    (hstart : startScript x.kernel { s with parsedStr := x.str } = some s₀)
    (hbefore : createProcesses x.kernel.stage 0 (x.holders.take i) { s₀ with pipeIndex := 0 } =
      some (pids, news, s₁))
    (hcreate : createProcess (x.kernel.stage i) holder s₁ =
      some (p, some (.running table (some lines)), s₂)) :
    s₁.backgroundJobs = (afterCheck x s).backgroundJobs ∧ (x.kernel.stage i).fork.isSome ∧
      Opens (x.kernel.stage i) holder ∧
      lines = if holder.cmd = .jobs then (afterCheck x s).backgroundJobs.map line else [] := by
  obtain ⟨-, -, hsame⟩ := stages_spec hstart hbefore
  have hne : ∀ job ∈ s₁.backgroundJobs, job.pids ≠ [] := by
    rw [hsame.jobs]
    exact afterCheck_pids_ne_nil
  have hlines := createProcess_lines hsame.init hne hcreate
  rw [hsame.jobs] at hlines
  exact ⟨hsame.jobs, hlines⟩

/-- The completion message of a job that the check finds done. -/
theorem prints_complete (hjob : job ∈ listed s) (hr : remaining x.kernel.poll job = none) :
    Prints x s job (.jobComplete job.jobId 0 job.cmdString) := by
  obtain ⟨hinit, hmem⟩ := mem_listed hjob
  exact .complete hinit hmem (pollJob_eq x.kernel.poll job []) (complete_mem_checked.mpr ⟨hr, rfl⟩)

/-- The start message of the job that a script starts. -/
theorem prints_start (h : Starts x) :
    Prints x s ⟨s.nextJobId, stagePids x.kernel.stage 0 x.holders.length, x.str⟩
      (.jobStart s.nextJobId (forkPid (x.kernel.stage 0)) x.str) := by
  obtain ⟨news, s₁, hcreate, hsame⟩ := stages_eq x s x.holders
  obtain ⟨pids, hpids⟩ := stagePids_cons x.kernel.stage h.2
  have hfinish := finishScript_background h.2 (forkPid (x.kernel.stage 0)) pids s₁
  rw [← hpids, hsame.nextJobId, hsame.parsedStr] at hfinish
  exact .start (startScript_listed x s) h.1 hcreate hfinish rfl rfl (List.mem_singleton_self _)

/-- The line that `jobs` prints for a job that the check has left in the list. -/
theorem prints_line (h : Shows x) (hjob : job ∈ (afterCheck x s).backgroundJobs) :
    Prints x s job (line job) := by
  obtain ⟨i, holder, hholder, hcmd, hfork, hopens⟩ := id h
  obtain ⟨news, s₁, hbefore, hsame⟩ := stages_eq x s (x.holders.take i)
  have hne : ∀ job ∈ s₁.backgroundJobs, job.pids ≠ [] := by
    rw [hsame.jobs]
    exact afterCheck_pids_ne_nil
  obtain ⟨p, table, s₂, hcreate⟩ := createProcess_jobs hsame.init hne hcmd hfork hopens
  obtain ⟨n, hn⟩ := List.getElem?_of_mem hjob
  rw [← hsame.jobs] at hn
  refine .line (startScript_listed x s) h.exitAlone hholder hbefore hcreate hn ?_
  rw [List.getElem?_map, hn]
  rfl

/-- **The messages of a script** are these three. -/
theorem prints_cases (h : Prints x s job e) :
    (job ∈ listed s ∧ remaining x.kernel.poll job = none ∧
      e = .jobComplete job.jobId 0 job.cmdString) ∨
    (Starts x ∧ job = ⟨s.nextJobId, stagePids x.kernel.stage 0 x.holders.length, x.str⟩ ∧
      e = .jobStart s.nextJobId (forkPid (x.kernel.stage 0)) x.str) ∨
    (Shows x ∧ job ∈ (afterCheck x s).backgroundJobs ∧ e = line job) := by
  cases h with
  | complete hinit hjob hpoll he =>
    rw [pollJob_eq] at hpoll
    obtain ⟨-, hes⟩ := Prod.mk.inj (Option.some.inj hpoll)
    rw [← List.append_cancel_left hes] at he
    refine .inl ⟨?_, complete_mem_checked.mp he⟩
    unfold listed
    rwa [if_pos hinit]
  | @start s₀ s₁ s₂ pids news job es jobId pid cmd hstart hexit hcreate hfinish hjob hlog he =>
    obtain ⟨hstarts, -, rfl⟩ := adds_iff.mp (.add hstart hexit hcreate hfinish hjob)
    obtain ⟨-, rfl, hsame⟩ := stages_spec hstart hcreate
    obtain ⟨pids, hpids⟩ := stagePids_cons x.kernel.stage hstarts.2
    rw [hpids, finishScript_background hstarts.2] at hfinish
    obtain rfl := Option.some.inj hfinish
    rw [← List.append_cancel_left hlog, List.mem_singleton] at he
    refine .inr (.inl ⟨hstarts, rfl, he.trans ?_⟩)
    rw [hsame.nextJobId, hsame.parsedStr]
    rfl
  | @line s₀ s₁ s₂ i n holder pids news p table lines job e hstart hexit hholder hbefore hcreate hjob he =>
    obtain ⟨hjobs, hfork, hopens, hlines⟩ := child_lines hstart hbefore hcreate
    split_ifs at hlines with hcmd
    · rw [hlines, List.getElem?_map, ← hjobs, hjob] at he
      rw [hjobs] at hjob
      exact .inr (.inr ⟨⟨i, holder, hholder, hcmd, hfork, hopens⟩, List.mem_of_getElem? hjob,
        (Option.some.inj he).symm⟩)
    · rw [hlines] at he
      cases he

/-! ### There are no others -/

/-- Where a child comes from. -/
theorem mem_news {stage : ℕ → Answers} {new : Option Child} : ∀ {holders : List CommandHolder} {i : ℕ}
    {s s' : Shell} {pids : List ℤ} {news : List (Option Child)},
    createProcesses stage i holders s = some (pids, news, s') → new ∈ news →
    ∃ k holder pids₁ news₁ s₁ p s₂, holders[k]? = some holder ∧
      createProcesses stage i (holders.take k) s = some (pids₁, news₁, s₁) ∧
      createProcess (stage (i + k)) holder s₁ = some (p, new, s₂)
  | [], i, s, s', pids, news, h, hnew => by
    obtain ⟨-, h⟩ := Prod.mk.inj (Option.some.inj h)
    obtain ⟨rfl, -⟩ := Prod.mk.inj h
    cases hnew
  | holder :: holders, i, s, s', pids, news, h, hnew => by
    rw [createProcesses] at h
    obtain ⟨⟨p, new₁, s₁⟩, hcreate, h⟩ := Option.bind_eq_some_iff.mp h
    obtain ⟨⟨pids₁, news₁, s₂⟩, hrest, h⟩ := Option.bind_eq_some_iff.mp h
    obtain ⟨-, h⟩ := Prod.mk.inj (Option.some.inj h)
    obtain ⟨rfl, -⟩ := Prod.mk.inj h
    rcases List.mem_cons.mp hnew with rfl | hnew
    · exact ⟨0, holder, [], [], s, p, s₁, rfl, rfl, hcreate⟩
    · obtain ⟨k, holder', pids₂, news₂, s₃, p', s₄, hk, hbefore, hcreate'⟩ := mem_news hrest hnew
      refine ⟨k + 1, holder', p :: pids₂, new₁ :: news₂, s₃, p', s₄, hk, ?_, ?_⟩
      · rw [List.take_succ_cons, createProcesses, hcreate]
        simp only [bind, Option.bind, hbefore]
        rfl
      · rwa [Nat.add_assoc, Nat.add_comm 1 k] at hcreate'

/-- **What the children of a script print** is among its messages. -/
theorem exists_prints_child (hs : x.run s = some (news, s')) {table : Table Obj} {lines : List Event}
    (hnew : some (.running table (some lines)) ∈ news) (he : e ∈ lines) : ∃ job, Prints x s job e := by
  rw [run_eq] at hs
  unfold bodyScript at hs
  split at hs
  · obtain ⟨rfl, -⟩ := Prod.mk.inj (Option.some.inj hs)
    cases hnew
  · next hexit =>
    obtain ⟨⟨pids, news₁, s₁⟩, hcreate, hs⟩ := Option.bind_eq_some_iff.mp hs
    obtain ⟨s₂, -, hs⟩ := Option.bind_eq_some_iff.mp hs
    obtain ⟨rfl, -⟩ := Prod.mk.inj (Option.some.inj hs)
    obtain ⟨k, holder, pids₂, news₂, s₃, p, s₄, hk, hbefore, hchild⟩ := mem_news hcreate hnew
    rw [Nat.zero_add] at hchild
    obtain ⟨n, hn⟩ := List.getElem?_of_mem he
    obtain ⟨hjobs, -, -, hlines⟩ := child_lines (startScript_listed x s) hbefore hchild
    split_ifs at hlines with hcmd
    · have hline := hn
      rw [hlines, List.getElem?_map, ← hjobs] at hline
      obtain ⟨job, hjob, -⟩ := Option.map_eq_some_iff.mp hline
      exact ⟨job, .line (startScript_listed x s) (Bool.eq_false_iff.mpr hexit) hk hbefore hchild hjob hn⟩
    · rw [hlines] at he
      cases he

/-- **What quash itself prints** in a script is among its messages. -/
theorem exists_prints (hs : x.run s = some (news, s')) {es : List Event} (hlog : s'.log = s.log ++ es)
    (he : e ∈ es) {m : ℤ × ℤ × Str} (hm : Event.message e = some m) : ∃ job, Prints x s job e := by
  rcases mem_script_log hs hlog he with he | ⟨hexit, he | he⟩
  · obtain ⟨job, hjob, he⟩ := List.mem_flatMap.mp he
    obtain ⟨hinit, hmem⟩ := mem_listed hjob
    rcases mem_checked he with ⟨pid, rfl⟩ | rfl
    · cases hm
    · exact ⟨job, .complete hinit hmem (pollJob_eq x.kernel.poll job []) he⟩
  · rcases mem_stageEvents he with ⟨p, rfl⟩ | ⟨i, holder, -, he⟩
    · cases hm
    · obtain ⟨_, _, _, _, -, _, -, -, _, -, rfl⟩ := mem_signals he
      cases hm
  · unfold endEvents at he
    split at he
    · next hbg =>
      obtain ⟨pids, hpids⟩ := stagePids_cons x.kernel.stage hbg
      rw [hpids, List.mem_singleton] at he
      rw [he]
      exact ⟨_, prints_start ⟨hexit, hbg⟩⟩
    · obtain ⟨p, -, rfl⟩ := List.mem_map.mp he
      cases hm

/-! ### Runs -/

variable {env : Str → Option Str} {rounds : List Round} {t : Session}

theorem children_pos {pid : ℤ} (h : pid ∈ x.children) : 0 < pid := by
  obtain ⟨i, -, hi⟩ := List.mem_filterMap.mp h
  obtain ⟨p, hp, rfl⟩ := Option.map_eq_some_iff.mp hi
  exact Int.natCast_pos.mpr (x.positive i p hp)

/-- **The list is tied to the scripts**: each job is that of one of them, with its command, and its pids
are those of children of the script, or the `-1` of failed forks. -/
def Kept (rounds : List Round) (t : Session) : Prop :=
  ∀ job ∈ t.shell.backgroundJobs, ∃ q ∈ rounds, Of q job ∧ job.cmdString = q.script.str ∧
    ∀ pid ∈ job.pids, pid = -1 ∨ pid ∈ q.script.children

theorem Kept.mono {rounds' : List Round} (h : Kept rounds t) (hsub : rounds ⊆ rounds') :
    Kept rounds' t := by
  intro job hjob
  obtain ⟨q, hq, hrest⟩ := h job hjob
  exact ⟨q, hsub hq, hrest⟩

/-- **A script** keeps the list tied to the scripts. -/
theorem script_kept (h : Kept rounds t) (hs : x.run t.shell = some (news, s')) :
    Kept (rounds ++ [⟨x, t⟩]) ⟨s', t.forked ++ x.job t.shell⟩ := by
  intro job hjob
  rw [(jobs_after hs).1, List.mem_append] at hjob
  rcases hjob with hjob | hjob
  · obtain ⟨old, hold, hr⟩ := mem_afterCheck_iff.mp hjob
    obtain ⟨q, hq, hof, hcmd, hpids⟩ := h old (mem_listed hold).2
    rw [remaining_eq hr]
    exact ⟨q, List.mem_append_left _ hq, hof, hcmd, fun pid hpid => hpids pid (List.mem_of_mem_filter hpid)⟩
  · refine ⟨⟨x, t⟩, List.mem_concat_self, ?_⟩
    have hspec := (started_spec hjob).1
    unfold started at hjob
    split at hjob
    · next hc =>
      rw [Bool.and_eq_true, Bool.not_eq_true'] at hc
      rw [hspec]
      exact ⟨⟨hc, rfl⟩, rfl, fun pid hpid => (mem_stagePids_or hpid).symm.imp And.left And.right⟩
    · cases hjob

/-- **Every run** keeps the list tied to its scripts. -/
theorem run_kept (h : Run env rounds t) : Kept rounds t ∧ ∀ r ∈ rounds, Kept rounds r.before := by
  induction h with
  | start => exact ⟨fun job hjob => absurd hjob List.not_mem_nil, fun r hr => absurd hr List.not_mem_nil⟩
  | script x _ hs ih =>
    refine ⟨script_kept ih.1 hs, fun r hr => ?_⟩
    rcases List.mem_append.mp hr with hr | hr
    · exact (ih.2 r hr).mono (List.subset_append_left _ _)
    · rw [List.mem_singleton.mp hr]
      exact ih.1.mono (List.subset_append_left _ _)

/-- A pid that is not positive is none of a child's. -/
theorem not_names {q : Round} {jobId pid : ℤ} {cmd : Str} (he : Event.message e = some (jobId, pid, cmd))
    (hpid : pid ≤ 0) : ¬ Names q e := by
  rintro ⟨pid', hmem, hm⟩
  rw [he, Option.some.injEq, Prod.mk.injEq, Prod.mk.injEq] at hm
  have := children_pos hmem
  omega

/-- **A round whose messages name their jobs** is one in which they can. -/
theorem nameable_of_names {r : Round} (h : ∀ job e, Prints r.script r.before.shell job e →
    ∃ q, Names q e) : Nameable r := by
  constructor
  case runs =>
    intro job hjob
    by_contra hnone
    push Not at hnone
    obtain ⟨q, hq⟩ := h _ _ (prints_complete hjob (remaining_eq_none_iff.mpr hnone))
    exact not_names rfl le_rfl hq
  case forked =>
    intro hstarts
    obtain ⟨q, hq⟩ := h _ _ (prints_start hstarts)
    by_contra hnone
    have hpid : forkPid (r.script.kernel.stage 0) = -1 := by
      unfold forkPid
      rw [Option.not_isSome_iff_eq_none.mp hnone]
    exact not_names rfl (by omega) hq
  case shown =>
    intro hshows job hjob hfind
    rw [← List.head?_filter] at hfind
    obtain ⟨pids, hpids⟩ := List.head?_eq_some_iff.mp hfind
    have hr : remaining r.script.kernel.poll job =
        some { job with pids := job.pids.filter (r.script.kernel.poll · = 0) } :=
      if_neg (by rw [hpids]; exact List.cons_ne_nil _ _)
    obtain ⟨q, hq⟩ := h _ _ (prints_line hshows (mem_afterCheck_iff.mpr ⟨job, hjob, hr⟩))
    refine not_names rfl ?_ hq
    simp only [hpids, List.headD_cons]
    omega

/-- **A round in which the messages can name their jobs** is one in which they do. -/
theorem names_of_nameable {r : Round} (hr : r ∈ rounds) (hkept : Kept rounds r.before) (h : Nameable r) :
    ∀ job e, Prints r.script r.before.shell job e → ∃ q ∈ rounds, Of q job ∧ Names q e := by
  intro job e hprints
  rcases prints_cases hprints with ⟨hjob, hgone, -⟩ | ⟨hstarts, rfl, rfl⟩ | ⟨hshows, hjob, rfl⟩
  · obtain ⟨pid, hpid, hpoll⟩ := h.runs job hjob
    exact absurd hpoll (remaining_eq_none_iff.mp hgone pid hpid)
  · have hpid : forkPid (r.script.kernel.stage 0) ∈ stagePids r.script.kernel.stage 0
        r.script.holders.length := by
      obtain ⟨pids, hpids⟩ := stagePids_cons r.script.kernel.stage hstarts.2
      rw [hpids]
      exact List.mem_cons_self
    refine ⟨r, hr, ⟨hstarts, rfl⟩, _, ?_, rfl⟩
    rcases mem_stagePids_or hpid with ⟨-, hc⟩ | ⟨hneg, -⟩
    · exact hc
    · obtain ⟨p, hp⟩ := Option.isSome_iff_exists.mp (h.forked hstarts)
      simp only [forkPid, hp] at hneg
      have := Int.natCast_nonneg p
      omega
  · obtain ⟨old, hold, hrem⟩ := mem_afterCheck_iff.mp hjob
    obtain ⟨q, hq, hof, hcmd, hpids⟩ := hkept old (mem_listed hold).2
    obtain ⟨pid, pids, hcons⟩ := List.exists_cons_of_ne_nil (afterCheck_pids_ne_nil job hjob)
    obtain rfl := remaining_eq hrem
    simp only at hcons
    have hne : pid ≠ -1 := by
      rintro rfl
      exact h.shown hshows old hold (by rw [← List.head?_filter, hcons]; rfl)
    have hmem : pid ∈ old.pids.filter (r.script.kernel.poll · = 0) := hcons ▸ List.mem_cons_self
    refine ⟨q, hq, hof, pid, (hpids pid (List.mem_of_mem_filter hmem)).resolve_left hne, ?_⟩
    simp only [line, Event.message, hcons, List.headD_cons, hof.2, hcmd]

/-- A message is for a job that a script of the run has started. -/
theorem exists_of {r : Round} (hr : r ∈ rounds) (hkept : Kept rounds r.before)
    (h : Prints r.script r.before.shell job e) : ∃ q ∈ rounds, Of q job := by
  rcases prints_cases h with ⟨hjob, -, -⟩ | ⟨hstarts, rfl, -⟩ | ⟨-, hjob, -⟩
  · obtain ⟨q, hq, hof, -⟩ := hkept job (mem_listed hjob).2
    exact ⟨q, hq, hof⟩
  · exact ⟨r, hr, hstarts, rfl⟩
  · obtain ⟨old, hold, hrem⟩ := mem_afterCheck_iff.mp hjob
    obtain ⟨q, hq, hof, -⟩ := hkept old (mem_listed hold).2
    rw [remaining_eq hrem]
    exact ⟨q, hq, hof⟩

/-- **When the messages name their jobs.** In a run, every message about a background job carries its id,
its command and the pid of a child that was forked for it if and only if no check finds a job complete,
the first `fork` of every background job succeeds, and `jobs` never comes upon a `-1` as the first pid
that still runs. -/
theorem messages_iff (h : Run env rounds t) :
    (∀ q ∈ rounds, ∀ r ∈ rounds, ∀ job e, Of q job → Prints r.script r.before.shell job e → Names q e) ↔
      ∀ r ∈ rounds, Nameable r := by
  obtain ⟨-, hinj⟩ := job_ids_injective h
  have hkept := (run_kept h).2
  constructor
  · intro hnames r hr
    refine nameable_of_names fun job e hprints => ?_
    obtain ⟨q, hq, hof⟩ := exists_of hr (hkept r hr) hprints
    exact ⟨q, hnames q hq r hr job e hof hprints⟩
  · intro hnameable q hq r hr job e hof hprints
    obtain ⟨q', hq', hof', hnames⟩ := names_of_nameable hr (hkept r hr) (hnameable r hr) job e hprints
    rwa [hinj q hq q' hq' hof.1 hof'.1 (hof.2.symm.trans hof'.2)]

/-! ### Runs that show it -/

/-- `jobs`, while every process runs. -/
def showJobs : Script where
  kernel := ⟨fun _ => 0, fun _ => ⟨true, some 101, true, true, true, []⟩⟩
  holders := [⟨none, none, ⟨false, false, false, false, false, false⟩, .jobs⟩]
  str := "jobs".toList
  positive := fun _ p hp => by
    cases hp
    decide

theorem nameable_firstRound : Nameable firstRound where
  runs := fun _ hjob => absurd hjob List.not_mem_nil
  forked := fun _ => rfl
  shown := fun _ _ hjob => absurd hjob List.not_mem_nil

/-- `sleep &`, then `jobs`. -/
theorem messages_iff_jobs : ∃ rounds t, Run (fun _ => none) rounds t ∧
    (∀ q ∈ rounds, ∀ r ∈ rounds, ∀ job e, Of q job → Prints r.script r.before.shell job e →
      Names q e) ∧
    ∃ r ∈ rounds, ∃ job, Prints r.script r.before.shell job (.job 1 100 "sleep &".toList) := by
  obtain ⟨s₁, t, hrun, hlist, -⟩ := exists_session showJobs
  have hlisted : ∀ job ∈ listed s₁, job = ⟨1, [100], "sleep &".toList⟩ := by
    rw [hlist]
    exact fun job hjob => List.mem_singleton.mp hjob
  have hsecond : Nameable (secondRound showJobs s₁) := by
    constructor
    case runs =>
      intro job hjob
      rw [hlisted job hjob]
      exact ⟨100, List.mem_singleton_self _, rfl⟩
    case forked => exact fun _ => rfl
    case shown =>
      intro _ job hjob hfind
      rw [hlisted job hjob] at hfind
      have hneg : (100 : ℤ) = -1 := Option.some.inj hfind
      omega
  refine ⟨_, t, hrun, (messages_iff hrun).mpr (List.forall_mem_cons.mpr ⟨nameable_firstRound,
    List.forall_mem_singleton.mpr hsecond⟩), secondRound showJobs s₁,
    List.mem_cons_of_mem _ (List.mem_singleton_self _), ⟨1, [100], "sleep &".toList⟩, ?_⟩
  refine prints_line ⟨0, _, rfl, rfl, rfl, nofun, nofun⟩ ?_
  rw [mem_afterCheck_iff]
  exact ⟨_, hlist ▸ List.mem_singleton_self _, rfl⟩

/-- `sleep &`, and a script that finds it complete: the message has the pid 0. -/
theorem messages_iff_complete : ∃ rounds t, Run (fun _ => none) rounds t ∧
    ∃ q ∈ rounds, ∃ r ∈ rounds, ∃ job, Of q job ∧
      Prints r.script r.before.shell job (.jobComplete 1 0 "sleep &".toList) ∧
      ¬ Names q (.jobComplete 1 0 "sleep &".toList) := by
  obtain ⟨s₁, t, hrun, hlist, -⟩ := exists_session (sleep 101 (by decide) 100)
  refine ⟨_, t, hrun, firstRound, List.mem_cons_self, secondRound _ s₁,
    List.mem_cons_of_mem _ (List.mem_singleton_self _), ⟨1, [100], "sleep &".toList⟩, ⟨⟨rfl, rfl⟩, rfl⟩,
    prints_complete (hlist ▸ List.mem_singleton_self _) rfl, not_names rfl le_rfl⟩

end Eecs678.Quash.Messages
