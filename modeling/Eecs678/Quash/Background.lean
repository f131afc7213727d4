import Mathlib.Data.List.Pairwise
import Mathlib.Data.List.Nodup
import Eecs678.Quash.Jobs

/-!
# The background jobs over whole runs

`Reach` are the runs of scripts, each with its check and the rest, together with the jobs that were
started on the way. `Inv` ties the job list to the log: a job is there as long as one of its pids has
not been polled with a result other than 0 since it was started (`present`). `check_inv` and `body_inv`
are the two halves of a script, `reach_inv` is a run, `background_jobs` what holds of it.
-/

namespace Eecs678.Quash.Background

open Eecs678.Quash.Commands Eecs678.Quash.Execute Eecs678.Quash.Jobs

/-! ### What the log says -/

/-- `waitpid` has returned something else than 0 for the pid. -/
def ended (log : List Event) (pid : ℤ) : Bool :=
  log.any fun e => match e with
    | .poll p r => p == pid && r != 0
    | _ => false

/-- A background job as it was started, and how much had happened until then. -/
structure Start where
  job : Job
  pos : ℕ

/-- The pids of a started job that still run. -/
def running (log : List Event) (x : Start) : List ℤ :=
  x.job.pids.filter fun pid => !ended (log.drop x.pos) pid

/-- **A started job as it is in the list**, if one of its pids still runs. -/
def present (log : List Event) (x : Start) : Option Job :=
  if running log x = [] then none else some { x.job with pids := running log x }

/-- Whether the process with this pid is known to have ended, after one more event: a `fork` gives the
number to a new process. -/
def deadAfter (pid : ℤ) (dead : Bool) : Event → Bool
  | .fork p => if p = pid then false else dead
  | .poll p r => if p = pid ∧ r ≠ 0 then true else dead
  | _ => dead

def dead (pid : ℤ) (log : List Event) : Bool := log.foldl (deadAfter pid) false

/-- **No process is polled after it is known to have ended.** -/
def Polled (log : List Event) : Prop :=
  ∀ l₁ pid r l₂, log = l₁ ++ .poll pid r :: l₂ → dead pid l₁ = false

/-- The completion message of a job. -/
def completes (jobId : ℤ) : Event → Bool
  | .jobComplete id _ _ => id == jobId
  | _ => false

/-! ### Runs -/

/-- `fork` succeeds for `n` stages, with pids that no process quash has still to wait for has. -/
structure Forked (stage : ℕ → Answers) (n : ℕ) (s : Shell) : Prop where
  success : ∀ i < n, (stage i).fork.isSome
  nodup : (stagePids stage 0 n).Nodup
  unused : ∀ pid ∈ stagePids stage 0 n, ∀ job ∈ s.backgroundJobs, pid ∉ job.pids

/-- **The runs of scripts**, with the background jobs they have started: the check at the start of a
script, with any command string, and the rest of it. -/
inductive Reach : List Start → Shell → Prop
  | start (env : Str → Option Str) : Reach [] (initialShell env)
  | check {js : List Start} {s s' : Shell} (k : Kernel) (str : Str) (h : Reach js s)
      (hs : startScript k { s with parsedStr := str } = some s') : Reach js s'
  | body {js : List Start} {s s' : Shell} {news : List (Option Child)} (k : Kernel)
      (holders : List CommandHolder) (h : Reach js s) (hinit : s.dequesInitialized = true)
      (hfork : Forked k.stage holders.length s) (hs : bodyScript k holders s = some (news, s')) :
      Reach (js ++ (started k holders s).map fun job => ⟨job, s'.log.length⟩) s'

/-! ### Lemmas about logs -/

theorem ended_append (l es : List Event) (pid : ℤ) :
    ended (l ++ es) pid = (ended l pid || ended es pid) := List.any_append

theorem ended_eq_true {log : List Event} {pid : ℤ} :
    ended log pid = true ↔ ∃ r, r ≠ 0 ∧ Event.poll pid r ∈ log := by
  unfold ended
  rw [List.any_eq_true]
  constructor
  · rintro ⟨e, he, hp⟩
    cases e with
    | poll p r =>
      simp only [Bool.and_eq_true, beq_iff_eq, bne_iff_ne, ne_eq] at hp
      exact ⟨r, hp.2, hp.1 ▸ he⟩
    | _ => cases hp
  · rintro ⟨r, hr, he⟩
    refine ⟨_, he, ?_⟩
    simp only [beq_self_eq_true, Bool.true_and, bne_iff_ne, ne_eq, hr, not_false_eq_true]

theorem ended_quiet {es : List Event} (h : ∀ e ∈ es, Event.quiet e) (pid : ℤ) :
    ended es pid = false := by
  rw [← Bool.not_eq_true, ended_eq_true]
  rintro ⟨r, -, he⟩
  cases h _ he

theorem dead_append (pid : ℤ) (l es : List Event) :
    dead pid (l ++ es) = es.foldl (deadAfter pid) (dead pid l) := List.foldl_append

/-- A process that runs still runs when no poll says otherwise. -/
theorem foldl_deadAfter {pid : ℤ} : ∀ {es : List Event}, (∀ r, Event.poll pid r ∈ es → r = 0) →
    es.foldl (deadAfter pid) false = false
  | [], _ => rfl
  | e :: es, h => by
    have he : deadAfter pid false e = false := by
      cases e with
      | fork p => simp only [deadAfter, ite_self]
      | poll p r =>
        refine if_neg ?_
        rintro ⟨rfl, hr⟩
        exact hr (h r List.mem_cons_self)
      | _ => rfl
    rw [List.foldl_cons, he]
    exact foldl_deadAfter fun r hr => h r (List.mem_cons_of_mem _ hr)

theorem dead_of_append {pid : ℤ} {l es : List Event} (h : dead pid l = false)
    (hes : ∀ r, Event.poll pid r ∈ es → r = 0) : dead pid (l ++ es) = false := by
  rw [dead_append, h]
  exact foldl_deadAfter hes

/-- A new process runs. -/
theorem dead_of_fork {pid : ℤ} {l es : List Event} (h : Event.fork pid ∈ es)
    (hes : ∀ r, Event.poll pid r ∈ es → r = 0) : dead pid (l ++ es) = false := by
  obtain ⟨es₁, es₂, rfl⟩ := List.append_of_mem h
  rw [dead_append, List.foldl_append, List.foldl_cons]
  simp only [deadAfter, if_true]
  exact foldl_deadAfter fun r hr => hes r (List.mem_append_right _ (List.mem_cons_of_mem _ hr))

/-- The pids that are polled, in order. -/
def polledPids (es : List Event) : List ℤ :=
  es.filterMap fun e => match e with
    | .poll p _ => some p
    | _ => none

theorem mem_polledPids {es : List Event} {pid r : ℤ} (h : Event.poll pid r ∈ es) :
    pid ∈ polledPids es := List.mem_filterMap.mpr ⟨_, h, rfl⟩

/-- Each running process may be polled once more. -/
theorem Polled.append {l es : List Event} (h : Polled l) (hnd : (polledPids es).Nodup)
    (halive : ∀ pid ∈ polledPids es, dead pid l = false) : Polled (l ++ es) := by
  intro l₁ pid r l₂ heq
  rcases List.append_eq_append_iff.mp heq with ⟨as, rfl, hes⟩ | ⟨bs, hl, hbs⟩
  · -- the poll is one of the new ones, the first of this pid
    have hmem : Event.poll pid r ∈ es := hes ▸ List.mem_append_right _ List.mem_cons_self
    refine dead_of_append (halive pid (mem_polledPids hmem)) fun r' hr' => ?_
    rw [hes, polledPids, List.filterMap_append, List.nodup_append] at hnd
    exact absurd rfl (hnd.2.2 pid (mem_polledPids hr') pid (mem_polledPids List.mem_cons_self))
  · cases bs with
    | nil =>
      rw [List.append_nil] at hl
      rw [List.nil_append] at hbs
      have hmem : Event.poll pid r ∈ es := hbs ▸ List.mem_cons_self
      rw [← hl]
      exact halive pid (mem_polledPids hmem)
    | cons b bs =>
      obtain ⟨rfl, -⟩ := List.cons.inj hbs
      exact h l₁ pid r bs hl

/-! ### Lemmas about one check -/

theorem poll_mem_checked {poll : ℤ → ℤ} {job : Job} {pid r : ℤ} :
    Event.poll pid r ∈ checked poll job ↔ pid ∈ job.pids ∧ r = poll pid := by
  unfold checked polls
  rw [List.mem_append, List.mem_map]
  constructor
  · rintro (⟨p, hp, he⟩ | he)
    · cases he
      exact ⟨hp, rfl⟩
    · split at he
      · cases List.mem_singleton.mp he
      · cases he
  · rintro ⟨hp, rfl⟩
    exact .inl ⟨pid, hp, rfl⟩

theorem polledPids_checked (poll : ℤ → ℤ) (job : Job) : polledPids (checked poll job) = job.pids := by
  have hpolls : polledPids (polls poll job.pids) = job.pids := by
    unfold polledPids polls
    rw [List.filterMap_map]
    exact List.filterMap_some
  unfold checked
  rw [polledPids, List.filterMap_append, ← polledPids, hpolls]
  split <;> exact List.append_nil _

theorem polledPids_flatMap (poll : ℤ → ℤ) : ∀ jobs : List Job,
    polledPids (jobs.flatMap (checked poll)) = jobs.flatMap Job.pids
  | [] => rfl
  | job :: jobs => by
    rw [List.flatMap_cons, List.flatMap_cons, ← polledPids_flatMap poll jobs,
      ← polledPids_checked poll job]
    exact List.filterMap_append

theorem remaining_eq_none {poll : ℤ → ℤ} {job : Job} :
    remaining poll job = none ↔ job.pids.filter (poll · = 0) = [] := by
  unfold remaining
  split
  · next h => exact iff_of_true rfl h
  · next h => exact iff_of_false (Option.some_ne_none _) h

/-- A job is gone when no pid of it still runs. -/
theorem remaining_eq_none_iff {poll : ℤ → ℤ} {job : Job} :
    remaining poll job = none ↔ ∀ pid ∈ job.pids, poll pid ≠ 0 := by
  rw [remaining_eq_none, List.filter_eq_nil_iff]
  simp only [decide_eq_true_eq, ne_eq]

/-- A job is complete when it does not remain. -/
theorem completes_checked (poll : ℤ → ℤ) (jobId : ℤ) (job : Job) :
    (checked poll job).countP (completes jobId) =
      if job.jobId = jobId ∧ remaining poll job = none then 1 else 0 := by
  have hpolls : (polls poll job.pids).countP (completes jobId) = 0 := by
    rw [List.countP_eq_zero]
    intro e he
    obtain ⟨pid, -, rfl⟩ := List.mem_map.mp he
    exact Bool.false_ne_true
  unfold checked
  simp only [List.countP_append, hpolls, Nat.zero_add, remaining_eq_none]
  by_cases hend : job.pids.filter (poll · = 0) = []
  · rw [if_pos hend, List.countP_singleton]
    simp only [completes, beq_iff_eq, hend, and_true]
  · rw [if_neg hend, if_neg fun hc => hend hc.2, List.countP_nil]

theorem completes_flatMap_none (poll : ℤ → ℤ) (jobId : ℤ) : ∀ {jobs : List Job},
    (∀ job ∈ jobs, job.jobId ≠ jobId) → (jobs.flatMap (checked poll)).countP (completes jobId) = 0
  | [], _ => rfl
  | job :: jobs, h => by
    rw [List.flatMap_cons, List.countP_append, completes_checked,
      if_neg fun hc => h job List.mem_cons_self hc.1, Nat.zero_add]
    exact completes_flatMap_none poll jobId fun j hj => h j (List.mem_cons_of_mem _ hj)

/-- **The message of one job in one check**, when the ids are different. -/
theorem completes_flatMap (poll : ℤ → ℤ) : ∀ {jobs : List Job} {job : Job},
    (jobs.map Job.jobId).Nodup → job ∈ jobs →
    (jobs.flatMap (checked poll)).countP (completes job.jobId) =
      if remaining poll job = none then 1 else 0
  | [], job, _, h => absurd h List.not_mem_nil
  | j :: jobs, job, hnd, h => by
    rw [List.map_cons, List.nodup_cons] at hnd
    rw [List.flatMap_cons, List.countP_append, completes_checked]
    rcases List.mem_cons.mp h with rfl | h
    · rw [completes_flatMap_none poll _ fun k hk he => hnd.1 (List.mem_map.mpr ⟨k, hk, he⟩)]
      simp only [true_and, Nat.add_zero]
    · have hne : j.jobId ≠ job.jobId := fun he => hnd.1 (List.mem_map.mpr ⟨job, h, he.symm⟩)
      rw [if_neg fun hc => hne hc.1, Nat.zero_add]
      exact completes_flatMap poll hnd.2 h

/-! ### The invariant -/

structure Inv (js : List Start) (s : Shell) : Prop where
  init : s.dequesInitialized = false → s.backgroundJobs = []
  table : s.backgroundJobs = js.filterMap (present s.log)
  ids : (js.map fun x => x.job.jobId).Pairwise (· < ·)
  next : ∀ x ∈ js, x.job.jobId < s.nextJobId
  pos : ∀ x ∈ js, x.pos ≤ s.log.length
  nodup : (s.backgroundJobs.flatMap Job.pids).Nodup
  alive : ∀ job ∈ s.backgroundJobs, ∀ pid ∈ job.pids, dead pid s.log = false
  polled : Polled s.log
  complete : ∀ x ∈ js, s.log.countP (completes x.job.jobId) =
    if present s.log x = none then 1 else 0
  unused : ∀ id, s.nextJobId ≤ id → s.log.countP (completes id) = 0

theorem present_jobId {log : List Event} {x : Start} {job : Job} (h : present log x = some job) :
    job.jobId = x.job.jobId := by
  unfold present at h
  split at h
  · cases h
  · cases h
    rfl

/-- The ids in the list are among those that were given, in the same order. -/
theorem map_present_sublist (log : List Event) : ∀ js : List Start,
    ((js.filterMap (present log)).map Job.jobId).Sublist (js.map fun x => x.job.jobId)
  | [] => List.Sublist.slnil
  | x :: js => by
    have ih := map_present_sublist log js
    rw [List.filterMap_cons]
    cases hx : present log x with
    | none => exact ih.cons _
    | some job =>
      simp only [List.map_cons]
      rw [present_jobId hx]
      exact ih.cons_cons _

theorem Inv.sorted {js : List Start} {s : Shell} (h : Inv js s) :
    (s.backgroundJobs.map Job.jobId).Pairwise (· < ·) := by
  rw [h.table]
  exact h.ids.sublist (map_present_sublist s.log js)

theorem Inv.ids_nodup {js : List Start} {s : Shell} (h : Inv js s) :
    (s.backgroundJobs.map Job.jobId).Nodup := h.sorted.imp fun hlt => hlt.ne

theorem Inv.jobId_lt {js : List Start} {s : Shell} (h : Inv js s) {job : Job}
    (hj : job ∈ s.backgroundJobs) : job.jobId < s.nextJobId := by
  rw [h.table] at hj
  obtain ⟨x, hx, hp⟩ := List.mem_filterMap.mp hj
  rw [present_jobId hp]
  exact h.next x hx

/-- A job in the list has a pid that still runs. -/
theorem Inv.pids_ne_nil {js : List Start} {s : Shell} (h : Inv js s) :
    ∀ job ∈ s.backgroundJobs, job.pids ≠ [] := by
  intro job hj
  rw [h.table] at hj
  obtain ⟨x, -, hp⟩ := List.mem_filterMap.mp hj
  unfold present at hp
  split at hp
  · cases hp
  · next hne =>
    cases hp
    exact hne

/-! ### The check -/

theorem running_append {log : List Event} {x : Start} (es : List Event) (hpos : x.pos ≤ log.length) :
    running (log ++ es) x = (running log x).filter fun pid => !ended es pid := by
  unfold running
  rw [List.filter_filter, List.drop_append_of_le_length hpos]
  congr 1
  funext pid
  rw [ended_append, Bool.not_or, Bool.and_comm]

theorem present_quiet {log es : List Event} {x : Start} (hpos : x.pos ≤ log.length)
    (hes : ∀ e ∈ es, Event.quiet e) : present (log ++ es) x = present log x := by
  have hrun : running (log ++ es) x = running log x := by
    rw [running_append es hpos]
    exact List.filter_eq_self.mpr fun pid _ => by rw [ended_quiet hes, Bool.not_false]
  unfold present
  rw [hrun]

/-- **What a check finds** of a started job. -/
theorem present_check {js : List Start} {s : Shell} (h : Inv js s) (poll : ℤ → ℤ) {x : Start}
    (hx : x ∈ js) : present (s.log ++ s.backgroundJobs.flatMap (checked poll)) x =
      (present s.log x).bind (remaining poll) := by
  have hrun := running_append (s.backgroundJobs.flatMap (checked poll)) (h.pos x hx)
  by_cases hnil : running s.log x = []
  · have hold : present s.log x = none := if_pos hnil
    rw [hnil, List.filter_nil] at hrun
    rw [hold]
    exact if_pos hrun
  · have hold : present s.log x = some { x.job with pids := running s.log x } := if_neg hnil
    have hmem : { x.job with pids := running s.log x } ∈ s.backgroundJobs := by
      rw [h.table]
      exact List.mem_filterMap.mpr ⟨x, hx, hold⟩
    -- the pids of the job are polled in this check, each with its result
    have hended : ∀ pid ∈ running s.log x,
        (!ended (s.backgroundJobs.flatMap (checked poll)) pid) = decide (poll pid = 0) := by
      intro pid hpid
      by_cases hz : poll pid = 0
      · rw [decide_eq_true hz, Bool.not_eq_true', ← Bool.not_eq_true, ended_eq_true]
        rintro ⟨r, hr, he⟩
        obtain ⟨job, -, he⟩ := List.mem_flatMap.mp he
        exact hr ((poll_mem_checked.mp he).2.trans hz)
      · rw [decide_eq_false hz, Bool.not_eq_false', ended_eq_true]
        exact ⟨poll pid, hz, List.mem_flatMap.mpr ⟨_, hmem, poll_mem_checked.mpr ⟨hpid, rfl⟩⟩⟩
    rw [List.filter_congr hended] at hrun
    rw [hold]
    unfold present remaining
    rw [hrun]
    rfl

theorem filterMap_present_check {js : List Start} {s : Shell} (h : Inv js s) (poll : ℤ → ℤ) :
    s.backgroundJobs.filterMap (remaining poll) =
      js.filterMap (present (s.log ++ s.backgroundJobs.flatMap (checked poll))) := by
  rw [List.filterMap_congr fun x hx => present_check h poll hx, ← List.filterMap_filterMap, ← h.table]

theorem remaining_eq {poll : ℤ → ℤ} {job job' : Job} (h : remaining poll job = some job') :
    job' = { job with pids := job.pids.filter (poll · = 0) } := by
  unfold remaining at h
  split at h
  · cases h
  · exact (Option.some.inj h).symm

theorem remaining_spec {poll : ℤ → ℤ} {job job' : Job} (h : remaining poll job = some job') :
    job'.jobId = job.jobId ∧ job'.pids = job.pids.filter (poll · = 0) := by
  rw [remaining_eq h]
  exact ⟨rfl, rfl⟩

theorem remaining_sublist (poll : ℤ → ℤ) : ∀ jobs : List Job,
    ((jobs.filterMap (remaining poll)).flatMap Job.pids).Sublist (jobs.flatMap Job.pids)
  | [] => List.Sublist.slnil
  | job :: jobs => by
    have ih := remaining_sublist poll jobs
    rw [List.filterMap_cons, List.flatMap_cons]
    cases hr : remaining poll job with
    | none => exact ih.trans (List.sublist_append_right _ _)
    | some job' =>
      simp only [List.flatMap_cons, (remaining_spec hr).2]
      exact List.filter_sublist.append ih

/-- **A check reports a job once**: when it was still there, and the check finds it gone. -/
theorem complete_check {js : List Start} {s : Shell} (h : Inv js s) (poll : ℤ → ℤ) {x : Start}
    (hx : x ∈ js) :
    (s.log ++ s.backgroundJobs.flatMap (checked poll)).countP (completes x.job.jobId) =
      if present (s.log ++ s.backgroundJobs.flatMap (checked poll)) x = none then 1 else 0 := by
  rw [List.countP_append, h.complete x hx, present_check h poll hx]
  cases hp : present s.log x with
  | none =>
    -- the job is gone already, and no other job has its id
    rw [completes_flatMap_none]
    · rfl
    · intro job hj he
      rw [h.table] at hj
      obtain ⟨y, hy, hpy⟩ := List.mem_filterMap.mp hj
      rw [present_jobId hpy] at he
      have hxy : y = x := List.inj_on_of_nodup_map (h.ids.imp fun hlt => hlt.ne) hy hx he
      rw [hxy, hp] at hpy
      cases hpy
  | some job =>
    have hmem : job ∈ s.backgroundJobs := by
      rw [h.table]
      exact List.mem_filterMap.mpr ⟨x, hx, hp⟩
    rw [← present_jobId hp, completes_flatMap poll h.ids_nodup hmem,
      if_neg (Option.some_ne_none _), Nat.zero_add]
    rfl

/-- **A check** polls each pid of each job in the list, and leaves the jobs of which one still runs. -/
theorem Inv.check_eq {js : List Start} {s : Shell} (h : Inv js s) (k : Kernel) :
    ∃ s', startScript k s = some s' ∧ s'.dequesInitialized = true ∧
      s'.backgroundJobs = s.backgroundJobs.filterMap (remaining k.poll) ∧
      s'.nextJobId = s.nextJobId ∧ s'.log = s.log ++ s.backgroundJobs.flatMap (checked k.poll) := by
  obtain ⟨jobs, hstart, hjobs⟩ := startScript_eq k s
  have hjobs' : jobs = s.backgroundJobs := by
    cases hi : s.dequesInitialized with
    | true => rw [hjobs, if_pos hi]
    | false => rw [hjobs, hi, h.init hi]; rfl
  rw [hjobs'] at hstart
  exact ⟨_, hstart, rfl, rfl, rfl, rfl⟩

/-- **The check keeps the invariant.** -/
theorem check_inv {js : List Start} {s s' : Shell} {k : Kernel} (h : Inv js s)
    (hs : startScript k s = some s') : Inv js s' := by
  obtain ⟨s₁, hs₁, hinit, hbg, hid, hlog⟩ := h.check_eq k
  obtain rfl : s' = s₁ := Option.some.inj (hs.symm.trans hs₁)
  have hpoll : ∀ pid ∈ polledPids (s.backgroundJobs.flatMap (checked k.poll)),
      dead pid s.log = false := by
    intro pid hp
    rw [polledPids_flatMap] at hp
    obtain ⟨job, hj, hp⟩ := List.mem_flatMap.mp hp
    exact h.alive job hj pid hp
  constructor
  case init =>
    intro hi
    rw [hinit] at hi
    cases hi
  case table =>
    rw [hbg, hlog]
    exact filterMap_present_check h k.poll
  case ids => exact h.ids
  case next =>
    rw [hid]
    exact h.next
  case pos =>
    intro x hx
    have := h.pos x hx
    rw [hlog, List.length_append]
    omega
  case nodup =>
    rw [hbg]
    exact h.nodup.sublist (remaining_sublist k.poll _)
  case alive =>
    intro job' hj' pid hp
    rw [hbg] at hj'
    obtain ⟨job, hj, hr⟩ := List.mem_filterMap.mp hj'
    rw [(remaining_spec hr).2, List.mem_filter, decide_eq_true_iff] at hp
    rw [hlog]
    refine dead_of_append (h.alive job hj pid hp.1) fun r he => ?_
    obtain ⟨j, -, he⟩ := List.mem_flatMap.mp he
    exact (poll_mem_checked.mp he).2.trans hp.2
  case polled =>
    rw [hlog]
    refine h.polled.append ?_ hpoll
    rw [polledPids_flatMap]
    exact h.nodup
  case complete =>
    rw [hlog]
    exact fun x hx => complete_check h k.poll hx
  case unused =>
    intro id hid'
    rw [hid] at hid'
    have hne : ∀ job ∈ s.backgroundJobs, job.jobId ≠ id := fun job hj he => by
      have := h.jobId_lt hj
      omega
    rw [hlog, List.countP_append, completes_flatMap_none k.poll id hne, h.unused id hid']

/-! ### The rest of a script -/

/-- A job that has just been started is in the list as it was started. -/
theorem present_start {log : List Event} {job : Job} (h : job.pids ≠ []) :
    present log ⟨job, log.length⟩ = some job := by
  have hrun : running log ⟨job, log.length⟩ = job.pids := by
    unfold running
    rw [List.drop_length]
    exact List.filter_true _
  unfold present
  rw [hrun, if_neg h]

theorem started_spec {k : Kernel} {holders : List CommandHolder} {s : Shell} {job : Job}
    (h : job ∈ started k holders s) :
    job = ⟨s.nextJobId, stagePids k.stage 0 holders.length, s.parsedStr⟩ ∧ job.pids ≠ [] := by
  unfold started at h
  split at h
  · next hc =>
    rw [List.mem_singleton.mp h]
    refine ⟨rfl, ?_⟩
    cases holders with
    | nil =>
      rw [Bool.and_eq_true] at hc
      cases hc.2
    | cons holder holders => exact List.cons_ne_nil _ _
  · cases h

theorem started_length (k : Kernel) (holders : List CommandHolder) (s : Shell) :
    started k holders s = [] ∨ ∃ job, started k holders s = [job] := by
  unfold started
  split
  · exact .inr ⟨_, rfl⟩
  · exact .inl rfl

/-- What is started is in the list as it was started. -/
theorem started_present (k : Kernel) (holders : List CommandHolder) (s : Shell) (log : List Event) :
    ((started k holders s).map fun job => (⟨job, log.length⟩ : Start)).filterMap (present log) =
      started k holders s := by
  rw [List.filterMap_map]
  refine (List.filterMap_congr fun job hj => ?_).trans List.filterMap_some
  exact present_start (started_spec hj).2

/-- A job that is started takes the next id, alone. -/
theorem started_start {k : Kernel} {holders : List CommandHolder} {s : Shell} {log : List Event}
    {x : Start} (hx : x ∈ (started k holders s).map fun job => (⟨job, log.length⟩ : Start)) :
    x.job.jobId = s.nextJobId ∧ (started k holders s).length = 1 ∧ present log x ≠ none := by
  obtain ⟨job, hj, rfl⟩ := List.mem_map.mp hx
  refine ⟨by rw [(started_spec hj).1], ?_, ?_⟩
  · rcases started_length k holders s with he | ⟨j, he⟩
    · rw [he] at hj
      cases hj
    · rw [he]
      rfl
  · rw [present_start (started_spec hj).2]
    exact Option.some_ne_none _

/-- The processes of a new job are none of those of the jobs in the list. -/
theorem started_nodup {k : Kernel} {holders : List CommandHolder} {s : Shell}
    (hfork : Forked k.stage holders.length s) (hnd : (s.backgroundJobs.flatMap Job.pids).Nodup) :
    ((s.backgroundJobs ++ started k holders s).flatMap Job.pids).Nodup := by
  rw [List.flatMap_append, List.nodup_append]
  refine ⟨hnd, ?_, ?_⟩
  · rcases started_length k holders s with he | ⟨j, he⟩
    · rw [he]
      exact List.nodup_nil
    · have hj : j ∈ started k holders s := he ▸ List.mem_singleton_self j
      rw [he, List.flatMap_cons, List.flatMap_nil, List.append_nil, (started_spec hj).1]
      exact hfork.nodup
  · rintro p hp q hq rfl
    obtain ⟨job, hj, hp⟩ := List.mem_flatMap.mp hp
    obtain ⟨new, hnew, hq⟩ := List.mem_flatMap.mp hq
    rw [(started_spec hnew).1] at hq
    exact hfork.unused p hq job hj hp

theorem quiet_no_poll {es : List Event} (h : ∀ e ∈ es, Event.quiet e) {pid r : ℤ} :
    Event.poll pid r ∉ es := fun he => by cases h _ he

theorem quiet_completes {es : List Event} (h : ∀ e ∈ es, Event.quiet e) (id : ℤ) :
    es.countP (completes id) = 0 := by
  rw [List.countP_eq_zero]
  intro e he hc
  have := h e he
  cases e with
  | jobComplete id' p c => cases this
  | _ => cases hc

theorem quiet_polledPids {es : List Event} (h : ∀ e ∈ es, Event.quiet e) : polledPids es = [] := by
  refine List.filterMap_eq_nil_iff.mpr fun e he => ?_
  have := h e he
  cases e with
  | poll p r => cases this
  | _ => rfl

/-- A job that is started has a number above all that were given. -/
theorem ids_started {js : List Start} {s : Shell} (h : Inv js s) (k : Kernel)
    (holders : List CommandHolder) (log : List Event) :
    ((js ++ (started k holders s).map fun job => Start.mk job log.length).map
      fun x => x.job.jobId).Pairwise (· < ·) := by
  rw [List.map_append, List.pairwise_append]
  refine ⟨h.ids, ?_, ?_⟩
  · rcases started_length k holders s with he | ⟨j, he⟩
    · rw [he]
      exact List.Pairwise.nil
    · rw [he]
      exact List.pairwise_singleton _ _
  · intro a ha b hb
    obtain ⟨x, hx, rfl⟩ := List.mem_map.mp ha
    obtain ⟨y, hy, rfl⟩ := List.mem_map.mp hb
    rw [(started_start hy).1]
    exact h.next x hx

/-- **The rest of a script keeps the invariant.** -/
theorem body_inv {js : List Start} {s s' : Shell} {news : List (Option Child)} {k : Kernel}
    {holders : List CommandHolder} (h : Inv js s) (hinit : s.dequesInitialized = true)
    (hfork : Forked k.stage holders.length s) (hs : bodyScript k holders s = some (news, s')) :
    Inv (js ++ (started k holders s).map fun job => ⟨job, s'.log.length⟩) s' := by
  obtain ⟨news', s₁, es, h1, h2, h3, h4, h5, h6, h7⟩ := bodyScript_eq k holders hinit
  rw [hs] at h1
  obtain ⟨rfl, rfl⟩ := Prod.mk.inj (Option.some.inj h1)
  have hpos : ∀ x ∈ js, x.pos ≤ s'.log.length := by
    intro x hx
    have := h.pos x hx
    rw [h5, List.length_append]
    omega
  have hold : ∀ x ∈ js, present s'.log x = present s.log x := by
    intro x hx
    rw [h5]
    exact present_quiet (h.pos x hx) h6
  have hcount : ∀ id, s'.log.countP (completes id) = s.log.countP (completes id) := by
    intro id
    rw [h5, List.countP_append, quiet_completes h6, Nat.add_zero]
  constructor
  case init =>
    intro hi
    rw [h2] at hi
    cases hi
  case table =>
    rw [List.filterMap_append, List.filterMap_congr hold, started_present, h3, h.table]
  case ids => exact ids_started h k holders _
  case next =>
    intro x hx
    rw [h4]
    rcases List.mem_append.mp hx with hx | hx
    · have := h.next x hx
      omega
    · obtain ⟨hid, hone, -⟩ := started_start hx
      omega
  case pos =>
    intro x hx
    rcases List.mem_append.mp hx with hx | hx
    · exact hpos x hx
    · obtain ⟨job, -, rfl⟩ := List.mem_map.mp hx
      exact le_rfl
  case nodup =>
    rw [h3]
    exact started_nodup hfork h.nodup
  case alive =>
    intro job hj pid hp
    rw [h5]
    rw [h3] at hj
    rcases List.mem_append.mp hj with hj | hj
    · exact dead_of_append (h.alive job hj pid hp) fun r he => absurd he (quiet_no_poll h6)
    · exact dead_of_fork (h7 job hj pid hp) fun r he => absurd he (quiet_no_poll h6)
  case polled =>
    have hnil := quiet_polledPids h6
    rw [h5]
    refine h.polled.append ?_ fun pid hp => ?_
    · rw [hnil]
      exact List.nodup_nil
    · rw [hnil] at hp
      cases hp
  case complete =>
    intro x hx
    rw [hcount]
    rcases List.mem_append.mp hx with hx | hx
    · rw [hold x hx]
      exact h.complete x hx
    · obtain ⟨hid, -, hp⟩ := started_start hx
      rw [if_neg hp, hid]
      exact h.unused _ le_rfl
  case unused =>
    intro id hid
    rw [hcount]
    refine h.unused id ?_
    rw [h4] at hid
    omega

/-! ### Runs -/

theorem start_inv (env : Str → Option Str) : Inv [] (initialShell env) where
  init := fun _ => rfl
  table := rfl
  ids := List.Pairwise.nil
  next := fun x hx => absurd hx List.not_mem_nil
  pos := fun x hx => absurd hx List.not_mem_nil
  nodup := List.nodup_nil
  alive := fun job hj => absurd hj List.not_mem_nil
  polled := fun l₁ pid r l₂ h => by
    cases l₁ <;> cases h
  complete := fun x hx => absurd hx List.not_mem_nil
  unused := fun _ _ => rfl

/-- The invariant does not look at the command string. -/
theorem Inv.parsed {js : List Start} {s : Shell} (h : Inv js s) (str : Str) :
    Inv js { s with parsedStr := str } :=
  ⟨h.init, h.table, h.ids, h.next, h.pos, h.nodup, h.alive, h.polled, h.complete, h.unused⟩

/-- **Every run keeps the invariant.** -/
theorem reach_inv {js : List Start} {s : Shell} (h : Reach js s) : Inv js s := by
  induction h with
  | start env => exact start_inv env
  | check k str _ hs ih => exact check_inv (ih.parsed str) hs
  | body k holders _ hinit hfork hs ih => exact body_inv ih hinit hfork hs

/-- **A script can always be run**, and is a check and a body of `Reach`. -/
theorem reach_runScript {js : List Start} {s : Shell} (h : Reach js s) (k : Kernel)
    (holders : List CommandHolder) (str : Str)
    (hfork : ∀ s₁, startScript k { s with parsedStr := str } = some s₁ →
      Forked k.stage holders.length s₁) :
    ∃ js' news s', runScript k holders { s with parsedStr := str } = some (news, s') ∧
      Reach (js ++ js') s' := by
  obtain ⟨jobs, hstart, -⟩ := startScript_eq k { s with parsedStr := str }
  have hcheck := Reach.check k str h hstart
  obtain ⟨news, s', es, hbody, -⟩ := bodyScript_eq k holders
    (s := { ({ s with parsedStr := str } : Shell).emit (jobs.flatMap (checked k.poll)) with
      backgroundJobs := jobs.filterMap (remaining k.poll), dequesInitialized := true }) rfl
  refine ⟨_, news, s', ?_, Reach.body k holders hcheck rfl (hfork _ hstart) hbody⟩
  unfold runScript
  rw [hstart]
  exact hbody

/-- The signals of `run_kill` are those to the one job with the id. -/
theorem flatMap_killed (signal jobId : ℤ) : ∀ {jobs : List Job}, (jobs.map Job.jobId).Nodup →
    jobs.flatMap (killed signal jobId) =
      match jobs.find? (·.jobId = jobId) with
      | some job => job.pids.map fun pid => .kill pid signal
      | none => []
  | [], _ => rfl
  | job :: jobs, hnd => by
    rw [List.map_cons, List.nodup_cons] at hnd
    rw [List.flatMap_cons, List.find?_cons]
    by_cases he : job.jobId = jobId
    · have hrest : jobs.flatMap (killed signal jobId) = [] := by
        rw [List.flatMap_eq_nil_iff]
        intro j hj
        exact if_neg fun hc => hnd.1 (List.mem_map.mpr ⟨j, hj, hc.trans he.symm⟩)
      rw [hrest, List.append_nil, decide_eq_true he]
      exact if_pos he
    · rw [decide_eq_false he, ← flatMap_killed signal jobId hnd.2]
      unfold killed
      rw [if_neg he]
      rfl

/-- **The background jobs in every run.** The ids in the list increase. The list is, in the order in
which they were started, the started jobs of which a pid has not been polled with a result other than
0, each with those pids in their order; the completion message of a started job has been printed once
if it is gone, and not if it is there; no process is polled after its result was not 0. The check before
the next script polls each pid of each job in the list; it leaves the jobs with a result 0, with the pids
that have it, and prints the messages of the others. `run_jobs` and `run_kill` keep the list, and
`run_kill` signals the pids of the job with the id. -/
theorem background_jobs {js : List Start} {s : Shell} (h : Reach js s) :
    (s.backgroundJobs.map Job.jobId).Pairwise (· < ·) ∧
      s.backgroundJobs = js.filterMap (present s.log) ∧
      (∀ x ∈ js, s.log.countP (completes x.job.jobId) = if present s.log x = none then 1 else 0) ∧
      Polled s.log ∧
      (∀ (k : Kernel) (str : Str), ∃ s', startScript k { s with parsedStr := str } = some s' ∧
        s'.backgroundJobs = s.backgroundJobs.filterMap (remaining k.poll) ∧
        s'.log = s.log ++ s.backgroundJobs.flatMap (checked k.poll)) ∧
      (∃ lines, runJobs s = some (s.backgroundJobs, lines)) ∧
      (s.dequesInitialized = true → ∀ signal jobId, runKill signal jobId s =
        some (s.emit (match s.backgroundJobs.find? (·.jobId = jobId) with
          | some job => job.pids.map fun pid => .kill pid signal
          | none => []))) := by
  have hinv := reach_inv h
  refine ⟨hinv.sorted, hinv.table, hinv.complete, hinv.polled, fun k str => ?_,
    ⟨_, runJobs_eq hinv.pids_ne_nil⟩, fun hinit signal jobId => ?_⟩
  · obtain ⟨s', hs', -, hbg, -, hlog⟩ := (hinv.parsed str).check_eq k
    exact ⟨s', hs', hbg, hlog⟩
  · rw [runKill_eq signal jobId hinit, flatMap_killed signal jobId hinv.ids_nodup]

/-- A run with `a | b &`, whose processes are 100 and 101. At the first check 101 has ended, at the second
one 100; then the job is complete. -/
theorem background_jobs_pipe : ∃ js s₁ s₂ s₃ stage,
    Reach js s₁ ∧ s₁.backgroundJobs = [⟨1, [100, 101], "a | b ".toList⟩] ∧
    startScript ⟨fun pid => if pid = 100 then 0 else pid, stage⟩ { s₁ with parsedStr := [] } = some s₂ ∧
    s₂.backgroundJobs = [⟨1, [100], "a | b ".toList⟩] ∧
    runKill 9 1 s₂ = some (s₂.emit [.kill 100 9]) ∧
    startScript ⟨id, stage⟩ { s₂ with parsedStr := [] } = some s₃ ∧ s₃.backgroundJobs = [] ∧
    s₃.log = s₁.log ++ [.poll 100 0, .poll 101 101, .poll 100 100, .jobComplete 1 0 "a | b ".toList] := by
  let k : Kernel := ⟨fun _ => 0, fun i => ⟨true, some (100 + i), true, true, true, []⟩⟩
  let holders : List CommandHolder :=
    [⟨none, none, ⟨false, false, false, false, true, true⟩, .generic ["a".toList]⟩,
      ⟨none, none, ⟨false, false, false, true, false, false⟩, .generic ["b".toList]⟩]
  let s₀ : Shell := { initialShell fun _ => none with parsedStr := "a | b ".toList }
  have hstart : startScript k s₀ = some { s₀ with dequesInitialized := true } := rfl
  have hcheck := Reach.check k "a | b ".toList (Reach.start fun _ => none) hstart
  have hfork : Forked k.stage holders.length { s₀ with dequesInitialized := true } :=
    ⟨fun i _ => rfl, by decide, fun pid _ job hj => absurd hj List.not_mem_nil⟩
  obtain ⟨news, s₁, es, hbody, -, hbg, -⟩ := bodyScript_eq k holders
    (s := { s₀ with dequesInitialized := true }) rfl
  have hlist : s₁.backgroundJobs = [⟨1, [100, 101], "a | b ".toList⟩] := hbg
  have hreach := Reach.body k holders hcheck rfl hfork hbody
  obtain ⟨-, -, -, -, hnext, -⟩ := background_jobs hreach
  obtain ⟨s₂, hs₂, hbg₂, hlog₂⟩ := hnext ⟨fun pid => if pid = 100 then 0 else pid, k.stage⟩ []
  have hreach₂ := Reach.check _ [] hreach hs₂
  have hlist₂ : s₂.backgroundJobs = [⟨1, [100], "a | b ".toList⟩] := by
    rw [hbg₂, hlist]
    rfl
  obtain ⟨-, -, -, -, hnext₂, -, hkill⟩ := background_jobs hreach₂
  obtain ⟨s₃, hs₃, hbg₃, hlog₃⟩ := hnext₂ ⟨id, k.stage⟩ []
  obtain ⟨s₂', hs₂', hinit, -⟩ := startScript_some ⟨fun pid => if pid = 100 then 0 else pid, k.stage⟩
    { s₁ with parsedStr := [] }
  obtain rfl : s₂ = s₂' := Option.some.inj (hs₂.symm.trans hs₂')
  refine ⟨_, s₁, s₂, s₃, k.stage, hreach, hlist, hs₂, hlist₂, ?_, hs₃, ?_, ?_⟩
  · rw [hkill hinit 9 1, hlist₂]
    rfl
  · rw [hbg₃, hlist₂]
    rfl
  · rw [hlog₃, hlog₂, hlist₂, hlist, List.append_assoc]
    rfl

end Eecs678.Quash.Background
