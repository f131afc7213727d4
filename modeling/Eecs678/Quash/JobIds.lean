import Eecs678.Lib.Counter
import Eecs678.Quash.Forks

/-!
# The ids of the background jobs

The id of a new background job comes from a counter, and the documentation takes it from the list: one
more than the largest id there. `Adds` is a script that puts a job on the list, `Counted` is what the
counter has to do with the list in every run, and `job_ids_iff` says when the two agree: as long as the
background job that was started last still runs when the next one is started.
-/

namespace Eecs678.Quash.JobIds

open Eecs678.Lib.Counter Eecs678.Quash.Commands Eecs678.Quash.Execute Eecs678.Quash.Jobs
open Eecs678.Quash.Background Eecs678.Quash.Forks

/-- A script that starts a background job. -/
def Starts (x : Script) : Prop := exitAlone x.holders = false ∧ isBackground x.holders = true

/-- **A script puts a job on the list**: the list at that moment, and the job. -/
inductive Adds (x : Script) (s : Shell) : List Job → Job → Prop
  | add {s₀ s₁ s₂ : Shell} {pids : List ℤ} {news : List (Option Child)} {job : Job}
      (hstart : startScript x.kernel { s with parsedStr := x.str } = some s₀)
      (hexit : exitAlone x.holders = false)
      (hcreate : createProcesses x.kernel.stage 0 x.holders { s₀ with pipeIndex := 0 } =
        some (pids, news, s₁))
      (hfinish : finishScript x.holders pids s₁ = some s₂)
      (hjob : s₂.backgroundJobs = s₁.backgroundJobs ++ [job]) : Adds x s s₁.backgroundJobs job

/-- **The id is the documented one**: one more than the largest id in the list, and so not one of the
list. -/
def Documented (jobs : List Job) (job : Job) : Prop :=
  job.jobId = afterMax (jobs.map Job.jobId) ∧ ∀ other ∈ jobs, other.jobId ≠ job.jobId

/-- **The background job that was started last, if any, still runs**: it is in the list, and for one of
its pids the check of the script gets a 0 from `waitpid`. -/
def LastRuns (x : Script) (t : Session) : Prop :=
  ∀ last ∈ t.forked.getLast?, ∃ job ∈ listed t.shell, job.jobId = last.1 ∧
    ∃ pid ∈ job.pids, x.kernel.poll pid = 0

variable {x : Script} {s s' : Shell} {t : Session} {news : List (Option Child)}

/-! ### One script -/

/-- **The job that is put on the list**, and the list that it is put on. -/
theorem adds_iff {jobs : List Job} {job : Job} : Adds x s jobs job ↔ Starts x ∧
    jobs = (afterCheck x s).backgroundJobs ∧
      job = ⟨s.nextJobId, stagePids x.kernel.stage 0 x.holders.length, x.str⟩ := by
  constructor
  · rintro ⟨hstart, hexit, hcreate, hfinish, hjob⟩
    obtain ⟨-, rfl, hsame⟩ := stages_spec hstart hcreate
    obtain ⟨s₂', -, hfinish', -, hjobs, -⟩ := finishScript_eq x.holders
      (stagePids_ne_nil x.kernel.stage) _
    obtain rfl := Option.some.inj (hfinish'.symm.trans hfinish)
    rw [hjobs] at hjob
    have hnew := List.append_cancel_left hjob
    split at hnew
    · next hbg =>
      rw [← List.singleton_inj.mp hnew, hsame.nextJobId, hsame.parsedStr]
      exact ⟨⟨hexit, hbg⟩, hsame.jobs, rfl⟩
    · cases hnew
  · rintro ⟨⟨hexit, hbg⟩, rfl, rfl⟩
    obtain ⟨news, s₁, hcreate, hsame⟩ := stages_eq x s x.holders
    obtain ⟨s₂, -, hfinish, -, hjobs, -⟩ := finishScript_eq x.holders
      (stagePids_ne_nil x.kernel.stage) s₁
    have hjob : s₂.backgroundJobs = s₁.backgroundJobs ++
        [⟨s.nextJobId, stagePids x.kernel.stage 0 x.holders.length, x.str⟩] := by
      rw [hjobs, if_pos hbg, hsame.nextJobId, hsame.parsedStr]
      rfl
    rw [← hsame.jobs]
    exact .add (startScript_listed x s) hexit hcreate hfinish hjob

/-- A job is left in the list when one of its pids still runs. -/
theorem mem_ids_afterCheck {id : ℤ} : id ∈ (afterCheck x s).backgroundJobs.map Job.jobId ↔
    ∃ job ∈ listed s, job.jobId = id ∧ ∃ pid ∈ job.pids, x.kernel.poll pid = 0 := by
  rw [List.mem_map]
  constructor
  · rintro ⟨job', hjob', rfl⟩
    obtain ⟨job, hjob, hr⟩ := List.mem_filterMap.mp hjob'
    refine ⟨job, hjob, (remaining_spec hr).1.symm, ?_⟩
    by_contra hnone
    push Not at hnone
    cases (remaining_eq_none_iff.mpr hnone).symm.trans hr
  · rintro ⟨job, hjob, rfl, pid, hpid, hpoll⟩
    cases hr : remaining x.kernel.poll job with
    | none => exact absurd hpoll (remaining_eq_none_iff.mp hr pid hpid)
    | some job' => exact ⟨job', List.mem_filterMap.mpr ⟨job, hjob, hr⟩, (remaining_spec hr).1⟩

theorem nextJobId_after (hs : x.run s = some (news, s')) :
    s'.nextJobId = s.nextJobId + (x.job s).length ∧
      s'.backgroundJobs.map Job.jobId =
        (afterCheck x s).backgroundJobs.map Job.jobId ++ (x.job s).map Prod.fst := by
  have hjobs := (jobs_after hs).1
  rw [run_eq] at hs
  obtain ⟨news₁, s₁, es, h1, -, -, h2, -⟩ := bodyScript_eq x.kernel x.holders (s := afterCheck x s) rfl
  rw [hs] at h1
  obtain ⟨-, rfl⟩ := Prod.mk.inj (Option.some.inj h1)
  rw [h2, hjobs, List.map_append]
  unfold started Script.job
  split <;> exact ⟨rfl, rfl⟩

/-! ### Runs -/

/-- **The counter, and what it has given.** -/
structure Counted (t : Session) : Prop where
  given : Given t.shell.nextJobId (t.shell.backgroundJobs.map Job.jobId)
  next : t.shell.nextJobId = t.forked.length + 1
  last : ∀ last ∈ t.forked.getLast?, last.1 = t.forked.length

theorem Counted.afterCheck (h : Counted t) (x : Script) :
    Given t.shell.nextJobId ((afterCheck x t.shell).backgroundJobs.map Job.jobId) := by
  refine h.given.subset fun id hid => ?_
  obtain ⟨job, hjob, rfl, -⟩ := mem_ids_afterCheck.mp hid
  exact List.mem_map_of_mem (mem_listed hjob).2

theorem script_counted (h : Counted t) (hs : x.run t.shell = some (news, s')) :
    Counted ⟨s', t.forked ++ x.job t.shell⟩ := by
  obtain ⟨hnext, hids⟩ := nextJobId_after hs
  have hgiven := h.afterCheck x
  have hcount := h.next
  unfold Script.job at hnext hids ⊢
  split at hnext
  · next hc =>
    rw [if_pos hc] at hids ⊢
    constructor
    case given =>
      rw [hnext, hids]
      exact hgiven.give
    case next =>
      rw [hnext, hcount, List.length_append]
      rfl
    case last =>
      intro last hlast
      rw [List.getLast?_concat, Option.mem_some_iff] at hlast
      rw [← hlast, List.length_append]
      exact hcount
  · next hc =>
    rw [if_neg hc] at hids ⊢
    simp only [List.length_nil, Nat.cast_zero, add_zero, List.map_nil, List.append_nil] at hnext hids ⊢
    refine ⟨?_, hnext.trans hcount, h.last⟩
    rw [hnext, hids]
    exact hgiven

variable {env : Str → Option Str} {rounds : List Round}

theorem start_counted (env : Str → Option Str) : Counted ⟨initialShell env, []⟩ where
  given := Given.nil
  next := rfl
  last := fun _ hlast => by cases hlast

/-- **Every run** keeps the count. -/
theorem run_counted (h : Run env rounds t) : Counted t ∧ ∀ r ∈ rounds, Counted r.before := by
  induction h with
  | start => exact ⟨start_counted env, fun r hr => absurd hr List.not_mem_nil⟩
  | script x _ hs ih =>
    refine ⟨script_counted ih.1 hs, fun r hr => ?_⟩
    rcases List.mem_append.mp hr with hr | hr
    · exact ih.2 r hr
    · rw [List.mem_singleton.mp hr]
      exact ih.1

theorem Starts.lt_nextJobId (h : Starts x) (hs : x.run s = some (news, s')) : s.nextJobId < s'.nextJobId := by
  have hnext := (nextJobId_after hs).1
  unfold Script.job at hnext
  rw [h.1, h.2] at hnext
  rw [hnext]
  exact Int.lt_succ s.nextJobId

/-- **No id is given twice** in a run. -/
theorem job_ids_injective (h : Run env rounds t) :
    (∀ q ∈ rounds, Starts q.script → q.before.shell.nextJobId < t.shell.nextJobId) ∧
      ∀ q ∈ rounds, ∀ r ∈ rounds, Starts q.script → Starts r.script →
        q.before.shell.nextJobId = r.before.shell.nextJobId → q = r := by
  induction h with
  | start => exact ⟨fun q hq => absurd hq List.not_mem_nil, fun q hq => absurd hq List.not_mem_nil⟩
  | @script rounds t s' news x h hs ih =>
    obtain ⟨hlt, hinj⟩ := ih
    have hmono : t.shell.nextJobId ≤ s'.nextJobId := by
      have := (nextJobId_after hs).1
      omega
    constructor
    · intro q hq hstarts
      rcases List.mem_append.mp hq with hq | hq
      · exact (hlt q hq hstarts).trans_le hmono
      · rw [List.mem_singleton.mp hq] at hstarts ⊢
        exact hstarts.lt_nextJobId hs
    · intro q hq r hr hsq hsr heq
      rcases List.mem_append.mp hq with hq | hq <;> rcases List.mem_append.mp hr with hr | hr
      · exact hinj q hq r hr hsq hsr heq
      · rw [List.mem_singleton.mp hr] at heq
        exact absurd heq (hlt q hq hsq).ne
      · rw [List.mem_singleton.mp hq] at heq
        exact absurd heq (hlt r hr hsr).ne'
      · rw [List.mem_singleton.mp hq, List.mem_singleton.mp hr]

/-- The counter is one more than the largest id in the list when the last job still runs. -/
theorem Counted.afterMax_iff (h : Counted t) (x : Script) :
    t.shell.nextJobId = afterMax ((Forks.afterCheck x t.shell).backgroundJobs.map Job.jobId) ↔
      LastRuns x t := by
  rw [(h.afterCheck x).afterMax_iff, mem_ids_afterCheck]
  unfold LastRuns
  have hnext := h.next
  cases hl : t.forked.getLast? with
  | none =>
    rw [List.getLast?_eq_none_iff.mp hl] at hnext
    exact iff_of_true (.inl hnext) fun last hlast => by cases hlast
  | some last =>
    have hlast := h.last last hl
    have hpos : t.forked.length ≠ 0 := fun hz => by
      rw [List.length_eq_zero_iff.mp hz] at hl
      cases hl
    have hid : t.shell.nextJobId - 1 = last.1 := by omega
    rw [hid, or_iff_right (by omega)]
    exact ⟨fun hj last' hlast' => Option.some.inj hlast' ▸ hj, fun hall => hall last rfl⟩

/-- **The ids in the list are different**, whatever has completed. -/
theorem job_ids_unique (h : Counted t) {jobs : List Job} {job : Job} (hadds : Adds x t.shell jobs job) :
    ∀ other ∈ jobs, other.jobId ≠ job.jobId := by
  obtain ⟨-, rfl, rfl⟩ := adds_iff.mp hadds
  exact fun other hother he => (h.afterCheck x).notMem (List.mem_map.mpr ⟨other, hother, he⟩)

/-- **When the ids are the documented ones.** In a run, each background job gets the id that is one more
than the largest in the list if and only if whenever one is started, the one started before it still
runs. -/
theorem job_ids_iff (h : Run env rounds t) :
    (∀ r ∈ rounds, ∀ jobs job, Adds r.script r.before.shell jobs job → Documented jobs job) ↔
      ∀ r ∈ rounds, Starts r.script → LastRuns r.script r.before := by
  refine forall₂_congr fun r hr => ?_
  have hcount := (run_counted h).2 r hr
  rw [← hcount.afterMax_iff]
  constructor
  · exact fun hdoc hstarts => (hdoc _ _ (adds_iff.mpr ⟨hstarts, rfl, rfl⟩)).1
  · intro hmax jobs job hadds
    refine ⟨?_, job_ids_unique hcount hadds⟩
    obtain ⟨hstarts, rfl, rfl⟩ := adds_iff.mp hadds
    exact hmax hstarts

/-! ### Runs that show it -/

/-- `sleep &`, with the number of its process and the result of every poll. -/
def sleep (pid : ℕ) (hpid : 0 < pid) (result : ℤ) : Script where
  kernel := ⟨fun _ => result, fun _ => ⟨true, some pid, true, true, true, []⟩⟩
  holders := [⟨none, none, ⟨false, false, false, false, false, true⟩, .generic ["sleep".toList]⟩]
  str := "sleep &".toList
  positive := fun _ p hp => by
    cases hp
    exact hpid

/-- A session that begins with `sleep &`. -/
def firstRound : Round := ⟨sleep 100 (by decide) 0, ⟨initialShell fun _ => none, []⟩⟩

/-- It goes on with any script. -/
def secondRound (y : Script) (s₁ : Shell) : Round := ⟨y, ⟨s₁, [(1, [100])]⟩⟩

theorem exists_session (y : Script) : ∃ s₁ t, Run (fun _ => none) [firstRound, secondRound y s₁] t ∧
    listed s₁ = [⟨1, [100], "sleep &".toList⟩] ∧ s₁.nextJobId = 2 := by
  obtain ⟨news₁, s₁, hs₁, -⟩ := runScript_eq firstRound.script.kernel firstRound.script.holders
    { firstRound.before.shell with parsedStr := firstRound.script.str }
  obtain ⟨news₂, s₂, hs₂, -⟩ := runScript_eq y.kernel y.holders { s₁ with parsedStr := y.str }
  have hrun₁ : Run (fun _ => none) _ _ := .script firstRound.script .start hs₁
  have hrun : Run (fun _ => none) [firstRound, secondRound y s₁] _ := .script y hrun₁ hs₂
  obtain ⟨hjobs, hinit⟩ := jobs_after (x := firstRound.script) hs₁
  refine ⟨s₁, _, hrun, ?_, (run_counted hrun₁).1.next⟩
  unfold listed
  rw [if_pos hinit, hjobs]
  rfl

/-- A second `sleep &`, and the first one still runs. -/
theorem job_ids_iff_two : ∃ rounds t, Run (fun _ => none) rounds t ∧
    (∀ r ∈ rounds, ∀ jobs job, Adds r.script r.before.shell jobs job → Documented jobs job) ∧
    ∃ r ∈ rounds, ∃ jobs job, Adds r.script r.before.shell jobs job ∧ jobs.length = 1 ∧
      job.jobId = 2 := by
  obtain ⟨s₁, t, hrun, hlist, hnext⟩ := exists_session (sleep 101 (by decide) 0)
  have hfirst : LastRuns firstRound.script firstRound.before := fun last hlast => by cases hlast
  have hsecond : LastRuns (sleep 101 (by decide) 0) ⟨s₁, [(1, [100])]⟩ := by
    intro last hlast
    cases hlast
    exact ⟨_, hlist ▸ List.mem_singleton_self _, rfl, 100, List.mem_singleton_self _, rfl⟩
  refine ⟨_, t, hrun, (job_ids_iff hrun).mpr ?_, secondRound _ s₁,
    List.mem_cons_of_mem _ (List.mem_singleton_self _), _, _, adds_iff.mpr ⟨⟨rfl, rfl⟩, rfl, rfl⟩, ?_, hnext⟩
  · exact List.forall_mem_cons.mpr ⟨fun _ => hfirst, List.forall_mem_singleton.mpr fun _ => hsecond⟩
  · simp only [secondRound, afterCheck, hlist]
    rfl

/-- A second `sleep &`, and the first one has completed: the list is empty, and the id is 2. -/
theorem job_ids_iff_completed : ∃ r rounds t, Run (fun _ => none) rounds t ∧ r ∈ rounds ∧
    ∃ job, Adds r.script r.before.shell [] job ∧ job.jobId = 2 ∧ ¬ Documented [] job := by
  obtain ⟨s₁, t, hrun, hlist, hnext⟩ := exists_session (sleep 101 (by decide) 100)
  have hgone : (afterCheck (sleep 101 (by decide) 100) s₁).backgroundJobs = [] := by
    simp only [afterCheck, hlist]
    rfl
  refine ⟨secondRound _ s₁, _, t, hrun, List.mem_cons_of_mem _ (List.mem_singleton_self _), _,
    adds_iff.mpr ⟨⟨rfl, rfl⟩, hgone.symm, rfl⟩, hnext, fun hdoc => ?_⟩
  cases hnext.symm.trans hdoc.1

end Eecs678.Quash.JobIds
