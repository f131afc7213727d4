import Eecs678.Scheduler.Places

/-!
# No job is lost

Runs of the scheduler: any sequence of callbacks from `scheduler_start_up`, with the numbers of the
jobs that arrived and of those that finished. `no_job_lost` says where the jobs are after it.
-/

namespace Eecs678.Scheduler.Runs

open Eecs678.Lib.Slots Eecs678.Scheduler.Model Eecs678.Scheduler.Places

/-- A run to `s` in which the jobs `arrived` were started and the jobs `finished` ended. New jobs
have new numbers, and the two other callbacks are called for a core that runs a job. -/
inductive Run (cores : ℕ) (scheme : Scheme) : Sched → List ℤ → List ℤ → Prop
  | startUp : Run cores scheme (schedulerStartUp cores scheme) [] []
  | newJob {s : Sched} {arrived finished : List ℤ} (n t r pr : ℤ) :
      Run cores scheme s arrived finished → n ∉ arrived →
        Run cores scheme (schedulerNewJob n t r pr s).2 (n :: arrived) finished
  | jobFinished {s s' : Sched} {arrived finished : List ℤ} {core res : ℤ} {p : ℕ} (n t : ℤ) :
      Run cores scheme s arrived finished → jobOn core s = some p →
        schedulerJobFinished core n t s = some (res, s') →
          Run cores scheme s' arrived ((s.heap p).jobNumber :: finished)
  | quantumExpired {s s' : Sched} {arrived finished : List ℤ} {core res : ℤ} {p : ℕ} (t : ℤ) :
      Run cores scheme s arrived finished → jobOn core s = some p →
        schedulerQuantumExpired core t s = some (res, s') → Run cores scheme s' arrived finished

/-- The fixed fields of the jobs that have a place. -/
def statics (s : Sched) : List (ℤ × ℤ × ℤ × ℤ) := (places s).map fun p => static (s.heap p)

/-- The numbers of the jobs that have a place. -/
def numbers (s : Sched) : List ℤ := (statics s).map Prod.fst

/-- What holds after every callback of a run. -/
structure Account (cores : ℕ) (scheme : Scheme) (s : Sched) (arrived finished : List ℤ) : Prop where
  wf : Wf s
  length : s.coreJobPtrs.length = cores
  scheme : s.currentScheme = scheme
  split : (numbers s ++ finished).Perm arrived
  nodup : arrived.Nodup

/-- The jobs in `l` keep their fixed fields. -/
theorem map_static {t : ℤ} {s s' : Sched} (h : Keeps t s s') {l : List ℕ}
    (hl : ∀ q ∈ l, q < s.fresh) :
    l.map (fun p => static (s'.heap p)) = l.map (fun p => static (s.heap p)) :=
  List.map_congr_left fun q hq => h.static q (hl q hq)

theorem statics_newJob {s : Sched} (h : Wf s) (n t r pr : ℤ) :
    (statics (schedulerNewJob n t r pr s).2).Perm ((n, t, r, pr) :: statics s) := by
  have hperm := (newJob_spec h n t r pr).2.1.map
    fun p => static ((schedulerNewJob n t r pr s).2.heap p)
  rw [List.map_cons, (newJob_new h n t r pr).1,
    map_static (newJob_keeps h n t r pr) fun q hq => h.lt_fresh hq] at hperm
  exact hperm

theorem statics_finished {t : ℤ} {s s' : Sched} {p : ℕ} (h : Wf s) (hk : Keeps t s s')
    (hp : (p :: places s').Perm (places s)) :
    (static (s.heap p) :: statics s').Perm (statics s) := by
  have hfr : ∀ q ∈ places s', q < s.fresh := fun q hq =>
    h.fresh q (hp.mem_iff.mp (List.mem_cons_of_mem _ hq))
  rw [statics, map_static hk hfr]
  exact hp.map fun p => static (s.heap p)

theorem statics_expired {t : ℤ} {s s' : Sched} (h : Wf s) (hk : Keeps t s s')
    (hp : (places s').Perm (places s)) : (statics s').Perm (statics s) := by
  rw [statics, map_static hk fun q hq => h.fresh q (hp.mem_iff.mp hq)]
  exact hp.map fun p => static (s.heap p)

/-- **The account holds along every run.** -/
theorem Run.account {cores : ℕ} {scheme : Scheme} {s : Sched} {arrived finished : List ℤ}
    (h : Run cores scheme s arrived finished) : Account cores scheme s arrived finished := by
  induction h with
  | startUp =>
    refine ⟨wf_startUp cores scheme, by simp [schedulerStartUp], rfl, ?_, List.nodup_nil⟩
    simp [numbers, statics, places, schedulerStartUp, List.reduceOption_replicate_none]
  | newJob n t r pr _ hn ih =>
    have hk := newJob_keeps ih.wf n t r pr
    exact ⟨(newJob_spec ih.wf n t r pr).1, hk.length.trans ih.length, hk.scheme.trans ih.scheme,
      (((statics_newJob ih.wf n t r pr).map Prod.fst).append_right _).trans (ih.split.cons n),
      List.nodup_cons.mpr ⟨hn, ih.nodup⟩⟩
  | jobFinished n t _ hp he ih =>
    obtain ⟨hw, hperm, hk⟩ := finished_call ih.wf hp he
    refine ⟨hw, hk.length.trans ih.length, hk.scheme.trans ih.scheme, ?_, ih.nodup⟩
    refine (List.perm_middle.trans ?_).trans ih.split
    exact ((statics_finished ih.wf hk hperm).map Prod.fst).append_right _
  | quantumExpired t _ hp he ih =>
    obtain ⟨hw, hperm, hk⟩ := expired_call ih.wf hp he
    exact ⟨hw, hk.length.trans ih.length, hk.scheme.trans ih.scheme,
      (((statics_expired ih.wf hk hperm).map Prod.fst).append_right _).trans ih.split, ih.nodup⟩

/-- A place of the scheduler: a slot of `core_job_ptrs` or a node of the queue. -/
inductive Place
  | core (c : ℕ)
  | node (k : ℕ)

/-- The pointer at a place. -/
def atPlace (s : Sched) : Place → Option ℕ
  | .core c => s.coreJobPtrs[c]?.join
  | .node k => s.jobQueue[k]?

/-- The job numbered `n` is at the place. -/
def JobAt (s : Sched) (n : ℤ) (pl : Place) : Prop :=
  ∃ p, atPlace s pl = some p ∧ (s.heap p).jobNumber = n

theorem atPlace_mem {s : Sched} {pl : Place} {p : ℕ} (h : atPlace s pl = some p) : p ∈ places s := by
  cases pl with
  | core c => exact mem_places_slot (Option.join_eq_some_iff.mp h)
  | node k => exact mem_places_queue (List.mem_of_getElem? h)

theorem mem_atPlace {s : Sched} {p : ℕ} (h : p ∈ places s) : ∃ pl, atPlace s pl = some p := by
  rcases List.mem_append.mp h with h | h
  · obtain ⟨c, hc⟩ := exists_slot h
    exact ⟨.core c, by rw [atPlace, hc]; rfl⟩
  · obtain ⟨k, hk⟩ := List.mem_iff_getElem?.mp h
    exact ⟨.node k, hk⟩

theorem atPlace_inj {s : Sched} (h : Wf s) {pl pl' : Place} {p : ℕ} (hp : atPlace s pl = some p)
    (hp' : atPlace s pl' = some p) : pl = pl' := by
  have hq : s.jobQueue.Nodup := h.queue_nodup
  cases pl with
  | core c =>
    have hc : s.coreJobPtrs[c]? = some (some p) := Option.join_eq_some_iff.mp hp
    cases pl' with
    | core c' => rw [slot_unique h.slots_nodup hc (Option.join_eq_some_iff.mp hp')]
    | node k => exact absurd (List.mem_of_getElem? hp') (h.not_queued hc)
  | node k =>
    cases pl' with
    | core c' =>
      exact absurd (List.mem_of_getElem? hp) (h.not_queued (Option.join_eq_some_iff.mp hp'))
    | node k' =>
      have hk : k < s.jobQueue.length := (List.getElem?_eq_some_iff.mp hp).1
      rw [(List.getElem?_inj hk hq).mp (hp.trans hp'.symm)]

variable {cores : ℕ} {scheme : Scheme} {s : Sched} {arrived finished : List ℤ}

namespace Account

/-- The jobs that have a place are the ones that arrived and did not finish. -/
theorem mem_numbers (h : Account cores scheme s arrived finished) (n : ℤ) :
    n ∈ numbers s ↔ n ∈ arrived ∧ n ∉ finished := by
  have hnd := h.split.nodup_iff.mpr h.nodup
  rw [← h.split.mem_iff, List.mem_append]
  exact ⟨fun hn => ⟨Or.inl hn, fun hf => (List.nodup_append.mp hnd).2.2 n hn n hf rfl⟩,
    fun hn => hn.1.resolve_right hn.2⟩

/-- Two jobs that have a place have different numbers. -/
theorem jobNumber_inj (h : Account cores scheme s arrived finished) {p q : ℕ} (hp : p ∈ places s)
    (hq : q ∈ places s) (he : (s.heap p).jobNumber = (s.heap q).jobNumber) : p = q := by
  have hnd := (List.nodup_append.mp (h.split.nodup_iff.mpr h.nodup)).1
  rw [numbers, statics, List.map_map] at hnd
  exact List.inj_on_of_nodup_map hnd hp hq he

theorem mem_numbers_places {n : ℤ} : n ∈ numbers s ↔ ∃ p ∈ places s, (s.heap p).jobNumber = n := by
  simp [numbers, statics, static]

theorem numbers_perm (h : Account cores scheme s arrived finished) :
    (numbers s).Perm (arrived.filter (· ∉ finished)) := by
  have hnd := List.nodup_append.mp (h.split.nodup_iff.mpr h.nodup)
  rw [List.perm_ext_iff_of_nodup hnd.1 (h.nodup.filter _)]
  intro n
  rw [h.mem_numbers n, List.mem_filter, decide_eq_true_iff]

/-- As many jobs have a place as arrived and did not finish. -/
theorem length_places (h : Account cores scheme s arrived finished) :
    (places s).length = (arrived.filter (· ∉ finished)).length := by
  rw [← h.numbers_perm.length_eq, numbers, statics, List.length_map, List.length_map]

/-- As many cores are busy as there are jobs for. -/
theorem busy (h : Account cores scheme s arrived finished) :
    s.coreJobPtrs.reduceOption.length = min cores (places s).length := by
  have hle := List.reduceOption_length_le s.coreJobPtrs
  rw [places, List.length_append, ← h.length]
  by_cases hn : none ∈ s.coreJobPtrs
  · rw [h.wf.busy hn, List.length_nil]
    omega
  · rw [length_reduceOption hn]
    omega

end Account

/-- **No job lost, duplicated or idle-waiting.** After any run, each job that arrived and did not
finish is at one place and the other jobs are at none, `core_id` says where a job is, no core is
idle while a job is queued, and the next call for a core that runs a job returns. -/
theorem no_job_lost (h : Run cores scheme s arrived finished) :
    (∀ n ∈ arrived, n ∉ finished → ∃! pl, JobAt s n pl) ∧
    (∀ n pl, JobAt s n pl → n ∈ arrived ∧ n ∉ finished) ∧
    (∀ c p : ℕ, s.coreJobPtrs[c]? = some (some p) → (s.heap p).coreId = c) ∧
    (∀ p ∈ s.jobQueue, (s.heap p).coreId = -1) ∧
    (none ∈ s.coreJobPtrs → s.jobQueue = []) ∧
    s.coreJobPtrs.length = cores ∧
    (s.coreJobPtrs.filter Option.isSome).length =
      min cores (arrived.filter (· ∉ finished)).length ∧
    (∀ core p n t, jobOn core s = some p →
      (schedulerJobFinished core n t s).isSome ∧ (schedulerQuantumExpired core t s).isSome) := by
  have ha := h.account
  refine ⟨fun n hn hf => ?_, fun n pl hpl => ?_, ha.wf.core_id, ha.wf.queue_id, ha.wf.busy,
    ha.length, ?_, fun core p n t hp => ?_⟩
  · obtain ⟨p, hp, hpn⟩ := Account.mem_numbers_places.mp ((ha.mem_numbers n).mpr ⟨hn, hf⟩)
    obtain ⟨pl, hpl⟩ := mem_atPlace hp
    refine ⟨pl, ⟨p, hpl, hpn⟩, fun pl' ⟨q, hq, hqn⟩ => ?_⟩
    have hqp : q = p := ha.jobNumber_inj (atPlace_mem hq) hp (hqn.trans hpn.symm)
    exact atPlace_inj ha.wf (hqp ▸ hq) hpl
  · obtain ⟨p, hp, rfl⟩ := hpl
    exact (ha.mem_numbers _).mp (Account.mem_numbers_places.mpr ⟨p, atPlace_mem hp, rfl⟩)
  · rw [← ha.length_places, ← ha.busy, List.reduceOption_length_eq]
  · obtain ⟨_, _, hfin, -⟩ := finished_spec ha.wf hp n t
    obtain ⟨_, _, hexp, -⟩ := expired_spec ha.wf hp t
    rw [hfin, hexp]
    exact ⟨rfl, rfl⟩

/-- Two jobs on one core, of which the first finishes. -/
theorem no_job_lost_second : ∃ s, Run 1 .fcfs s [8, 7] [7] ∧ ∃! pl, JobAt s 8 pl := by
  have h : Run 1 .fcfs (schedulerNewJob 8 1 4 0
      (schedulerNewJob 7 0 5 0 (schedulerStartUp 1 .fcfs)).2).2 [8, 7] [] :=
    .newJob 8 1 4 0 (.newJob 7 0 5 0 .startUp (by decide)) (by decide)
  have hp : jobOn 0 (schedulerNewJob 8 1 4 0
      (schedulerNewJob 7 0 5 0 (schedulerStartUp 1 .fcfs)).2).2 = some 0 := rfl
  obtain ⟨res, s, he, -⟩ := finished_spec h.account.wf hp 7 5
  have h' : Run 1 .fcfs s [8, 7] [7] := h.jobFinished 7 5 hp he
  exact ⟨s, h', (no_job_lost h').1 8 (by decide) (by decide)⟩

end Eecs678.Scheduler.Runs
