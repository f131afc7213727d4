import Eecs678.Scheduler.Runs
import Mathlib.Data.Prod.Lex

/-!
# Histories of callbacks

A run as the list of its callbacks, the latest first (`Run`). Under a scheme that does not preempt, the
queue is sorted by `order` after every callback (`Run.waiting`): the job fields that the comparer of the
scheme looks at, and then the arrival.
-/

namespace Eecs678.Scheduler.History

open Eecs678.Lib.Slots Eecs678.Scheduler.Priqueue Eecs678.Scheduler.Model
open Eecs678.Scheduler.Places Eecs678.Scheduler.Runs

/-- A callback of the library. -/
inductive Call
  | newJob (n t r pr : ℤ)
  | jobFinished (core n t : ℤ)
  | quantumExpired (core t : ℤ)
deriving DecidableEq, Repr

/-- The time of a callback. -/
def Call.time : Call → ℤ
  | .newJob _ t _ _ => t
  | .jobFinished _ _ t => t
  | .quantumExpired _ t => t

/-- What a callback returns and the state after it. -/
def Call.run (s : Sched) : Call → Option (ℤ × Sched)
  | .newJob n t r pr => some (schedulerNewJob n t r pr s)
  | .jobFinished core n t => schedulerJobFinished core n t s
  | .quantumExpired core t => schedulerQuantumExpired core t s

/-- The number, arrival, running time and priority of a job that a callback brings. -/
def Call.job : Call → Option (ℤ × ℤ × ℤ × ℤ)
  | .newJob n t r pr => some (n, t, r, pr)
  | _ => none

/-- The jobs that arrived. -/
def jobs (calls : List Call) : List (ℤ × ℤ × ℤ × ℤ) := calls.filterMap Call.job

/-! ### The order of waiting jobs -/

/-- What a scheme that does not preempt looks at before the arrival. -/
def criterion (scheme : Scheme) (x : ℤ × ℤ × ℤ × ℤ) : ℤ :=
  match scheme with
  | .sjf => x.2.2.1
  | .pri => x.2.2.2
  | _ => 0

/-- The order in which a scheme that does not preempt serves jobs. -/
def order (scheme : Scheme) (x : ℤ × ℤ × ℤ × ℤ) : ℤ ×ₗ ℤ := toLex (criterion scheme x, x.2.1)

/-- The difference fits in an `int`. -/
def Near (x y : ℤ) : Prop := -2 ^ 31 ≤ x - y ∧ x - y < 2 ^ 31

instance (x y : ℤ) : Decidable (Near x y) := inferInstanceAs (Decidable (_ ∧ _))

/-- The differences of the compared fields fit in an `int`. -/
def Fits (scheme : Scheme) (x y : ℤ × ℤ × ℤ × ℤ) : Prop :=
  Near (criterion scheme x) (criterion scheme y) ∧ Near x.2.1 y.2.1

instance (scheme : Scheme) (x y : ℤ × ℤ × ℤ × ℤ) : Decidable (Fits scheme x y) :=
  inferInstanceAs (Decidable (_ ∧ _))

theorem int32_sub {x y : ℤ} (h : Near x y) : int32 (x - y) = x - y := by
  obtain ⟨h1, h2⟩ := h
  exact int32_eq (by omega) (by omega)

/-- The scheme does not preempt. -/
def Still (scheme : Scheme) : Prop := scheme ≠ .psjf ∧ scheme ≠ .ppri

instance (scheme : Scheme) : Decidable (Still scheme) := inferInstanceAs (Decidable (_ ∧ _))

/-- **The comparer of the queue is the order**, for `SJF` as long as nobody has run. -/
theorem comparer_neg {scheme : Scheme} (hs : Still scheme) {a b : JobT}
    (h : Fits scheme (static a) (static b))
    (ha : scheme = .sjf → a.remainingTime = a.runningTime)
    (hb : scheme = .sjf → b.remainingTime = b.runningTime) :
    comparer scheme a b < 0 ↔ order scheme (static a) < order scheme (static b) := by
  obtain ⟨hg, harr⟩ := h
  rw [order, order, Prod.Lex.toLex_lt_toLex]
  have harr' := int32_sub harr
  have hg' := int32_sub hg
  cases scheme with
  | fcfs =>
    simp only [comparer, compareFcfs, static, criterion, lt_irrefl, false_or, true_and] at harr' ⊢
    omega
  | rr =>
    simp only [comparer, compareRr, static, criterion, lt_irrefl, false_or, true_and] at harr' ⊢
    omega
  | sjf =>
    simp only [comparer, compareSjf, static, criterion, ha rfl, hb rfl] at harr' hg' ⊢
    split_ifs <;> omega
  | pri =>
    simp only [comparer, comparePri, static, criterion] at harr' hg' ⊢
    split_ifs <;> omega
  | psjf => exact absurd rfl hs.1
  | ppri => exact absurd rfl hs.2

/-! ### Runs -/

/-- A callback that the library may see in the state `s` after `calls`: a new job differs from the
others in its number and its arrival and can be compared with them, and the two other callbacks are
for a core that runs a job, the last one under round robin only. -/
def Call.Legal (scheme : Scheme) (calls : List Call) (s : Sched) : Call → Prop
  | .newJob n t r pr => ∀ x ∈ jobs calls, (x.1 ≠ n ∧ x.2.1 ≠ t) ∧
      Fits scheme (n, t, r, pr) x ∧ Fits scheme x (n, t, r, pr)
  | .jobFinished core _ _ => (jobOn core s).isSome
  | .quantumExpired core _ => scheme = .rr ∧ (jobOn core s).isSome

instance (scheme : Scheme) (calls : List Call) (s : Sched) :
    (c : Call) → Decidable (c.Legal scheme calls s)
  | .newJob _ _ _ _ => inferInstanceAs (Decidable (∀ x ∈ jobs calls, _))
  | .jobFinished _ _ _ => inferInstanceAs (Decidable (_ = true))
  | .quantumExpired _ _ => inferInstanceAs (Decidable (_ ∧ _))

/-- After `calls`, the latest first, the state is `s`. Times do not go back. -/
inductive Run (cores : ℕ) (scheme : Scheme) : List Call → Sched → Prop
  | startUp : Run cores scheme [] (schedulerStartUp cores scheme)
  | call {calls : List Call} {s s' : Sched} {c : Call} {res : ℤ} : Run cores scheme calls s →
      (∀ c' ∈ calls, c'.time ≤ c.time) → c.Legal scheme calls s → c.run s = some (res, s') →
        Run cores scheme (c :: calls) s'

variable {cores : ℕ} {scheme : Scheme} {calls : List Call} {s s' : Sched}

/-- A callback keeps the fixed fields and the remaining times. -/
theorem run_keeps (hw : Wf s) {c : Call} {res : ℤ} (hlegal : c.Legal scheme calls s)
    (h : c.run s = some (res, s')) : Keeps c.time s s' := by
  cases c with
  | newJob n t r pr =>
    simp only [Call.run, Option.some.injEq, Prod.ext_iff] at h
    obtain ⟨-, rfl⟩ := h
    exact newJob_keeps hw n t r pr
  | jobFinished core n t =>
    obtain ⟨p, hp⟩ := Option.isSome_iff_exists.mp hlegal
    exact (finished_call (n := n) hw hp h).2.2
  | quantumExpired core t =>
    obtain ⟨p, hp⟩ := Option.isSome_iff_exists.mp hlegal.2
    exact (expired_call hw hp h).2.2

/-- The callbacks determine the state. -/
theorem Run.unique (h : Run cores scheme calls s) : ∀ {s'}, Run cores scheme calls s' → s = s' := by
  induction h with
  | startUp =>
    intro s' h'
    cases h'
    rfl
  | call _ _ _ hrun ih =>
    intro s' h'
    obtain _ | ⟨h1, -, -, hrun'⟩ := h'
    rw [← ih h1, hrun, Option.some.injEq, Prod.mk.injEq] at hrun'
    exact hrun'.2

/-- The jobs that have a place are those that arrived, less the ones that ended. -/
theorem Run.ended (h : Run cores scheme calls s) : ∃ ended : List (ℤ × ℤ × ℤ × ℤ),
    Runs.Run cores scheme s ((jobs calls).map Prod.fst) (ended.map Prod.fst) ∧
      (statics s ++ ended).Perm (jobs calls) := by
  induction h with
  | startUp =>
    refine ⟨[], .startUp, ?_⟩
    simp [jobs, statics, places, schedulerStartUp, List.reduceOption_replicate_none]
  | @call calls s s' c res _ _ hlegal hres ih =>
    obtain ⟨ended, hr, hperm⟩ := ih
    have hwf := hr.account.wf
    cases c with
    | newJob n t r pr =>
      simp only [Call.run, Option.some.injEq, Prod.ext_iff] at hres
      obtain ⟨-, rfl⟩ := hres
      have hn : n ∉ (jobs calls).map Prod.fst := fun hn => by
        obtain ⟨x, hx, rfl⟩ := List.mem_map.mp hn
        exact (hlegal x hx).1.1 rfl
      exact ⟨ended, .newJob n t r pr hr hn,
        ((statics_newJob hwf n t r pr).append_right _).trans (hperm.cons _)⟩
    | jobFinished core n t =>
      obtain ⟨p, hp⟩ := Option.isSome_iff_exists.mp hlegal
      obtain ⟨-, hplaces, hk⟩ := finished_call (n := n) hwf hp hres
      exact ⟨static (s.heap p) :: ended, .jobFinished n t hr hp hres, List.perm_middle.trans
        (((statics_finished hwf hk hplaces).append_right _).trans hperm)⟩
    | quantumExpired core t =>
      obtain ⟨p, hp⟩ := Option.isSome_iff_exists.mp hlegal.2
      obtain ⟨-, hplaces, hk⟩ := expired_call hwf hp hres
      exact ⟨ended, .quantumExpired t hr hp hres,
        ((statics_expired hwf hk hplaces).append_right _).trans hperm⟩

theorem Run.wf (h : Run cores scheme calls s) : Wf s := by
  obtain ⟨_, hr, -⟩ := h.ended
  exact hr.account.wf

theorem Run.currentScheme (h : Run cores scheme calls s) : s.currentScheme = scheme := by
  obtain ⟨_, hr, -⟩ := h.ended
  exact hr.account.scheme

theorem Run.mem_jobs (h : Run cores scheme calls s) {p : ℕ} (hp : p ∈ places s) :
    static (s.heap p) ∈ jobs calls := by
  obtain ⟨_, -, hperm⟩ := h.ended
  exact hperm.mem_iff.mp (List.mem_append_left _ (List.mem_map_of_mem hp))

/-- Legal jobs differ in their arrivals. -/
theorem Run.arrivals (h : Run cores scheme calls s) :
    ((jobs calls).map fun x => x.2.1).Nodup := by
  induction h with
  | startUp => exact List.nodup_nil
  | @call calls s s' c res _ _ hlegal _ ih =>
    cases c with
    | newJob n t r pr =>
      refine List.nodup_cons.mpr ⟨fun hm => ?_, ih⟩
      obtain ⟨x, hx, he⟩ := List.mem_map.mp hm
      exact (hlegal x hx).1.2 he
    | jobFinished core n t => exact ih
    | quantumExpired core t => exact ih

/-- Two jobs with places have different arrivals. -/
theorem Run.arrival_inj (h : Run cores scheme calls s) {p q : ℕ} (hp : p ∈ places s)
    (hq : q ∈ places s) (he : (s.heap p).arrivalTime = (s.heap q).arrivalTime) : p = q := by
  obtain ⟨_, -, hperm⟩ := h.ended
  have hnd := (hperm.map fun x : ℤ × ℤ × ℤ × ℤ => x.2.1).nodup_iff.mpr h.arrivals
  rw [List.map_append, statics, List.map_map] at hnd
  exact List.inj_on_of_nodup_map (List.nodup_append.mp hnd).1 hp hq he

/-- Jobs that have arrived can be compared. -/
theorem Run.fits (h : Run cores scheme calls s) :
    ∀ x ∈ jobs calls, ∀ y ∈ jobs calls, x ≠ y → Fits scheme x y := by
  induction h with
  | startUp =>
    intro x hx
    simp [jobs] at hx
  | @call calls s s' c res _ _ hlegal _ ih =>
    cases c with
    | newJob n t r pr =>
      intro x hx y hy hne
      rcases List.mem_cons.mp (show x ∈ (n, t, r, pr) :: jobs calls from hx) with rfl | hx
      · rcases List.mem_cons.mp (show y ∈ _ :: jobs calls from hy) with rfl | hy
        · exact absurd rfl hne
        · exact (hlegal y hy).2.1
      · rcases List.mem_cons.mp (show y ∈ (n, t, r, pr) :: jobs calls from hy) with rfl | hy
        · exact (hlegal x hx).2.2
        · exact ih x hx y hy hne
    | jobFinished core n t => exact ih
    | quantumExpired core t => exact ih

/-- A job arrives with a callback. -/
theorem arrival_mem : ∀ x ∈ jobs calls, ∃ c ∈ calls, x.2.1 = c.time := by
  intro x hx
  obtain ⟨c, hc, hj⟩ := List.mem_filterMap.mp hx
  refine ⟨c, hc, ?_⟩
  cases c with
  | newJob n t r pr =>
    simp only [Call.job, Option.some.injEq] at hj
    rw [← hj]
    rfl
  | jobFinished core n t => simp [Call.job] at hj
  | quantumExpired core t => simp [Call.job] at hj

/-! ### The queue is sorted -/

/-- The queue is sorted, and under `SJF` nobody in it has run. -/
structure Waiting (scheme : Scheme) (s : Sched) : Prop where
  sorted : s.jobQueue.Pairwise fun p q =>
    order scheme (static (s.heap p)) < order scheme (static (s.heap q))
  whole : scheme = .sjf → ∀ p ∈ s.jobQueue, (s.heap p).remainingTime = (s.heap p).runningTime

namespace Waiting

theorem nil (h : s.jobQueue = []) : Waiting scheme s :=
  ⟨h ▸ List.Pairwise.nil, fun _ p hp => by simp [h] at hp⟩

/-- Only the records of the queued jobs matter. -/
theorem congr (h : Waiting scheme s) (hq : s'.jobQueue.Sublist s.jobQueue)
    (hh : ∀ p ∈ s'.jobQueue, static (s'.heap p) = static (s.heap p) ∧
      (s'.heap p).remainingTime = (s.heap p).remainingTime) : Waiting scheme s' := by
  refine ⟨(h.sorted.sublist hq).imp_of_mem fun hp hp' hlt => ?_, fun hs p hp => ?_⟩
  · rw [(hh _ hp).1, (hh _ hp').1]
    exact hlt
  · have hr : (s'.heap p).runningTime = (s.heap p).runningTime :=
      congrArg (fun x : ℤ × ℤ × ℤ × ℤ => x.2.2.1) (hh p hp).1
    rw [(hh p hp).2, hr]
    exact h.whole hs p (hq.subset hp)

/-- **`priqueue_offer` keeps the queue sorted.** -/
theorem offer (h : Waiting scheme s) (hs : Still scheme) (hsch : s.currentScheme = scheme) {p : ℕ}
    (hfit : ∀ q ∈ s.jobQueue, Fits scheme (static (s.heap p)) (static (s.heap q)))
    (hne : ∀ q ∈ s.jobQueue, (s.heap p).arrivalTime ≠ (s.heap q).arrivalTime)
    (hwhole : scheme = .sjf → (s.heap p).remainingTime = (s.heap p).runningTime) :
    Waiting scheme (offer p s) := by
  subst hsch
  have hcmp : ∀ q ∈ s.jobQueue, comparer s.currentScheme (s.heap p) (s.heap q) < 0 ↔
      order s.currentScheme (static (s.heap p)) < order s.currentScheme (static (s.heap q)) :=
    fun q hq => comparer_neg hs (hfit q hq) hwhole fun hsjf => h.whole hsjf q hq
  refine ⟨offer_pairwise (R := fun a b => order s.currentScheme (static (s.heap a)) <
    order s.currentScheme (static (s.heap b))) (fun _ _ _ => lt_trans) (fun q hq hlt => (hcmp q hq).mp hlt)
    (fun q hq hlt => ?_) h.sorted, fun hsjf q hq => ?_⟩
  · refine lt_of_le_of_ne (not_lt.mp fun hlt' => hlt ((hcmp q hq).mpr hlt')) fun he => ?_
    exact hne q hq (Prod.ext_iff.mp (toLex_inj.mp he)).2.symm
  · rcases List.mem_cons.mp ((offer_jobQueue s p).mem_iff.mp hq) with rfl | hq
    · exact hwhole hsjf
    · exact h.whole hsjf q hq

end Waiting

/-- Without preemption there is no victim. -/
theorem victim_still (hs : Still scheme) (hsch : s.currentScheme = scheme) (p : ℕ) :
    victim p s = none := by
  subst hsch
  exact if_neg (not_or.mpr hs)

/-- **What `scheduler_new_job` does** under a scheme that does not preempt. -/
theorem newJob_still (hs : Still scheme) (hsch : s.currentScheme = scheme) (n t r pr : ℤ) :
    (∃ c : ℕ, s.coreJobPtrs[c]? = some none ∧ (∀ c' < c, s.coreJobPtrs[c']? ≠ some none) ∧
      schedulerNewJob n t r pr s = ((c : ℤ), placeJobOnCore s.fresh c t (arrive n t r pr s))) ∨
    (none ∉ s.coreJobPtrs ∧
      schedulerNewJob n t r pr s = (-1, Model.offer s.fresh (arrive n t r pr s))) := by
  rcases newJob_cases n t r pr s with h | ⟨-, w, c, -, hv, -⟩ | ⟨hn, -, he⟩
  · exact Or.inl h
  · rw [victim_still (s := arrive n t r pr s) hs hsch] at hv
    simp at hv
  · exact Or.inr ⟨hn, he⟩

theorem Waiting.newJob (hs : Still scheme) (h : Waiting scheme s) (hw : Wf s)
    (hsch : s.currentScheme = scheme) {n t r pr : ℤ}
    (hnew : ∀ q ∈ s.jobQueue, (s.heap q).arrivalTime ≠ t ∧
      Fits scheme (n, t, r, pr) (static (s.heap q))) :
    Waiting scheme (schedulerNewJob n t r pr s).2 := by
  rcases newJob_still hs hsch n t r pr with ⟨c, hc, -, he⟩ | ⟨-, he⟩
  · rw [he]
    exact Waiting.nil (hw.busy (List.mem_of_getElem? hc))
  · rw [he]
    have hrec : (arrive n t r pr s).heap s.fresh = newJobRecord n t r pr := by
      rw [arrive_heap hw.toHeld, if_pos rfl]
    have hq : ∀ q ∈ s.jobQueue, (arrive n t r pr s).heap q = s.heap q :=
      fun q hq => arrive_queued hw n t r pr hq
    have ha : Waiting scheme (arrive n t r pr s) :=
      h.congr (List.Sublist.refl _) fun q hq' => by rw [hq q hq']; exact ⟨rfl, rfl⟩
    refine ha.offer hs hsch (fun q hq' => ?_) (fun q hq' => ?_) fun _ => by rw [hrec]; rfl
    · rw [hrec, hq q hq']
      exact (hnew q hq').2
    · rw [hrec, hq q hq']
      exact (hnew q hq').1.symm

/-- Taking a job off its core leaves the queue alone. -/
theorem Waiting.vacate (h : Waiting scheme s) (hw : Wf s) {p c : ℕ} {j : JobT}
    (hc : s.coreJobPtrs[c]? = some (some p)) : Waiting scheme (vacate p c j s) := by
  refine h.congr (List.Sublist.refl _) fun q hq => ?_
  rw [vacate_heap, if_neg (fun he : q = p => hw.not_queued hc (he ▸ hq))]
  exact ⟨rfl, rfl⟩

theorem Waiting.pollOnto (h : Waiting scheme s) (hnd : s.jobQueue.Nodup) (c : ℕ) (t : ℤ) :
    Waiting scheme (pollOnto c t s).2 := by
  rcases pollOnto_cases c t s with ⟨hq, he⟩ | ⟨next, q, hq, he⟩
  · rw [he]
    exact Waiting.nil hq
  · rw [he]
    rw [hq] at hnd
    refine h.congr (hq ▸ List.sublist_cons_self ..) fun p hp => ?_
    rw [place_heap, if_neg (fun hpn : p = next => (List.nodup_cons.mp hnd).1 (hpn ▸ hp))]
    exact ⟨rfl, rfl⟩

/-- **The queue is sorted along every run**, if the scheme does not preempt. -/
theorem Run.waiting (hs : Still scheme) (h : Run cores scheme calls s) : Waiting scheme s := by
  induction h with
  | startUp => exact Waiting.nil rfl
  | @call calls s s' c res hrun _ hlegal hres ih =>
    have hw := hrun.wf
    cases c with
    | newJob n t r pr =>
      simp only [Call.run, Option.some.injEq, Prod.ext_iff] at hres
      obtain ⟨-, rfl⟩ := hres
      refine ih.newJob hs hw hrun.currentScheme fun q hq => ?_
      obtain ⟨⟨-, hne⟩, hfit, -⟩ := hlegal _ (hrun.mem_jobs (mem_places_queue hq))
      exact ⟨hne, hfit⟩
    | jobFinished core n t =>
      obtain ⟨p, hp⟩ := Option.isSome_iff_exists.mp hlegal
      obtain ⟨-, hc⟩ := jobOn_eq hp
      rw [Call.run, finished_eq hp, Option.some.injEq, Prod.ext_iff] at hres
      obtain ⟨-, rfl⟩ := hres
      have hf : Waiting scheme (finish p core.toNat t s) :=
        (ih.vacate (j := finishRecord t (s.heap p)) hw hc).congr (List.Sublist.refl _)
          fun q _ => ⟨rfl, rfl⟩
      exact hf.pollOnto (finish_ready hw hc t).held.queue_nodup core.toNat t
    | quantumExpired core t =>
      obtain ⟨hrr, hlegal⟩ := hlegal
      obtain ⟨p, hp⟩ := Option.isSome_iff_exists.mp hlegal
      obtain ⟨-, hc⟩ := jobOn_eq hp
      rw [Call.run, expired_eq hp, Option.some.injEq, Prod.ext_iff] at hres
      obtain ⟨-, rfl⟩ := hres
      have he : Waiting scheme (expire p core.toNat t s) := by
        have hp' := mem_places_slot hc
        have hne : ∀ q ∈ s.jobQueue, q ≠ p := fun q hq he => hw.not_queued hc (he ▸ hq)
        refine (ih.vacate (j := expireRecord t (s.heap p)) hw hc).offer hs hrun.currentScheme
          (fun q hq => ?_) (fun q hq => ?_) fun hsjf => by simp [hrr] at hsjf
        · rw [vacate_heap, vacate_heap, if_pos rfl, if_neg (hne q hq)]
          refine hrun.fits _ (hrun.mem_jobs hp') _ (hrun.mem_jobs (mem_places_queue hq)) fun he => ?_
          exact hne q hq (hrun.arrival_inj (mem_places_queue hq) hp'
            (static_arrivalTime he).symm)
        · rw [vacate_heap, vacate_heap, if_pos rfl, if_neg (hne q hq)]
          exact fun he => hne q hq (hrun.arrival_inj (mem_places_queue hq) hp' he.symm)
      exact he.pollOnto (expire_ready hw hc t).held.queue_nodup core.toNat t

end Eecs678.Scheduler.History
