import Eecs678.Scheduler.Model
import Eecs678.Lib.Slots

/-!
# Every job is in one place

The places of a scheduler are the occupied slots and the queue nodes. One lemma for each callback
says how the places change (`newJob_spec`, `finished_spec`, `expired_spec`), with the invariant `Wf`
that the places are distinct, that `core_id` says where a job is, and that no core is idle while a
job waits. A callback is a few moves of a job between a core, the queue and the hand of the callback
(`Held`), and none of them changes the remaining time of a job (`Keeps`).
-/

namespace Eecs678.Scheduler.Places

open Eecs678.Lib.Slots Eecs678.Scheduler.Priqueue Eecs678.Scheduler.Model

/-- Job `p` is taken off core `c` with the record `j`. -/
def vacate (p c : ℕ) (j : JobT) (s : Sched) : Sched :=
  setJob p j { s with coreJobPtrs := s.coreJobPtrs.set c none }

/-! ### Fields after an update -/

section Fields
variable (s : Sched) (p q c : ℕ) (j : JobT) (t : ℤ)

@[simp] theorem setJob_coreJobPtrs : (setJob p j s).coreJobPtrs = s.coreJobPtrs := rfl
@[simp] theorem setJob_jobQueue : (setJob p j s).jobQueue = s.jobQueue := rfl
@[simp] theorem setJob_fresh : (setJob p j s).fresh = s.fresh := rfl
@[simp] theorem setJob_scheme : (setJob p j s).currentScheme = s.currentScheme := rfl
theorem setJob_heap : (setJob p j s).heap q = if q = p then j else s.heap q := by
  simp only [setJob, Function.update_apply]

@[simp] theorem offer_coreJobPtrs : (offer p s).coreJobPtrs = s.coreJobPtrs := rfl
@[simp] theorem offer_heap : (offer p s).heap = s.heap := rfl
@[simp] theorem offer_fresh : (offer p s).fresh = s.fresh := rfl
@[simp] theorem offer_scheme : (offer p s).currentScheme = s.currentScheme := rfl
theorem offer_jobQueue : (offer p s).jobQueue.Perm (p :: s.jobQueue) := offer_perm _ _

@[simp] theorem place_coreJobPtrs :
    (placeJobOnCore p c t s).coreJobPtrs = s.coreJobPtrs.set c (some p) := rfl
@[simp] theorem place_jobQueue : (placeJobOnCore p c t s).jobQueue = s.jobQueue := rfl
@[simp] theorem place_fresh : (placeJobOnCore p c t s).fresh = s.fresh := rfl
@[simp] theorem place_scheme : (placeJobOnCore p c t s).currentScheme = s.currentScheme := rfl
theorem place_heap : (placeJobOnCore p c t s).heap q = if q = p then { s.heap p with
    coreId := c
    lastScheduledTime := t
    startTime := if (s.heap p).startTime = -1 then t else (s.heap p).startTime } else s.heap q := by
  rw [placeJobOnCore, setJob_heap]

@[simp] theorem vacate_coreJobPtrs :
    (vacate p c j s).coreJobPtrs = s.coreJobPtrs.set c none := rfl
@[simp] theorem vacate_jobQueue : (vacate p c j s).jobQueue = s.jobQueue := rfl
@[simp] theorem vacate_fresh : (vacate p c j s).fresh = s.fresh := rfl
@[simp] theorem vacate_scheme : (vacate p c j s).currentScheme = s.currentScheme := rfl
theorem vacate_heap : (vacate p c j s).heap q = if q = p then j else s.heap q := by
  rw [vacate, setJob_heap]

@[simp] theorem alloc_coreJobPtrs : (allocJob j s).coreJobPtrs = s.coreJobPtrs := rfl
@[simp] theorem alloc_jobQueue : (allocJob j s).jobQueue = s.jobQueue := rfl
@[simp] theorem alloc_fresh : (allocJob j s).fresh = s.fresh + 1 := rfl
@[simp] theorem alloc_scheme : (allocJob j s).currentScheme = s.currentScheme := rfl
theorem alloc_heap : (allocJob j s).heap q = if q = s.fresh then j else s.heap q := by
  simp only [allocJob, setJob_heap]

@[simp] theorem update_coreJobPtrs :
    (updateRemainingTimes t s).coreJobPtrs = s.coreJobPtrs := rfl
@[simp] theorem update_jobQueue : (updateRemainingTimes t s).jobQueue = s.jobQueue := rfl
@[simp] theorem update_fresh : (updateRemainingTimes t s).fresh = s.fresh := rfl
@[simp] theorem update_scheme : (updateRemainingTimes t s).currentScheme = s.currentScheme := rfl

theorem elapse_elapse : (j.elapse t).elapse t = j.elapse t := by simp [JobT.elapse]

/-- **`update_remaining_times`** brings the records of the running jobs up to date. -/
theorem update_heap : (updateRemainingTimes t s).heap q =
    if some q ∈ s.coreJobPtrs then (s.heap q).elapse t else s.heap q := by
  unfold updateRemainingTimes
  simp only
  generalize s.coreJobPtrs = l, s.heap = h
  induction l generalizing h with
  | nil => rfl
  | cons x l ih =>
    rw [List.foldl_cons, ih]
    cases x with
    | none => simp
    | some p =>
      by_cases hqp : q = p
      · subst hqp
        simp [elapse_elapse]
      · simp [hqp]

end Fields

/-- The fields of a record that no callback changes. -/
def static (j : JobT) : ℤ × ℤ × ℤ × ℤ := (j.jobNumber, j.arrivalTime, j.runningTime, j.priority)

theorem static_arrivalTime {j : JobT} {x : ℤ × ℤ × ℤ × ℤ} (h : static j = x) : j.arrivalTime = x.2.1 :=
  congrArg (fun x : ℤ × ℤ × ℤ × ℤ => x.2.1) h

/-- The pointers in the slots and in the queue. -/
def places (s : Sched) : List ℕ := s.coreJobPtrs.reduceOption ++ s.jobQueue

/-- Jobs taken off their places during a callback are `hand`: with the places they are distinct and
refer to allocated records, and `core_id` says where a placed job is. -/
structure Held (hand : List ℕ) (s : Sched) : Prop where
  nodup : (hand ++ places s).Nodup
  fresh : ∀ p ∈ hand ++ places s, p < s.fresh
  core_id : ∀ (c p : ℕ), s.coreJobPtrs[c]? = some (some p) → (s.heap p).coreId = c
  queue_id : ∀ p ∈ s.jobQueue, (s.heap p).coreId = -1

/-- Between callbacks no job is in hand, and no core is idle while a job waits. -/
structure Wf (s : Sched) : Prop extends Held [] s where
  busy : none ∈ s.coreJobPtrs → s.jobQueue = []

theorem Wf.lt_fresh {s : Sched} (h : Wf s) {p : ℕ} (hp : p ∈ places s) : p < s.fresh := h.fresh p hp

theorem wf_startUp (cores : ℕ) (scheme : Scheme) : Wf (schedulerStartUp cores scheme) := by
  have hp : places (schedulerStartUp cores scheme) = [] := by
    simp [places, schedulerStartUp, List.reduceOption_replicate_none]
  refine ⟨⟨by simp [hp], by simp [hp], fun c p h => ?_, by simp [schedulerStartUp]⟩, fun _ => rfl⟩
  have := List.mem_of_getElem? h
  simp [schedulerStartUp] at this

theorem mem_places_slot {s : Sched} {c p : ℕ} (h : s.coreJobPtrs[c]? = some (some p)) :
    p ∈ places s := List.mem_append_left _ (mem_reduceOption h)

theorem mem_places_on {s : Sched} {p : ℕ} (h : some p ∈ s.coreJobPtrs) : p ∈ places s :=
  List.mem_append_left _ (List.reduceOption_mem_iff.mpr h)

theorem mem_places_queue {s : Sched} {p : ℕ} (h : p ∈ s.jobQueue) : p ∈ places s :=
  List.mem_append_right _ h

/-! ### The moves of a job -/

section Moves
variable {s : Sched} {hand : List ℕ} {p c : ℕ}

theorem place_perm (h : s.coreJobPtrs[c]? = some none) (t : ℤ) :
    (places (placeJobOnCore p c t s)).Perm (p :: places s) :=
  (reduceOption_fill h).append_right _

theorem offer_places : (places (offer p s)).Perm (p :: places s) :=
  ((offer_jobQueue _ _).append_left _).trans List.perm_middle

theorem vacate_perm (h : s.coreJobPtrs[c]? = some (some p)) (j : JobT) :
    (p :: places (vacate p c j s)).Perm (places s) :=
  (reduceOption_clear h).append_right _

theorem poll_perm {q : List ℕ} (h : s.jobQueue = p :: q) :
    (p :: places { s with jobQueue := q }).Perm (places s) := by
  rw [places, places, h]
  exact List.perm_middle.symm

namespace Held

theorem not_mem (h : Held (p :: hand) s) : p ∉ places s := fun hm =>
  (List.nodup_cons.mp h.nodup).1 (List.mem_append_right _ hm)

theorem slots_nodup (h : Held hand s) : s.coreJobPtrs.reduceOption.Nodup :=
  (List.nodup_append.mp (List.nodup_append.mp h.nodup).2.1).1

theorem queue_nodup (h : Held hand s) : s.jobQueue.Nodup :=
  (List.nodup_append.mp (List.nodup_append.mp h.nodup).2.1).2.1

/-- A job on a core is not in the queue. -/
theorem not_queued (h : Held hand s) (hp : s.coreJobPtrs[c]? = some (some p)) : p ∉ s.jobQueue :=
  fun hq => (List.nodup_append.mp (List.nodup_append.mp h.nodup).2.1).2.2 p (mem_reduceOption hp) p
    hq rfl

/-- A job in the queue is on no core. -/
theorem not_running (h : Held hand s) (hq : p ∈ s.jobQueue) : some p ∉ s.coreJobPtrs := fun hm => by
  obtain ⟨c, hc⟩ := List.mem_iff_getElem?.mp hm
  exact h.not_queued hc hq

theorem fresh_not_mem (h : Held hand s) : s.fresh ∉ places s := fun hp =>
  lt_irrefl _ (h.fresh _ (List.mem_append_right _ hp))

theorem fresh_not_slot (h : Held hand s) : some s.fresh ∉ s.coreJobPtrs := fun hp =>
  h.fresh_not_mem (mem_places_on hp)

theorem place (h : Held (p :: hand) s) (hc : s.coreJobPtrs[c]? = some none) (t : ℤ) :
    Held hand (placeJobOnCore p c t s) := by
  have hperm : (hand ++ places (placeJobOnCore p c t s)).Perm (p :: (hand ++ places s)) :=
    ((place_perm hc t).append_left _).trans List.perm_middle
  refine ⟨hperm.nodup_iff.mpr h.nodup, fun q hq => h.fresh q (hperm.mem_iff.mp hq),
    fun c' q hq => ?_, fun q hq => ?_⟩
  · rw [place_coreJobPtrs] at hq
    rw [place_heap]
    by_cases hcc : c' = c
    · subst hcc
      rw [List.getElem?_set_self (List.getElem?_eq_some_iff.mp hc).1] at hq
      simp only [Option.some.injEq] at hq
      rw [if_pos hq.symm]
    · rw [List.getElem?_set_ne (Ne.symm hcc)] at hq
      rw [if_neg (fun he : q = p => h.not_mem (he ▸ mem_places_slot hq)), h.core_id c' q hq]
  · rw [place_heap, if_neg (fun he : q = p => h.not_mem (he ▸ mem_places_queue hq)), h.queue_id q hq]

theorem offer (h : Held (p :: hand) s) (hid : (s.heap p).coreId = -1) : Held hand (offer p s) := by
  have hperm : (hand ++ places (Model.offer p s)).Perm (p :: (hand ++ places s)) :=
    (offer_places.append_left _).trans List.perm_middle
  refine ⟨hperm.nodup_iff.mpr h.nodup, fun q hq => h.fresh q (hperm.mem_iff.mp hq), h.core_id,
    fun q hq => ?_⟩
  rcases List.mem_cons.mp ((offer_jobQueue s p).mem_iff.mp hq) with rfl | hq
  · exact hid
  · exact h.queue_id q hq

theorem vacate (h : Held hand s) (hc : s.coreJobPtrs[c]? = some (some p)) (j : JobT) :
    Held (p :: hand) (vacate p c j s) := by
  have hperm : (p :: hand ++ places (Places.vacate p c j s)).Perm (hand ++ places s) :=
    List.perm_middle.symm.trans ((vacate_perm hc j).append_left _)
  have hnd := hperm.nodup_iff.mpr h.nodup
  have hp : p ∉ places (Places.vacate p c j s) := fun hm =>
    (List.nodup_cons.mp hnd).1 (List.mem_append_right _ hm)
  refine ⟨hnd, fun q hq => h.fresh q (hperm.mem_iff.mp hq), fun c' q hq => ?_, fun q hq => ?_⟩
  · rw [vacate_heap, if_neg (fun he : q = p => hp (he ▸ mem_places_slot hq))]
    rw [vacate_coreJobPtrs] at hq
    by_cases hcc : c' = c
    · subst hcc
      rw [List.getElem?_set_self (List.getElem?_eq_some_iff.mp hc).1] at hq
      simp at hq
    · rw [List.getElem?_set_ne (Ne.symm hcc)] at hq
      exact h.core_id c' q hq
  · rw [vacate_heap, if_neg (fun he : q = p => hp (he ▸ mem_places_queue hq))]
    exact h.queue_id q hq

theorem poll {q : List ℕ} (h : Held hand s) (hq : s.jobQueue = p :: q) :
    Held (p :: hand) { s with jobQueue := q } := by
  have hperm : (p :: hand ++ places { s with jobQueue := q }).Perm (hand ++ places s) :=
    List.perm_middle.symm.trans ((poll_perm hq).append_left _)
  exact ⟨hperm.nodup_iff.mpr h.nodup, fun r hr => h.fresh r (hperm.mem_iff.mp hr), h.core_id,
    fun r hr => h.queue_id r (hq ▸ List.mem_cons_of_mem _ hr)⟩

theorem drop (h : Held (p :: hand) s) : Held hand s :=
  ⟨(List.nodup_cons.mp h.nodup).2, fun q hq => h.fresh q (List.mem_cons_of_mem _ hq), h.core_id,
    h.queue_id⟩

end Held

end Moves

/-! ### The worst running job -/

theorem worstLoop_slot {cmp : JobT → JobT → ℤ} {heap : ℕ → JobT} : ∀ {l : List (Option ℕ)} {i : ℕ}
    {acc : Option (ℕ × ℕ)} {w c : ℕ}, worstLoop cmp heap l i acc = some (w, c) →
      acc = some (w, c) ∨ ∃ k : ℕ, l[k]? = some (some w) ∧ c = i + k
  | [], i, acc, w, c, h => Or.inl h
  | none :: l, i, acc, w, c, h => by
    rcases worstLoop_slot (l := l) h with h1 | ⟨k, hk, rfl⟩
    · exact Or.inl h1
    · exact Or.inr ⟨k + 1, hk, by omega⟩
  | some r :: l, i, none, w, c, h => by
    rcases worstLoop_slot (l := l) h with h1 | ⟨k, hk, rfl⟩
    · simp only [Option.some.injEq, Prod.mk.injEq] at h1
      obtain ⟨rfl, rfl⟩ := h1
      exact Or.inr ⟨0, rfl, rfl⟩
    · exact Or.inr ⟨k + 1, hk, by omega⟩
  | some r :: l, i, some (w', c'), w, c, h => by
    rcases worstLoop_slot (l := l) h with h1 | ⟨k, hk, rfl⟩
    · split_ifs at h1
      · simp only [Option.some.injEq, Prod.mk.injEq] at h1
        obtain ⟨rfl, rfl⟩ := h1
        exact Or.inr ⟨0, rfl, rfl⟩
      · exact Or.inl h1
    · exact Or.inr ⟨k + 1, hk, by omega⟩

theorem victim_slot {s : Sched} {p w c : ℕ} (h : victim p s = some (w, c)) :
    s.coreJobPtrs[c]? = some (some w) := by
  unfold victim at h
  split_ifs at h with h1
  split at h
  · simp at h
  · rename_i w' c' hw
    split_ifs at h with h2
    simp only [Option.some.injEq, Prod.mk.injEq] at h
    obtain ⟨rfl, rfl⟩ := h
    rcases worstLoop_slot hw with hacc | ⟨k, hk, rfl⟩
    · simp at hacc
    · rwa [Nat.zero_add]

/-! ### `scheduler_new_job` -/

/-- The state in which `scheduler_new_job` looks for a core. -/
def arrive (n t r pr : ℤ) (s : Sched) : Sched :=
  updateRemainingTimes t (allocJob (newJobRecord n t r pr) s)

/-- **What `scheduler_new_job` does**: it takes the first idle core, or preempts a running job, or
queues the new job. -/
theorem newJob_cases (n t r pr : ℤ) (s : Sched) :
    (∃ c : ℕ, s.coreJobPtrs[c]? = some none ∧ (∀ c' < c, s.coreJobPtrs[c']? ≠ some none) ∧
      schedulerNewJob n t r pr s = ((c : ℤ), placeJobOnCore s.fresh c t (arrive n t r pr s))) ∨
    (none ∉ s.coreJobPtrs ∧ ∃ w c : ℕ, s.coreJobPtrs[c]? = some (some w) ∧
      victim s.fresh (arrive n t r pr s) = some (w, c) ∧
      schedulerNewJob n t r pr s = ((c : ℤ), placeJobOnCore s.fresh c t (offer w
        (setJob w { (arrive n t r pr s).heap w with coreId := -1 } (arrive n t r pr s))))) ∨
    (none ∉ s.coreJobPtrs ∧ victim s.fresh (arrive n t r pr s) = none ∧
      schedulerNewJob n t r pr s = (-1, offer s.fresh (arrive n t r pr s))) := by
  have hs : (arrive n t r pr s).coreJobPtrs = s.coreJobPtrs := rfl
  unfold schedulerNewJob
  simp only
  rw [← arrive]
  cases hf : findIdleCore (arrive n t r pr s) with
  | some c =>
    left
    rw [findIdleCore, hs, List.findIdx?_eq_some_iff_getElem] at hf
    obtain ⟨hc, h1, h2⟩ := hf
    refine ⟨c, ?_, fun c' hc' he => ?_, rfl⟩
    · rw [List.getElem?_eq_getElem hc, Option.isNone_iff_eq_none.mp h1]
    · have hlt : c' < s.coreJobPtrs.length := by omega
      rw [List.getElem?_eq_getElem hlt, Option.some.injEq] at he
      exact h2 c' hc' (by rw [he]; rfl)
  | none =>
    right
    have hn : none ∉ s.coreJobPtrs := fun hm => by
      rw [findIdleCore, hs, List.findIdx?_eq_none_iff] at hf
      simpa using hf none hm
    cases hv : victim s.fresh (arrive n t r pr s) with
    | none => exact Or.inr ⟨hn, rfl, rfl⟩
    | some wc =>
      obtain ⟨w, c⟩ := wc
      exact Or.inl ⟨hn, w, c, hs ▸ victim_slot hv, rfl, rfl⟩

theorem arrive_heap {s : Sched} (h : Held [] s) (n t r pr : ℤ) (q : ℕ) :
    (arrive n t r pr s).heap q = if q = s.fresh then newJobRecord n t r pr
      else if some q ∈ s.coreJobPtrs then (s.heap q).elapse t else s.heap q := by
  rw [arrive, update_heap, alloc_heap, alloc_coreJobPtrs]
  by_cases hq : q = s.fresh
  · subst hq
    rw [if_neg h.fresh_not_slot, if_pos rfl, if_pos rfl]
  · rw [if_neg hq, if_neg hq]

/-- An arrival leaves the records of the queued jobs alone. -/
theorem arrive_queued {s : Sched} (h : Wf s) (n t r pr : ℤ) {q : ℕ} (hq : q ∈ s.jobQueue) :
    (arrive n t r pr s).heap q = s.heap q := by
  rw [arrive_heap h.toHeld, if_neg (h.lt_fresh (mem_places_queue hq)).ne, if_neg (h.not_running hq)]

@[simp] theorem arrive_coreJobPtrs (n t r pr : ℤ) (s : Sched) :
    (arrive n t r pr s).coreJobPtrs = s.coreJobPtrs := rfl
@[simp] theorem arrive_jobQueue (n t r pr : ℤ) (s : Sched) :
    (arrive n t r pr s).jobQueue = s.jobQueue := rfl
@[simp] theorem arrive_fresh (n t r pr : ℤ) (s : Sched) :
    (arrive n t r pr s).fresh = s.fresh + 1 := rfl

/-! ### What a callback keeps -/

/-- Whether an entry is in the array of the cores is decided with `==`. -/
instance lawfulBEq_coreJob : LawfulBEq (Option ℕ) := inferInstance

/-- The remaining time of a job at `t`: the record of a running job is not up to date. -/
def trueRemaining (t : ℤ) (s : Sched) (p : ℕ) : ℤ :=
  if some p ∈ s.coreJobPtrs then (s.heap p).remainingTime - (t - (s.heap p).lastScheduledTime)
  else (s.heap p).remainingTime

/-- A callback at `t` changes neither the fixed fields nor the remaining time of a job. -/
structure Keeps (t : ℤ) (s s' : Sched) : Prop where
  fresh : s.fresh ≤ s'.fresh
  scheme : s'.currentScheme = s.currentScheme
  length : s'.coreJobPtrs.length = s.coreJobPtrs.length
  static : ∀ q < s.fresh, static (s'.heap q) = static (s.heap q)
  remaining : ∀ q < s.fresh, trueRemaining t s' q = trueRemaining t s q

namespace Keeps

variable {t : ℤ} {s s' s'' : Sched} {hand : List ℕ}

theorem refl : Keeps t s s := ⟨le_refl _, rfl, rfl, fun _ _ => rfl, fun _ _ => rfl⟩

theorem trans (h : Keeps t s s') (h' : Keeps t s' s'') : Keeps t s s'' :=
  ⟨h.fresh.trans h'.fresh, h'.scheme.trans h.scheme, h'.length.trans h.length,
    fun q hq => (h'.static q (lt_of_lt_of_le hq h.fresh)).trans (h.static q hq),
    fun q hq => (h'.remaining q (lt_of_lt_of_le hq h.fresh)).trans (h.remaining q hq)⟩

theorem arrivalTime (h : Keeps t s s') {p : ℕ} (hp : p < s.fresh) :
    (s'.heap p).arrivalTime = (s.heap p).arrivalTime := static_arrivalTime (h.static p hp)

/-- A job of no core moves onto an empty one. -/
theorem place {p c : ℕ} (hp : some p ∉ s.coreJobPtrs) (hc : s.coreJobPtrs[c]? = some none) :
    Keeps t s (placeJobOnCore p c t s) := by
  have hmem : ∀ q : ℕ, some q ∈ s.coreJobPtrs.set c (some p) ↔ q = p ∨ some q ∈ s.coreJobPtrs := by
    intro q
    simp only [← List.reduceOption_mem_iff, (reduceOption_fill hc).mem_iff, List.mem_cons]
  refine ⟨le_refl _, rfl, by simp, fun q _ => ?_, fun q _ => ?_⟩
  · rw [place_heap]
    by_cases hqp : q = p
    · rw [if_pos hqp, hqp]
      rfl
    · rw [if_neg hqp]
  · unfold trueRemaining
    rw [place_heap, place_coreJobPtrs]
    by_cases hqp : q = p
    · subst hqp
      rw [if_pos ((hmem q).mpr (Or.inl rfl)), if_neg hp, if_pos rfl]
      simp only [sub_self, sub_zero]
    · simp only [hmem, hqp, false_or, if_false]

/-- A running job leaves its core with an up-to-date record. -/
theorem vacate (h : Held hand s) {p c : ℕ} {j : JobT} (hc : s.coreJobPtrs[c]? = some (some p))
    (hs : Places.static j = Places.static (s.heap p))
    (hj : j.remainingTime = (s.heap p).remainingTime - (t - (s.heap p).lastScheduledTime)) :
    Keeps t s (vacate p c j s) := by
  have hmem : ∀ q : ℕ, some q ∈ s.coreJobPtrs.set c none ↔ q ≠ p ∧ some q ∈ s.coreJobPtrs := by
    intro q
    have hp : p ∉ (s.coreJobPtrs.set c none).reduceOption :=
      (List.nodup_cons.mp ((reduceOption_clear hc).nodup_iff.mpr h.slots_nodup)).1
    rw [← List.reduceOption_mem_iff, ← List.reduceOption_mem_iff, ← (reduceOption_clear hc).mem_iff,
      List.mem_cons]
    exact ⟨fun hq => ⟨fun he => hp (he ▸ hq), Or.inr hq⟩, fun hq => hq.2.resolve_left hq.1⟩
  refine ⟨le_refl _, rfl, by simp, fun q _ => ?_, fun q _ => ?_⟩
  · rw [vacate_heap]
    by_cases hqp : q = p
    · rw [if_pos hqp, hqp, hs]
    · rw [if_neg hqp]
  · unfold trueRemaining
    rw [vacate_heap, vacate_coreJobPtrs]
    by_cases hqp : q = p
    · subst hqp
      rw [if_neg (fun hm => ((hmem q).mp hm).1 rfl), if_pos rfl, if_pos (List.mem_of_getElem? hc), hj]
    · rw [if_neg hqp]
      simp only [hmem, ne_eq, hqp, not_false_eq_true, true_and]

/-- Only the queue, the statistics or nothing changes. -/
theorem of_eq (hf : s'.fresh = s.fresh) (hs : s'.currentScheme = s.currentScheme)
    (hc : s'.coreJobPtrs = s.coreJobPtrs) (hh : s'.heap = s.heap) : Keeps t s s' :=
  ⟨hf.ge, hs, by rw [hc], fun q _ => by rw [hh], fun q _ => by rw [trueRemaining, hh, hc]; rfl⟩

theorem offer (p : ℕ) : Keeps t s (offer p s) := of_eq rfl rfl rfl rfl

theorem arrive (h : Held [] s) (n r pr : ℤ) : Keeps t s (arrive n t r pr s) := by
  refine ⟨Nat.le_succ _, rfl, rfl, fun q hq => ?_, fun q hq => ?_⟩
  · rw [arrive_heap h, if_neg hq.ne]
    split_ifs <;> rfl
  · unfold trueRemaining
    rw [arrive_heap h, if_neg hq.ne, arrive_coreJobPtrs]
    split_ifs <;> simp [JobT.elapse]

end Keeps

/-! ### `scheduler_new_job` -/

/-- Preempting `w` is taking it off its core before `p` is placed there. -/
theorem place_offer_vacate (p w c : ℕ) (t : ℤ) (j : JobT) (s : Sched) :
    placeJobOnCore p c t (offer w (vacate w c j s)) =
      placeJobOnCore p c t (offer w (setJob w j s)) := by
  simp only [placeJobOnCore, vacate, Model.setJob, offer, List.set_set]
  rfl

theorem arrive_coreId {s : Sched} (h : Held [] s) (n t r pr : ℤ) {q : ℕ} (hq : q ∈ places s) :
    ((arrive n t r pr s).heap q).coreId = (s.heap q).coreId := by
  rw [arrive_heap h, if_neg (fun he : q = s.fresh => h.fresh_not_mem (he ▸ hq))]
  split_ifs <;> rfl

theorem held_arrive {s : Sched} (h : Held [] s) (n t r pr : ℤ) :
    Held [s.fresh] (arrive n t r pr s) := by
  refine ⟨List.nodup_cons.mpr ⟨h.fresh_not_mem, h.nodup⟩, fun q hq => ?_, fun c q hq => ?_,
    fun q hq => ?_⟩
  · rw [arrive_fresh]
    rcases List.mem_cons.mp hq with rfl | hq
    · omega
    · have := h.fresh q hq
      omega
  · rw [arrive_coreId h _ _ _ _ (mem_places_slot hq)]
    exact h.core_id c q hq
  · rw [arrive_coreId h _ _ _ _ (mem_places_queue hq)]
    exact h.queue_id q hq

/-- **`scheduler_new_job` adds one place**, the one of the new job. -/
theorem newJob_spec {s : Sched} (h : Wf s) (n t r pr : ℤ) :
    Wf (schedulerNewJob n t r pr s).2 ∧
      (places (schedulerNewJob n t r pr s).2).Perm (s.fresh :: places s) ∧
      Keeps t (arrive n t r pr s) (schedulerNewJob n t r pr s).2 := by
  have ha := held_arrive h.toHeld n t r pr
  have hnew : (arrive n t r pr s).heap s.fresh = newJobRecord n t r pr := by
    rw [arrive_heap h.toHeld, if_pos rfl]
  rcases newJob_cases n t r pr s with ⟨c, hc, -, he⟩ | ⟨hn, w, c, hc, -, he⟩ | ⟨hn, -, he⟩
  · rw [he]
    refine ⟨⟨ha.place hc t, fun _ => h.busy (List.mem_of_getElem? hc)⟩, place_perm hc t,
      Keeps.place h.fresh_not_slot hc⟩
  · -- the job to preempt is taken off its core and queued, then the new job gets the core
    rw [he, ← place_offer_vacate]
    have hempty : (s.coreJobPtrs.set c none)[c]? = some none :=
      List.getElem?_set_self (List.getElem?_eq_some_iff.mp hc).1
    have hw : w ≠ s.fresh := fun hw => h.fresh_not_mem (hw ▸ mem_places_slot hc)
    have hlast : ((arrive n t r pr s).heap w).lastScheduledTime = t := by
      rw [arrive_heap h.toHeld, if_neg hw, if_pos (List.mem_of_getElem? hc)]
      rfl
    have hv := Held.vacate (s := arrive n t r pr s) ha hc
      { (arrive n t r pr s).heap w with coreId := -1 }
    have ho := (hv.offer (by rw [vacate_heap, if_pos rfl])).place hempty t
    refine ⟨⟨ho, fun hm => ?_⟩, ?_, ?_⟩
    · rw [place_coreJobPtrs, offer_coreJobPtrs, vacate_coreJobPtrs, List.set_set] at hm
      rcases List.mem_or_eq_of_mem_set hm with hm | hm
      · exact absurd hm hn
      · simp at hm
    · exact (place_perm hempty t).trans (List.Perm.cons _ (offer_places.trans
        (vacate_perm (s := arrive n t r pr s) hc { (arrive n t r pr s).heap w with coreId := -1 })))
    · refine (Keeps.vacate (j := { (arrive n t r pr s).heap w with coreId := -1 }) ha hc rfl
        (by simp [hlast])).trans ?_
      refine (Keeps.offer w).trans (Keeps.place ?_ hempty)
      exact fun hm => (List.mem_or_eq_of_mem_set hm).elim h.fresh_not_slot (by simp)
  · rw [he]
    exact ⟨⟨ha.offer (by rw [hnew]; rfl), fun hm => absurd hm hn⟩, offer_places,
      Keeps.offer _⟩

theorem newJob_keeps {s : Sched} (h : Wf s) (n t r pr : ℤ) :
    Keeps t s (schedulerNewJob n t r pr s).2 :=
  (Keeps.arrive h.toHeld n r pr).trans (newJob_spec h n t r pr).2.2

/-- The new job has the fields of the call and all its running time left. -/
theorem newJob_new {s : Sched} (h : Wf s) (n t r pr : ℤ) :
    static ((schedulerNewJob n t r pr s).2.heap s.fresh) = (n, t, r, pr) ∧
      trueRemaining t (schedulerNewJob n t r pr s).2 s.fresh = r := by
  have hk := (newJob_spec h n t r pr).2.2
  have hlt : s.fresh < (arrive n t r pr s).fresh := Nat.lt_succ_self _
  have hnew : (arrive n t r pr s).heap s.fresh = newJobRecord n t r pr := by
    rw [arrive_heap h.toHeld, if_pos rfl]
  rw [hk.static _ hlt, hk.remaining _ hlt, trueRemaining, hnew, arrive_coreJobPtrs,
    if_neg h.fresh_not_slot]
  exact ⟨rfl, rfl⟩

/-! ### `scheduler_job_finished` and `scheduler_quantum_expired` -/

theorem jobOn_eq {core : ℤ} {s : Sched} {p : ℕ} (h : jobOn core s = some p) :
    0 ≤ core ∧ s.coreJobPtrs[core.toNat]? = some (some p) := by
  unfold jobOn at h
  split_ifs at h with h0
  exact ⟨h0, Option.join_eq_some_iff.mp h⟩

/-- **What the end of the two callbacks does.** -/
theorem pollOnto_cases (c : ℕ) (t : ℤ) (s : Sched) :
    (s.jobQueue = [] ∧ pollOnto c t s = (-1, s)) ∨
    ∃ (next : ℕ) (q : List ℕ), s.jobQueue = next :: q ∧ pollOnto c t s =
      ((s.heap next).jobNumber, placeJobOnCore next c t { s with jobQueue := q }) := by
  unfold pollOnto
  cases hq : s.jobQueue with
  | nil => exact Or.inl ⟨rfl, rfl⟩
  | cons next q => exact Or.inr ⟨next, q, rfl, rfl⟩

/-- A callback is ready to poll for core `c`, the only one that may be idle while a job waits. -/
structure Ready (c : ℕ) (s : Sched) : Prop where
  held : Held [] s
  empty : s.coreJobPtrs[c]? = some none
  busy : ∀ c', c' ≠ c → s.coreJobPtrs[c']? = some none → s.jobQueue.length ≤ 1

/-- The next job moves from the queue onto the core. -/
theorem pollOnto_spec {s : Sched} {c : ℕ} (hr : Ready c s) (t : ℤ) :
    Wf (pollOnto c t s).2 ∧ (places (pollOnto c t s).2).Perm (places s) ∧
      Keeps t s (pollOnto c t s).2 := by
  obtain ⟨h, hc, hb⟩ := hr
  rcases pollOnto_cases c t s with ⟨hq, he⟩ | ⟨next, q, hq, he⟩
  · rw [he]
    exact ⟨⟨h, fun _ => hq⟩, List.Perm.refl _, Keeps.refl⟩
  · rw [he]
    have hp := h.poll hq
    refine ⟨⟨hp.place hc t, fun hm => ?_⟩,
      (place_perm (s := { s with jobQueue := q }) hc t).trans (poll_perm hq), ?_⟩
    · obtain ⟨c', hc'⟩ := List.mem_iff_getElem?.mp hm
      rw [place_coreJobPtrs] at hc'
      have hne : c' ≠ c := by
        rintro rfl
        rw [List.getElem?_set_self (List.getElem?_eq_some_iff.mp hc).1] at hc'
        simp at hc'
      rw [List.getElem?_set_ne hne.symm] at hc'
      have hlen := hb c' hne hc'
      rw [hq, List.length_cons] at hlen
      have hq0 : q = [] := List.eq_nil_of_length_eq_zero (by omega)
      exact hq0
    · have hnext : some next ∉ s.coreJobPtrs := fun hm => by
        obtain ⟨c', hc'⟩ := List.mem_iff_getElem?.mp hm
        exact h.not_queued hc' (hq ▸ List.mem_cons_self ..)
      have hq' : Keeps t s { s with jobQueue := q } := Keeps.of_eq rfl rfl rfl rfl
      exact hq'.trans (Keeps.place hnext hc)

/-- The record of a job that finishes at `t`. -/
def finishRecord (t : ℤ) (j : JobT) : JobT := { j.elapse t with finishTime := t }

/-- The record of a job whose quantum ends at `t`. -/
def expireRecord (t : ℤ) (j : JobT) : JobT := { j.elapse t with coreId := -1 }

/-- The state in which `scheduler_job_finished` polls the queue. -/
def finish (p c : ℕ) (t : ℤ) (s : Sched) : Sched :=
  accumulateStats (finishRecord t (s.heap p)) (vacate p c (finishRecord t (s.heap p)) s)

/-- The state in which `scheduler_quantum_expired` polls the queue. -/
def expire (p c : ℕ) (t : ℤ) (s : Sched) : Sched :=
  offer p (vacate p c (expireRecord t (s.heap p)) s)

theorem finished_eq {core : ℤ} {s : Sched} {p : ℕ} (h : jobOn core s = some p) (n t : ℤ) :
    schedulerJobFinished core n t s = some (pollOnto core.toNat t (finish p core.toNat t s)) := by
  unfold schedulerJobFinished
  rw [h]
  simp only [setJob_heap, if_true]
  rfl

theorem expired_eq {core : ℤ} {s : Sched} {p : ℕ} (h : jobOn core s = some p) (t : ℤ) :
    schedulerQuantumExpired core t s = some (pollOnto core.toNat t (expire p core.toNat t s)) := by
  unfold schedulerQuantumExpired
  rw [h]
  rfl

/-- The state after a callback that has returned. -/
theorem finished_state {core n t r : ℤ} {s s' : Sched} {p : ℕ} (h : jobOn core s = some p)
    (he : schedulerJobFinished core n t s = some (r, s')) :
    s' = (pollOnto core.toNat t (finish p core.toNat t s)).2 := by
  rw [finished_eq h, Option.some.injEq] at he
  exact (congrArg Prod.snd he).symm

theorem expired_state {core t r : ℤ} {s s' : Sched} {p : ℕ} (h : jobOn core s = some p)
    (he : schedulerQuantumExpired core t s = some (r, s')) :
    s' = (pollOnto core.toNat t (expire p core.toNat t s)).2 := by
  rw [expired_eq h, Option.some.injEq] at he
  exact (congrArg Prod.snd he).symm

theorem keeps_finish {s : Sched} (h : Wf s) {p c : ℕ} (hc : s.coreJobPtrs[c]? = some (some p))
    (t : ℤ) : Keeps t s (finish p c t s) := by
  have hv : Keeps t s (vacate p c (finishRecord t (s.heap p)) s) :=
    Keeps.vacate h.toHeld hc rfl rfl
  exact hv.trans (Keeps.of_eq rfl rfl rfl rfl)

theorem keeps_expire {s : Sched} (h : Wf s) {p c : ℕ} (hc : s.coreJobPtrs[c]? = some (some p))
    (t : ℤ) : Keeps t s (expire p c t s) := by
  have hv : Keeps t s (vacate p c (expireRecord t (s.heap p)) s) :=
    Keeps.vacate h.toHeld hc rfl rfl
  exact hv.trans (Keeps.offer p)

/-- A slot other than the one cleared is idle only if it was. -/
theorem idle_of_set {l : List (Option ℕ)} {c c' : ℕ} (hne : c' ≠ c)
    (h : (l.set c none)[c']? = some none) : none ∈ l := by
  rw [List.getElem?_set_ne hne.symm] at h
  exact List.mem_of_getElem? h

theorem finish_ready {s : Sched} (h : Wf s) {p c : ℕ} (hc : s.coreJobPtrs[c]? = some (some p))
    (t : ℤ) : Ready c (finish p c t s) := by
  refine ⟨?_, List.getElem?_set_self (List.getElem?_eq_some_iff.mp hc).1, fun c' hne hc' => ?_⟩
  · obtain ⟨hnd, hfr, hci, hqi⟩ := (h.toHeld.vacate hc (finishRecord t (s.heap p))).drop
    exact ⟨hnd, hfr, hci, hqi⟩
  · have hq : (finish p c t s).jobQueue = [] := h.busy (idle_of_set hne hc')
    rw [hq]
    exact Nat.zero_le _

theorem expire_ready {s : Sched} (h : Wf s) {p c : ℕ} (hc : s.coreJobPtrs[c]? = some (some p))
    (t : ℤ) : Ready c (expire p c t s) := by
  refine ⟨?_, List.getElem?_set_self (List.getElem?_eq_some_iff.mp hc).1, fun c' hne hc' => ?_⟩
  · exact (h.toHeld.vacate hc (expireRecord t (s.heap p))).offer
      (by rw [vacate_heap, if_pos rfl]; rfl)
  · have hq : s.jobQueue = [] := h.busy (idle_of_set hne hc')
    have hlen := (offer_jobQueue (vacate p c (expireRecord t (s.heap p)) s) p).length_eq
    rw [vacate_jobQueue, hq] at hlen
    exact hlen.le

/-- **`scheduler_job_finished` removes one place**, the one of the job on the core. -/
theorem finished_spec {s : Sched} (h : Wf s) {core : ℤ} {p : ℕ} (hp : jobOn core s = some p)
    (n t : ℤ) : ∃ (r : ℤ) (s' : Sched), schedulerJobFinished core n t s = some (r, s') ∧ Wf s' ∧
      (p :: places s').Perm (places s) ∧ Keeps t s s' := by
  obtain ⟨-, hc⟩ := jobOn_eq hp
  obtain ⟨hw, hperm, hk⟩ := pollOnto_spec (finish_ready h hc t) t
  have hv := vacate_perm hc (finishRecord t (s.heap p))
  exact ⟨_, _, finished_eq hp n t, hw, (hperm.cons p).trans hv, (keeps_finish h hc t).trans hk⟩

/-- **`scheduler_quantum_expired` keeps the places.** -/
theorem expired_spec {s : Sched} (h : Wf s) {core : ℤ} {p : ℕ} (hp : jobOn core s = some p)
    (t : ℤ) : ∃ (r : ℤ) (s' : Sched), schedulerQuantumExpired core t s = some (r, s') ∧ Wf s' ∧
      (places s').Perm (places s) ∧ Keeps t s s' := by
  obtain ⟨-, hc⟩ := jobOn_eq hp
  obtain ⟨hw, hperm, hk⟩ := pollOnto_spec (expire_ready h hc t) t
  exact ⟨_, _, expired_eq hp t, hw, hperm.trans (offer_places.trans (vacate_perm hc _)),
    (keeps_expire h hc t).trans hk⟩

/-! What has changed when a callback has returned. -/

theorem finished_call {s s' : Sched} (h : Wf s) {core n t r : ℤ} {p : ℕ} (hp : jobOn core s = some p)
    (he : schedulerJobFinished core n t s = some (r, s')) :
    Wf s' ∧ (p :: places s').Perm (places s) ∧ Keeps t s s' := by
  obtain ⟨_, _, he', hspec⟩ := finished_spec h hp n t
  rw [he, Option.some.injEq, Prod.mk.injEq] at he'
  obtain ⟨-, rfl⟩ := he'
  exact hspec

theorem expired_call {s s' : Sched} (h : Wf s) {core t r : ℤ} {p : ℕ} (hp : jobOn core s = some p)
    (he : schedulerQuantumExpired core t s = some (r, s')) :
    Wf s' ∧ (places s').Perm (places s) ∧ Keeps t s s' := by
  obtain ⟨_, _, he', hspec⟩ := expired_spec h hp t
  rw [he, Option.some.injEq, Prod.mk.injEq] at he'
  obtain ⟨-, rfl⟩ := he'
  exact hspec

end Eecs678.Scheduler.Places
