import Eecs678.Scheduler.Table

/-!
# The start times

`place_job_on_core` writes `start_time` when it is still `-1`. So a callback at `t` leaves the start time
of each record, or sets it from `-1` to `t` (`Starts`), and a job that is on a core has one (`Begun`).
-/

namespace Eecs678.Scheduler.StartTimes

open Eecs678.Lib.Slots Eecs678.Scheduler.Model Eecs678.Scheduler.Places Eecs678.Scheduler.Runs
open Eecs678.Scheduler.Table

/-- Each start time is kept, or set for the first time. -/
def Starts (t : ℤ) (s s' : Sched) : Prop :=
  ∀ q < s.fresh, (s'.heap q).startTime = (s.heap q).startTime ∨
    (s.heap q).startTime = -1 ∧ (s'.heap q).startTime = t

/-- The jobs on the cores have a start time. -/
def Begun (s : Sched) : Prop := ∀ q, some q ∈ s.coreJobPtrs → (s.heap q).startTime ≠ -1

variable {t : ℤ} {s s' s'' : Sched} {p c : ℕ}

theorem Starts.of_eq (h : ∀ q < s.fresh, (s'.heap q).startTime = (s.heap q).startTime) : Starts t s s' :=
  fun q hq => Or.inl (h q hq)

theorem Starts.trans (h : Starts t s s') (h' : Starts t s' s'') (hf : s.fresh ≤ s'.fresh) :
    Starts t s s'' := by
  intro q hq
  rcases h q hq with he | ⟨h1, he⟩
  · rw [← he]
    exact h' q (lt_of_lt_of_le hq hf)
  · rcases h' q (lt_of_lt_of_le hq hf) with he' | ⟨-, he'⟩
    · exact Or.inr ⟨h1, he'.trans he⟩
    · exact Or.inr ⟨h1, he'⟩

theorem Starts.place (p c : ℕ) (t : ℤ) (s : Sched) : Starts t s (placeJobOnCore p c t s) := by
  intro q _
  rw [place_heap]
  by_cases hq : q = p
  · subst hq
    rw [if_pos rfl]
    simp only
    split_ifs with h1
    · exact Or.inr ⟨h1, rfl⟩
    · exact Or.inl rfl
  · rw [if_neg hq]
    exact Or.inl rfl

/-- A job that gets a core has a start time. -/
theorem Begun.place (h : Begun s) (ht : t ≠ -1) : Begun (placeJobOnCore p c t s) := by
  intro q hq
  rw [place_heap]
  by_cases hqp : q = p
  · subst hqp
    rw [if_pos rfl]
    simp only
    split_ifs with h1
    · exact ht
    · exact h1
  · rw [if_neg hqp]
    exact h q ((List.mem_or_eq_of_mem_set hq).resolve_right fun he => hqp (Option.some.inj he))

/-- A job is taken off its core and its record brought up to date. -/
theorem vacate_starts {j : JobT} (hj : j.startTime = (s.heap p).startTime) :
    Starts t s (vacate p c j s) :=
  Starts.of_eq fun q _ => by
    rw [vacate_heap]
    split_ifs with hq
    · rw [hj, hq]
    · rfl

theorem begun_vacate {j : JobT} (hj : j.startTime = (s.heap p).startTime) (hb : Begun s) :
    Begun (vacate p c j s) := by
  intro q hq
  have hmem : some q ∈ s.coreJobPtrs :=
    (List.mem_or_eq_of_mem_set hq).resolve_right (by simp)
  rw [vacate_heap]
  split_ifs with hqp
  · rw [hj, ← hqp]
    exact hb q hmem
  · exact hb q hmem

/-! ### The callbacks -/

theorem starts_arrive (h : Held [] s) (n r pr : ℤ) : Starts t s (arrive n t r pr s) :=
  Starts.of_eq fun q hq => by
    rw [arrive_heap h, if_neg hq.ne]
    split_ifs <;> rfl

theorem starts_newJob (n t r pr : ℤ) (s : Sched) :
    Starts t (arrive n t r pr s) (schedulerNewJob n t r pr s).2 := by
  rcases newJob_cases n t r pr s with ⟨c, -, -, he⟩ | ⟨-, w, c, -, -, he⟩ | ⟨-, -, he⟩
  · rw [he]
    exact Starts.place _ _ _ _
  · rw [he, ← place_offer_vacate]
    have hv : Starts t (arrive n t r pr s) (offer w
        (vacate w c { (arrive n t r pr s).heap w with coreId := -1 } (arrive n t r pr s))) :=
      vacate_starts rfl
    exact hv.trans (Starts.place _ _ _ _) le_rfl
  · rw [he]
    exact Starts.of_eq fun q _ => rfl

/-- The new job starts if it gets a core. -/
theorem newJob_start (h : Wf s) (n t r pr : ℤ) :
    ((schedulerNewJob n t r pr s).2.heap s.fresh).startTime =
      if some s.fresh ∈ (schedulerNewJob n t r pr s).2.coreJobPtrs then t else -1 := by
  have hnew : (arrive n t r pr s).heap s.fresh = newJobRecord n t r pr := by
    rw [arrive_heap h.toHeld, if_pos rfl]
  rcases newJob_cases n t r pr s with ⟨c, hc, -, he⟩ | ⟨-, w, c, hc, -, he⟩ | ⟨-, -, he⟩
  · have hon : some s.fresh ∈ (schedulerNewJob n t r pr s).2.coreJobPtrs := by
      rw [he]
      exact List.mem_set (List.getElem?_eq_some_iff.mp hc).1 _
    rw [if_pos hon, he, place_heap, if_pos rfl, hnew]
    rfl
  · have hon : some s.fresh ∈ (schedulerNewJob n t r pr s).2.coreJobPtrs := by
      rw [he]
      exact List.mem_set (List.getElem?_eq_some_iff.mp hc).1 _
    have hw : s.fresh ≠ w := fun hw => h.fresh_not_mem (hw ▸ mem_places_slot hc)
    rw [if_pos hon, he, place_heap, if_pos rfl, offer_heap, setJob_heap, if_neg hw, hnew]
    rfl
  · have hoff : some s.fresh ∉ (schedulerNewJob n t r pr s).2.coreJobPtrs := by
      rw [he]
      exact h.fresh_not_slot
    rw [if_neg hoff, he, offer_heap, hnew]
    rfl

theorem begun_newJob (h : Wf s) (hb : Begun s) (n r pr : ℤ) (ht : t ≠ -1) :
    Begun (schedulerNewJob n t r pr s).2 := by
  have harrive : Begun (arrive n t r pr s) := fun q hq => by
    have hne : q ≠ s.fresh := fun he => h.fresh_not_slot (he ▸ hq)
    rw [arrive_heap h.toHeld, if_neg hne, if_pos (show some q ∈ s.coreJobPtrs from hq)]
    exact hb q hq
  rcases newJob_cases n t r pr s with ⟨c, -, -, he⟩ | ⟨-, w, c, -, -, he⟩ | ⟨-, -, he⟩
  · rw [he]
    exact harrive.place ht
  · rw [he, ← place_offer_vacate]
    have hv : Begun (offer w
        (vacate w c { (arrive n t r pr s).heap w with coreId := -1 } (arrive n t r pr s))) :=
      begun_vacate rfl harrive
    exact hv.place ht
  · rw [he]
    exact harrive

theorem starts_pollOnto (c : ℕ) (t : ℤ) (s : Sched) : Starts t s (pollOnto c t s).2 := by
  rcases pollOnto_cases c t s with ⟨-, he⟩ | ⟨next, q, -, he⟩
  · rw [he]
    exact Starts.of_eq fun _ _ => rfl
  · rw [he]
    exact Starts.place next c t { s with jobQueue := q }

theorem begun_pollOnto (hb : Begun s) (ht : t ≠ -1) : Begun (pollOnto c t s).2 := by
  rcases pollOnto_cases c t s with ⟨-, he⟩ | ⟨next, q, -, he⟩
  · rwa [he]
  · rw [he]
    exact Begun.place (s := { s with jobQueue := q }) hb ht

theorem finished_starts {core n r : ℤ} (h : schedulerJobFinished core n t s = some (r, s')) :
    Starts t s s' := by
  obtain ⟨p, hp⟩ := finished_jobOn h
  obtain rfl := finished_state hp h
  have hv : Starts t s (finish p core.toNat t s) :=
    vacate_starts (j := finishRecord t (s.heap p)) (c := core.toNat) rfl
  exact hv.trans (starts_pollOnto _ _ _) le_rfl

theorem finished_begun {core n r : ℤ} (h : schedulerJobFinished core n t s = some (r, s')) (hb : Begun s)
    (ht : t ≠ -1) : Begun s' := by
  obtain ⟨p, hp⟩ := finished_jobOn h
  obtain rfl := finished_state hp h
  have hv : Begun (finish p core.toNat t s) :=
    begun_vacate (j := finishRecord t (s.heap p)) (c := core.toNat) rfl hb
  exact begun_pollOnto hv ht

theorem expired_starts {core r : ℤ} (h : schedulerQuantumExpired core t s = some (r, s')) :
    Starts t s s' := by
  obtain ⟨p, hp⟩ := expired_jobOn h
  obtain rfl := expired_state hp h
  have hv : Starts t s (expire p core.toNat t s) :=
    vacate_starts (j := expireRecord t (s.heap p)) (c := core.toNat) rfl
  exact hv.trans (starts_pollOnto _ _ _) le_rfl

theorem expired_begun {core r : ℤ} (h : schedulerQuantumExpired core t s = some (r, s')) (hb : Begun s)
    (ht : t ≠ -1) : Begun s' := by
  obtain ⟨p, hp⟩ := expired_jobOn h
  obtain rfl := expired_state hp h
  have hv : Begun (expire p core.toNat t s) :=
    begun_vacate (j := expireRecord t (s.heap p)) (c := core.toNat) rfl hb
  exact begun_pollOnto hv ht

/-! ### Jobs that keep their core -/

theorem mem_set_of_ne {α : Type} {l : List α} {i : ℕ} {a b : α} (ha : a ∈ l) (hi : l[i]? ≠ some a) :
    a ∈ l.set i b := by
  obtain ⟨k, hk⟩ := List.mem_iff_getElem?.mp ha
  have hik : i ≠ k := fun he => hi (he ▸ hk)
  exact List.mem_iff_getElem?.mpr ⟨k, by rw [List.getElem?_set_ne hik, hk]⟩

theorem pollOnto_stays {q : ℕ} (hc : s.coreJobPtrs[c]? ≠ some (some q)) (hq : some q ∈ s.coreJobPtrs) :
    some q ∈ (pollOnto c t s).2.coreJobPtrs := by
  rcases pollOnto_cases c t s with ⟨-, he⟩ | ⟨next, l, -, he⟩
  · rwa [he]
  · rw [he, place_coreJobPtrs]
    exact mem_set_of_ne hq hc

/-- **A finish takes no other job off its core.** -/
theorem finished_stays {core n r : ℤ} {p₀ q : ℕ} (hp : jobOn core s = some p₀)
    (h : schedulerJobFinished core n t s = some (r, s')) (hq : some q ∈ s.coreJobPtrs) (hne : q ≠ p₀) :
    some q ∈ s'.coreJobPtrs := by
  obtain ⟨-, hc⟩ := jobOn_eq hp
  have hlt : core.toNat < s.coreJobPtrs.length := (List.getElem?_eq_some_iff.mp hc).1
  obtain rfl := finished_state hp h
  refine pollOnto_stays (s := finish p₀ core.toNat t s) ?_ ?_
  · change (s.coreJobPtrs.set core.toNat none)[core.toNat]? ≠ _
    simp [List.getElem?_set_self hlt]
  · exact mem_set_of_ne hq (by rw [hc]; simpa using hne.symm)

/-- The victim of a new job waits. -/
theorem newJob_victim {n r pr : ℤ} {w c : ℕ} (hn : none ∉ s.coreJobPtrs)
    (hv : victim s.fresh (arrive n t r pr s) = some (w, c)) :
    w ∈ (schedulerNewJob n t r pr s).2.jobQueue := by
  rcases newJob_cases n t r pr s with ⟨c', hc', -⟩ | ⟨-, w', c', -, hv', he⟩ | ⟨-, hv', -⟩
  · exact absurd (List.mem_of_getElem? hc') hn
  · rw [hv, Option.some.injEq, Prod.mk.injEq] at hv'
    obtain ⟨rfl, rfl⟩ := hv'
    rw [he]
    exact (offer_jobQueue _ _).mem_iff.mpr (List.mem_cons_self ..)
  · cases hv.symm.trans hv'

/-- **A new job takes only its victim off a core.** -/
theorem newJob_stays (n t r pr : ℤ) {q : ℕ} (hq : some q ∈ s.coreJobPtrs)
    (hv : none ∉ s.coreJobPtrs → ∀ c, victim s.fresh (arrive n t r pr s) ≠ some (q, c)) :
    some q ∈ (schedulerNewJob n t r pr s).2.coreJobPtrs := by
  rcases newJob_cases n t r pr s with ⟨c, hc, -, he⟩ | ⟨hn, w, c, hc, hw, he⟩ | ⟨-, -, he⟩
  · rw [he, place_coreJobPtrs, arrive_coreJobPtrs]
    exact mem_set_of_ne hq (by rw [hc]; simp)
  · have hwq : w ≠ q := fun hwq => hv hn c (hwq ▸ hw)
    rw [he, place_coreJobPtrs, offer_coreJobPtrs, setJob_coreJobPtrs, arrive_coreJobPtrs]
    exact mem_set_of_ne hq (by rw [hc]; simpa using hwq)
  · rw [he]
    exact hq

end Eecs678.Scheduler.StartTimes
