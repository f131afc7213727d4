import Eecs678.Scheduler.History

/-!
# The schemes that do not preempt

Under `FCFS`, `SJF` and `PRI` a job keeps its core until it finishes (`slot_kept`), the least of the
waiting jobs follows it (`finished_next`), and a new job starts at once when a core is idle
(`newJob_starts`).
-/

namespace Eecs678.Scheduler.NonPreemptive

open Eecs678.Scheduler.Model Eecs678.Scheduler.Places Eecs678.Scheduler.History

variable {cores : ℕ} {scheme : Scheme} {calls later : List Call} {s s' : Sched} {c p : ℕ}

/-! ### A job keeps its core -/

theorem pollOnto_slot {core : ℕ} (hne : c ≠ core) (t : ℤ) (s : Sched) :
    (pollOnto core t s).2.coreJobPtrs[c]? = s.coreJobPtrs[c]? := by
  rcases pollOnto_cases core t s with ⟨-, he⟩ | ⟨next, q, -, he⟩
  · rw [he]
  · rw [he, place_coreJobPtrs, List.getElem?_set_ne hne.symm]

theorem slot_kept (hs : Still scheme) (h : Run cores scheme calls s) {call : Call} {res : ℤ}
    (hlegal : call.Legal scheme calls s) (hrun : call.run s = some (res, s'))
    (hc : s.coreJobPtrs[c]? = some (some p)) (hfin : ∀ n t, call ≠ .jobFinished c n t)
    (hexp : ∀ t, call ≠ .quantumExpired c t) : s'.coreJobPtrs[c]? = some (some p) := by
  cases call with
  | newJob n t r pr =>
    simp only [Call.run, Option.some.injEq, Prod.ext_iff] at hrun
    obtain ⟨-, rfl⟩ := hrun
    rcases newJob_still hs h.currentScheme n t r pr with ⟨c', hc', -, he⟩ | ⟨-, he⟩
    · have hne : c' ≠ c := by
        rintro rfl
        rw [hc'] at hc
        simp at hc
      rw [he, place_coreJobPtrs, List.getElem?_set_ne hne]
      exact hc
    · rw [he]
      exact hc
  | jobFinished core n t =>
    obtain ⟨p', hp'⟩ := Option.isSome_iff_exists.mp hlegal
    obtain ⟨h0, -⟩ := jobOn_eq hp'
    have hne : c ≠ core.toNat := by
      rintro rfl
      exact hfin n t (by rw [Int.toNat_of_nonneg h0])
    rw [Call.run, finished_eq hp', Option.some.injEq, Prod.ext_iff] at hrun
    obtain ⟨-, rfl⟩ := hrun
    rw [pollOnto_slot hne]
    exact (List.getElem?_set_ne hne.symm).trans hc
  | quantumExpired core t =>
    obtain ⟨p', hp'⟩ := Option.isSome_iff_exists.mp hlegal.2
    obtain ⟨h0, -⟩ := jobOn_eq hp'
    have hne : c ≠ core.toNat := by
      rintro rfl
      exact hexp t (by rw [Int.toNat_of_nonneg h0])
    rw [Call.run, expired_eq hp', Option.some.injEq, Prod.ext_iff] at hrun
    obtain ⟨-, rfl⟩ := hrun
    rw [pollOnto_slot hne]
    exact (List.getElem?_set_ne hne.symm).trans hc

/-- **A job stays on its core** as long as no callback says that it finished. -/
theorem Run.slot_kept (hs : Still scheme) (hrr : scheme ≠ .rr) (h : Run cores scheme calls s)
    (hc : s.coreJobPtrs[c]? = some (some p)) : ∀ {later : List Call} {s' : Sched},
      Run cores scheme (later ++ calls) s' → (∀ n t, Call.jobFinished c n t ∉ later) →
        s'.coreJobPtrs[c]? = some (some p) ∧ static (s'.heap p) = static (s.heap p)
  | [], s', h', _ => by
    rw [h.unique h'] at hc ⊢
    exact ⟨hc, rfl⟩
  | call :: later, s', h', hfin => by
    obtain _ | ⟨hbefore, -, hlegal, hrun⟩ := h'
    obtain ⟨hc', hstat⟩ := Run.slot_kept hs hrr h hc hbefore
      fun n t hm => hfin n t (List.mem_cons_of_mem _ hm)
    refine ⟨NonPreemptive.slot_kept hs hbefore hlegal hrun hc' (fun n t he => ?_) fun t he => ?_, ?_⟩
    · exact hfin n t (he ▸ List.mem_cons_self ..)
    · rw [he] at hlegal
      exact hrr hlegal.1
    · rw [(run_keeps hbefore.wf hlegal hrun).static p (hbefore.wf.lt_fresh (mem_places_slot hc'))]
      exact hstat

/-! ### Who is served next -/

theorem finished_next (hs : Still scheme) (h : Run cores scheme calls s) {core : ℤ}
    (hp : jobOn core s = some p) (hq : s.jobQueue ≠ []) (n t : ℤ) :
    ∃ next ∈ s.jobQueue, ∃ s', schedulerJobFinished core n t s = some ((s.heap next).jobNumber, s') ∧
      jobOn core s' = some next ∧ ∀ q ∈ s.jobQueue, q ≠ next →
        order scheme (static (s.heap next)) < order scheme (static (s.heap q)) := by
  obtain ⟨h0, hc⟩ := jobOn_eq hp
  have hsort := (h.waiting hs).sorted
  rcases pollOnto_cases core.toNat t (finish p core.toNat t s) with ⟨hq', -⟩ | ⟨next, q, hq', he⟩
  · exact absurd hq' hq
  · have hqueue : s.jobQueue = next :: q := hq'
    have hnext : next ∈ s.jobQueue := hqueue ▸ List.mem_cons_self ..
    have hne : next ≠ p := fun he => h.wf.not_queued hc (he ▸ hnext)
    have hheap : (finish p core.toNat t s).heap next = s.heap next :=
      (vacate_heap s p next core.toNat (finishRecord t (s.heap p))).trans (if_neg hne)
    refine ⟨next, hnext, placeJobOnCore next core.toNat t { finish p core.toNat t s with jobQueue := q },
      ?_, ?_, fun q' hq'' hne' => ?_⟩
    · rw [finished_eq hp, he, hheap]
    · have hlt : core.toNat < s.coreJobPtrs.length := (List.getElem?_eq_some_iff.mp hc).1
      rw [jobOn, if_pos h0, place_coreJobPtrs, List.getElem?_set_self]
      · rfl
      · exact lt_of_lt_of_eq hlt (List.length_set ..).symm
    · rw [hqueue] at hsort hq''
      exact (List.pairwise_cons.mp hsort).1 q' ((List.mem_cons.mp hq'').resolve_left hne')

/-! ### Arrivals -/

/-- **A new job starts at once exactly when a core is idle**, on the first such core. -/
theorem newJob_starts (hs : Still scheme) (h : Run cores scheme calls s) (n t r pr : ℤ) :
    ((∃ c : ℕ, (schedulerNewJob n t r pr s).2.coreJobPtrs[c]? = some (some s.fresh)) ↔
      none ∈ s.coreJobPtrs) ∧
    ∀ c : ℕ, (schedulerNewJob n t r pr s).2.coreJobPtrs[c]? = some (some s.fresh) →
      (schedulerNewJob n t r pr s).1 = c ∧ s.coreJobPtrs[c]? = some none ∧
        ∀ c' < c, s.coreJobPtrs[c']? ≠ some none := by
  have hnot : ∀ c : ℕ, s.coreJobPtrs[c]? ≠ some (some s.fresh) := fun c hc =>
    h.wf.fresh_not_slot (List.mem_of_getElem? hc)
  rcases newJob_still hs h.currentScheme n t r pr with ⟨c, hc, hmin, he⟩ | ⟨hn, he⟩
  · have hlt : c < s.coreJobPtrs.length := (List.getElem?_eq_some_iff.mp hc).1
    rw [he]
    refine ⟨⟨fun _ => List.mem_of_getElem? hc, fun _ => ⟨c, List.getElem?_set_self hlt⟩⟩,
      fun c' hc' => ?_⟩
    have heq : c' = c := by
      by_contra hne
      rw [place_coreJobPtrs, List.getElem?_set_ne (Ne.symm hne)] at hc'
      exact hnot c' hc'
    rw [heq]
    exact ⟨rfl, hc, hmin⟩
  · rw [he]
    exact ⟨⟨fun ⟨c, hc⟩ => absurd hc (hnot c), fun hm => absurd hm hn⟩,
      fun c hc => absurd hc (hnot c)⟩

/-- **Non-preemptive policies.** After every run of legal callbacks under `FCFS`, `SJF` or `PRI`: a job
stays on its core, with its fields, until the callback that says it finished; the job that starts on a
core freed while jobs wait goes before the other ones in the order of the scheme; and a new job starts
at once, on the first idle core, exactly when there is one. -/
theorem nonpreemptive (hs : scheme = .fcfs ∨ scheme = .sjf ∨ scheme = .pri)
    (h : Run cores scheme calls s) :
    (∀ (later : List Call) (s' : Sched) (c p : ℕ), Run cores scheme (later ++ calls) s' →
      s.coreJobPtrs[c]? = some (some p) → (∀ n t, Call.jobFinished c n t ∉ later) →
        s'.coreJobPtrs[c]? = some (some p) ∧ static (s'.heap p) = static (s.heap p)) ∧
    (∀ (core n t : ℤ) (p : ℕ), jobOn core s = some p → s.jobQueue ≠ [] →
      ∃ next ∈ s.jobQueue, ∃ s', schedulerJobFinished core n t s = some ((s.heap next).jobNumber, s') ∧
        jobOn core s' = some next ∧ ∀ q ∈ s.jobQueue, q ≠ next →
          order scheme (static (s.heap next)) < order scheme (static (s.heap q))) ∧
    (∀ p ∈ places s, static (s.heap p) ∈ jobs calls) ∧
    (∀ n t r pr : ℤ,
      ((∃ c : ℕ, (schedulerNewJob n t r pr s).2.coreJobPtrs[c]? = some (some s.fresh)) ↔
        none ∈ s.coreJobPtrs) ∧
      ∀ c : ℕ, (schedulerNewJob n t r pr s).2.coreJobPtrs[c]? = some (some s.fresh) →
        (schedulerNewJob n t r pr s).1 = c ∧ s.coreJobPtrs[c]? = some none ∧
          ∀ c' < c, s.coreJobPtrs[c']? ≠ some none) := by
  have hstill : Still scheme := by rcases hs with rfl | rfl | rfl <;> decide
  have hrr : scheme ≠ .rr := by rcases hs with rfl | rfl | rfl <;> decide
  exact ⟨fun later s' c p h' hc hfin => Run.slot_kept hstill hrr h hc h' hfin,
    fun core n t p hp hq => finished_next hstill h hp hq n t, fun p hp => h.mem_jobs hp,
    fun n t r pr => newJob_starts hstill h n t r pr⟩

/-- With one core the shorter of two waiting jobs is served first. -/
theorem nonpreemptive_shorter : ∃ s next s', Run 1 .sjf
    [.newJob 3 2 4 0, .newJob 2 1 9 0, .newJob 1 0 5 0] s ∧ next ∈ s.jobQueue ∧
      schedulerJobFinished 0 1 5 s = some ((s.heap next).jobNumber, s') ∧
        ∀ q ∈ s.jobQueue, q ≠ next →
          order .sjf (static (s.heap next)) < order .sjf (static (s.heap q)) := by
  have h : Run 1 .sjf [.newJob 3 2 4 0, .newJob 2 1 9 0, .newJob 1 0 5 0]
      (schedulerNewJob 3 2 4 0 (schedulerNewJob 2 1 9 0
        (schedulerNewJob 1 0 5 0 (schedulerStartUp 1 .sjf)).2).2).2 :=
    .call (.call (.call .startUp (by simp) (by decide) rfl)
      (by decide) (by decide) rfl)
      (by decide) (by decide) rfl
  obtain ⟨next, hn, s', hf, -, hmin⟩ := (nonpreemptive (Or.inr (Or.inl rfl)) h).2.1 0 1 5 0 rfl
    (by decide)
  exact ⟨_, next, s', h, hn, hf, hmin⟩

end Eecs678.Scheduler.NonPreemptive
