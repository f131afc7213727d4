import Eecs678.Scheduler.History

/-!
# Round robin

`compare_rr` orders the queue by arrival, so the jobs that run arrived before the ones that wait
(`served_first`), and a job whose quantum expires gets its core back (`expired_same`). `rotation` says in
which runs the queue is first in, first out all the same; `rotation_fails` is a run in which it is not.
-/

namespace Eecs678.Scheduler.RoundRobin

open Eecs678.Scheduler.Priqueue Eecs678.Scheduler.Model Eecs678.Scheduler.Places
open Eecs678.Scheduler.History

/-! ### What goes into the queue and what leaves it -/

/-- The jobs that a callback in the state `s` puts into the queue. -/
def put (s : Sched) : Call → List ℕ
  | .newJob _ _ _ _ => if none ∈ s.coreJobPtrs then [] else [s.fresh]
  | .jobFinished _ _ _ => []
  | .quantumExpired core _ => (jobOn core s).toList

/-- The jobs that a callback dispatches from the queue, if `s` is the state after it. -/
def taken (s : Sched) : Call → List ℕ
  | .newJob _ _ _ _ => []
  | .jobFinished core _ _ => (jobOn core s).toList
  | .quantumExpired core _ => (jobOn core s).toList

/-- A run with the jobs it put into the queue and those it dispatched, in order. -/
inductive Logged (cores : ℕ) : List Call → Sched → List ℕ → List ℕ → Prop
  | startUp : Logged cores [] (schedulerStartUp cores .rr) [] []
  | call {calls : List Call} {s s' : Sched} {puts takes : List ℕ} {c : Call} {res : ℤ} :
      Logged cores calls s puts takes → (∀ c' ∈ calls, c'.time ≤ c.time) → c.Legal .rr calls s →
        c.run s = some (res, s') → Logged cores (c :: calls) s' (puts ++ put s c) (takes ++ taken s' c)

/-- **Round robin rotation** in a run: at each moment of it, the jobs put into the queue are the ones
dispatched, in the same order, and then the ones that wait; and a job whose quantum expires stays on its
core only if no other job waits. -/
structure Rotates (cores : ℕ) (calls : List Call) : Prop where
  fifo : ∀ before s puts takes, before <:+ calls → Logged cores before s puts takes →
    puts = takes ++ s.jobQueue
  own : ∀ before core t s p res s', .quantumExpired core t :: before <:+ calls →
    Run cores .rr before s → jobOn core s = some p →
      schedulerQuantumExpired core t s = some (res, s') → res = (s.heap p).jobNumber → s.jobQueue = []

/-- No job waits when a quantum expires in the run. -/
def Alone (cores : ℕ) (calls : List Call) : Prop :=
  ∀ before core t s, .quantumExpired core t :: before <:+ calls → Run cores .rr before s →
    s.jobQueue = []

variable {cores : ℕ} {calls before : List Call} {s s' : Sched} {puts takes : List ℕ} {p : ℕ}

theorem still_rr : Still .rr := by decide

theorem Logged.run (h : Logged cores calls s puts takes) : Run cores .rr calls s := by
  induction h with
  | startUp => exact .startUp
  | call _ ht hlegal hres ih => exact .call ih ht hlegal hres

theorem exists_log (h : Run cores .rr calls s) : ∃ puts takes, Logged cores calls s puts takes := by
  induction h with
  | startUp => exact ⟨[], [], .startUp⟩
  | call _ ht hlegal hres ih =>
    obtain ⟨puts, takes, hl⟩ := ih
    exact ⟨_, _, .call hl ht hlegal hres⟩

/-- Each moment of a run is the end of a run. -/
theorem exists_before (h : Run cores .rr calls s) (hb : before <:+ calls) :
    ∃ s', Run cores .rr before s' := by
  induction h with
  | startUp =>
    rw [List.suffix_nil.mp hb]
    exact ⟨_, .startUp⟩
  | call hrun ht hlegal hres ih =>
    rcases List.suffix_cons_iff.mp hb with rfl | hb
    · exact ⟨_, .call hrun ht hlegal hres⟩
    · exact ih hb

/-! ### The callbacks -/

/-- The end of the two callbacks dispatches the first job of the queue. -/
theorem pollOnto_taken {core : ℤ} (h0 : 0 ≤ core) (hr : Ready core.toNat s) (t : ℤ) :
    s.jobQueue = (jobOn core (pollOnto core.toNat t s).2).toList ++
      (pollOnto core.toNat t s).2.jobQueue := by
  rcases pollOnto_cases core.toNat t s with ⟨hq, he⟩ | ⟨next, q, hq, he⟩
  · rw [he, jobOn, if_pos h0, hr.empty, hq]
    rfl
  · have hlt : core.toNat < s.coreJobPtrs.length := (List.getElem?_eq_some_iff.mp hr.empty).1
    rw [he, jobOn, if_pos h0, place_coreJobPtrs, List.getElem?_set_self hlt, hq]
    rfl

theorem compareRr_neg {a b : JobT} (h : Near a.arrivalTime b.arrivalTime) :
    comparer .rr a b < 0 ↔ a.arrivalTime < b.arrivalTime := by
  rw [comparer, compareRr, int32_sub h]
  omega

/-- The jobs that arrived did so before a new job. -/
theorem arrival_lt (h : Run cores .rr calls s) {n t r pr : ℤ} (ht : ∀ c ∈ calls, c.time ≤ t)
    (hlegal : (Call.newJob n t r pr).Legal .rr calls s) (hp : p ∈ places s) :
    (s.heap p).arrivalTime < t := by
  have hmem := h.mem_jobs hp
  obtain ⟨c, hc, harr⟩ := arrival_mem _ hmem
  have hle : (s.heap p).arrivalTime ≤ t := harr.le.trans (ht c hc)
  have hne : (s.heap p).arrivalTime ≠ t := (hlegal _ hmem).1.2
  omega

theorem arrive_new (h : Wf s) (n t r pr : ℤ) :
    (arrive n t r pr s).heap s.fresh = newJobRecord n t r pr := by
  rw [arrive_heap h.toHeld, if_pos rfl]

/-- A new job goes behind all waiting jobs. -/
theorem newJob_queue (h : Run cores .rr calls s) {n t r pr : ℤ}
    (ht : ∀ c ∈ calls, c.time ≤ t) (hlegal : (Call.newJob n t r pr).Legal .rr calls s) :
    (schedulerNewJob n t r pr s).2.jobQueue = s.jobQueue ++ put s (.newJob n t r pr) := by
  rcases newJob_still still_rr h.currentScheme n t r pr with ⟨c, hc, -, he⟩ | ⟨hn, he⟩
  · rw [he, put, if_pos (List.mem_of_getElem? hc), List.append_nil]
    rfl
  · rw [he, put, if_neg hn]
    refine offer_last fun q hq => ?_
    have hmem := mem_places_queue hq
    have hsch : (arrive n t r pr s).currentScheme = .rr := h.currentScheme
    rw [hsch, arrive_new h.wf, arrive_queued h.wf n t r pr hq,
      compareRr_neg (hlegal _ (h.mem_jobs hmem)).2.1.2]
    exact not_lt.mpr (arrival_lt h ht hlegal hmem).le

theorem finished_queue {core n t res : ℤ} (h : Run cores .rr calls s) (hp : jobOn core s = some p)
    (he : schedulerJobFinished core n t s = some (res, s')) :
    s.jobQueue = taken s' (.jobFinished core n t) ++ s'.jobQueue := by
  obtain ⟨h0, hc⟩ := jobOn_eq hp
  obtain rfl := finished_state hp he
  exact pollOnto_taken h0 (finish_ready h.wf hc t) t

theorem finished_slots {core n t res : ℤ} {p₀ : ℕ} (hp₀ : jobOn core s = some p₀)
    (he : schedulerJobFinished core n t s = some (res, s')) :
    ∀ p, some p ∈ s'.coreJobPtrs → some p ∈ s.coreJobPtrs ∨ p ∈ taken s' (.jobFinished core n t) := by
  obtain ⟨h0, hc⟩ := jobOn_eq hp₀
  have hlt : core.toNat < s.coreJobPtrs.length := (List.getElem?_eq_some_iff.mp hc).1
  obtain rfl := finished_state hp₀ he
  intro p hp
  have hslots : (finish p₀ core.toNat t s).coreJobPtrs = s.coreJobPtrs.set core.toNat none := rfl
  rcases pollOnto_cases core.toNat t (finish p₀ core.toNat t s) with ⟨-, he⟩ | ⟨next, q, -, he⟩
  · rw [he, hslots] at hp
    exact Or.inl ((List.mem_or_eq_of_mem_set hp).resolve_right (by simp))
  · rw [he] at hp ⊢
    rw [place_coreJobPtrs, hslots, List.set_set] at hp
    refine (List.mem_or_eq_of_mem_set hp).imp_right fun hpn => ?_
    rw [Option.some.inj hpn, taken, jobOn, if_pos h0, place_coreJobPtrs, hslots, List.set_set,
      List.getElem?_set_self hlt]
    exact List.mem_singleton_self _

/-- If the running jobs arrived before the waiting ones, the job whose quantum expires gets its core
back. -/
theorem expired_same_of {core t : ℤ} (h : Run cores .rr calls s) (hp : jobOn core s = some p)
    (hlt : ∀ q ∈ s.jobQueue, (s.heap p).arrivalTime < (s.heap q).arrivalTime) :
    ∃ s', schedulerQuantumExpired core t s = some ((s.heap p).jobNumber, s') ∧
      s'.coreJobPtrs = s.coreJobPtrs ∧ s'.jobQueue = s.jobQueue := by
  obtain ⟨-, hc⟩ := jobOn_eq hp
  have hp' := mem_places_slot hc
  obtain ⟨hlen, hget⟩ := List.getElem?_eq_some_iff.mp hc
  have hfirst : (expire p core.toNat t s).jobQueue = p :: s.jobQueue := by
    refine offer_first fun q hq => ?_
    have hne : q ≠ p := fun he => h.wf.not_queued hc (he ▸ hq)
    have harr : (s.heap p).arrivalTime ≠ (s.heap q).arrivalTime := (hlt q hq).ne
    have hfit := h.fits _ (h.mem_jobs hp') _ (h.mem_jobs (mem_places_queue hq)) fun he =>
      harr (static_arrivalTime he)
    have hsch : (vacate p core.toNat (expireRecord t (s.heap p)) s).currentScheme = .rr :=
      h.currentScheme
    rw [hsch, vacate_heap, vacate_heap, if_pos rfl, if_neg hne,
      compareRr_neg (a := expireRecord t (s.heap p)) hfit.2]
    exact hlt q hq
  have hheap : (expire p core.toNat t s).heap p = expireRecord t (s.heap p) :=
    (vacate_heap s p p core.toNat (expireRecord t (s.heap p))).trans (if_pos rfl)
  rcases pollOnto_cases core.toNat t (expire p core.toNat t s) with ⟨hq, -⟩ | ⟨next, q, hq, he⟩
  · rw [hfirst] at hq
    simp at hq
  · rw [hfirst, List.cons.injEq] at hq
    obtain ⟨rfl, rfl⟩ := hq
    refine ⟨placeJobOnCore p core.toNat t { expire p core.toNat t s with jobQueue := s.jobQueue },
      ?_, ?_, rfl⟩
    · rw [expired_eq hp, he, hheap]
      rfl
    · rw [place_coreJobPtrs]
      change (s.coreJobPtrs.set core.toNat none).set core.toNat (some p) = s.coreJobPtrs
      rw [List.set_set, ← hget, List.set_getElem_self]

/-! ### Runs -/

theorem sorted (h : Run cores .rr calls s) :
    s.jobQueue.Pairwise fun p q => (s.heap p).arrivalTime < (s.heap q).arrivalTime :=
  (h.waiting still_rr).sorted.imp fun hlt => by
    rw [order, order, Prod.Lex.toLex_lt_toLex] at hlt
    exact (hlt.resolve_left (lt_irrefl _)).2

/-- **The jobs that run arrived before the ones that wait.** -/
theorem served_first (h : Run cores .rr calls s) : ∀ p, some p ∈ s.coreJobPtrs → ∀ q ∈ s.jobQueue,
    (s.heap p).arrivalTime < (s.heap q).arrivalTime := by
  induction h with
  | startUp =>
    intro p _ q hq
    simp [schedulerStartUp] at hq
  | @call calls s s' c res hr ht hlegal hres ih =>
    have harr : ∀ p ∈ places s, (s'.heap p).arrivalTime = (s.heap p).arrivalTime := fun p hp =>
      (run_keeps hr.wf hlegal hres).arrivalTime (hr.wf.lt_fresh hp)
    intro p hp q hq
    cases c with
    | newJob n t r pr =>
      have hqueue := newJob_queue (t := t) hr ht hlegal
      simp only [Call.run, Option.some.injEq, Prod.ext_iff] at hres
      obtain ⟨-, rfl⟩ := hres
      rw [hqueue] at hq
      rcases newJob_still still_rr hr.currentScheme n t r pr with ⟨c, hc, -, -⟩ | ⟨hn, he⟩
      · have hidle := List.mem_of_getElem? hc
        rw [put, if_pos hidle, hr.wf.busy hidle] at hq
        simp at hq
      · have hps : some p ∈ s.coreJobPtrs := by
          rw [he] at hp
          exact hp
        have hmem : p ∈ places s := mem_places_on hps
        rw [put, if_neg hn] at hq
        rw [harr p hmem]
        rcases List.mem_append.mp hq with hq | hq
        · rw [harr q (mem_places_queue hq)]
          exact ih p hps q hq
        · have hnew : ((schedulerNewJob n t r pr s).2.heap s.fresh).arrivalTime = t :=
            static_arrivalTime (newJob_new hr.wf n t r pr).1
          rw [List.mem_singleton.mp hq, hnew]
          exact arrival_lt hr ht hlegal hmem
    | jobFinished core n t =>
      obtain ⟨p₀, hp₀⟩ := Option.isSome_iff_exists.mp hlegal
      have hqueue := finished_queue (n := n) hr hp₀ hres
      have hqs : q ∈ s.jobQueue := hqueue ▸ List.mem_append_right _ hq
      rw [harr q (mem_places_queue hqs)]
      rcases finished_slots hp₀ hres p hp with hps | hps
      · rw [harr p (mem_places_on hps)]
        exact ih p hps q hqs
      · have hmem : p ∈ s.jobQueue := hqueue ▸ List.mem_append_left _ hps
        rw [harr p (mem_places_queue hmem)]
        have hsort := sorted hr
        rw [hqueue, List.pairwise_append] at hsort
        exact hsort.2.2 p hps q hq
    | quantumExpired core t =>
      obtain ⟨p₀, hp₀⟩ := Option.isSome_iff_exists.mp hlegal.2
      obtain ⟨s₁, he, hslots, hqueue⟩ := expired_same_of (t := t) hr hp₀
        (ih p₀ (List.mem_of_getElem? (jobOn_eq hp₀).2))
      rw [Call.run, he, Option.some.injEq, Prod.mk.injEq] at hres
      obtain ⟨-, rfl⟩ := hres
      rw [hslots] at hp
      rw [hqueue] at hq
      rw [harr p (mem_places_on hp),
        harr q (mem_places_queue hq)]
      exact ih p hp q hq

/-- **A job whose quantum expires gets its core back**, whoever waits. -/
theorem expired_same {core t : ℤ} (h : Run cores .rr calls s) (hp : jobOn core s = some p) :
    ∃ s', schedulerQuantumExpired core t s = some ((s.heap p).jobNumber, s') ∧
      s'.coreJobPtrs = s.coreJobPtrs ∧ s'.jobQueue = s.jobQueue :=
  expired_same_of h hp (served_first h p (List.mem_of_getElem? (jobOn_eq hp).2))

/-- **If no job waits when a quantum expires**, the jobs put into the queue leave it in the same order. -/
theorem Logged.fifo (h : Logged cores calls s puts takes) (halone : Alone cores calls) :
    puts = takes ++ s.jobQueue := by
  induction h with
  | startUp => rfl
  | @call calls s s' puts takes c res hl ht hlegal hres ih =>
    have hr := hl.run
    rw [ih fun b core t s₁ hb => halone b core t s₁ (hb.trans (List.suffix_cons ..)),
      List.append_assoc, List.append_assoc, List.append_cancel_left_eq]
    cases c with
    | newJob n t r pr =>
      simp only [Call.run, Option.some.injEq, Prod.ext_iff] at hres
      obtain ⟨-, rfl⟩ := hres
      exact (newJob_queue hr ht hlegal).symm
    | jobFinished core n t =>
      obtain ⟨p, hp⟩ := Option.isSome_iff_exists.mp hlegal
      rw [put, List.append_nil]
      exact finished_queue hr hp hres
    | quantumExpired core t =>
      obtain ⟨p, hp⟩ := Option.isSome_iff_exists.mp hlegal.2
      obtain ⟨s₁, he, hslots, hqueue⟩ := expired_same (t := t) hr hp
      have hnil := halone calls core t s (List.suffix_refl _) hr
      rw [Call.run, he, Option.some.injEq, Prod.mk.injEq] at hres
      obtain ⟨-, rfl⟩ := hres
      have hp' : jobOn core s₁ = some p := by
        rw [jobOn, hslots]
        exact hp
      rw [put, taken, hp, hp', hqueue, hnil]
      rfl

/-- **Round robin rotates exactly in the runs in which no job waits when a quantum expires.** -/
theorem rotation (h : Run cores .rr calls s) : Rotates cores calls ↔ Alone cores calls := by
  refine ⟨fun hrot before core t s₁ hb hr => ?_, fun halone => ⟨?_, ?_⟩⟩
  · obtain ⟨s₂, hr'⟩ := exists_before h hb
    obtain _ | ⟨hr₁, -, hlegal, -⟩ := hr'
    obtain rfl := hr.unique hr₁
    obtain ⟨p, hp⟩ := Option.isSome_iff_exists.mp hlegal.2
    obtain ⟨s₃, he, -, -⟩ := expired_same (t := t) hr hp
    exact hrot.own before core t s₁ p _ s₃ hb hr hp he rfl
  · intro before s₁ puts takes hb hl
    exact hl.fifo fun b core t s₂ hb' => halone b core t s₂ (hb'.trans hb)
  · intro before core t s₁ p res s₂ hb hr _ _ _
    exact halone before core t s₁ hb hr

/-- A job that arrived first keeps its core when its quantum expires, though another one waits. -/
theorem rotation_fails : ∃ calls s, Run 1 .rr calls s ∧ ¬ Rotates 1 calls := by
  have h : Run 1 .rr [.newJob 1 1 10 3, .newJob 0 0 3 2] _ :=
    .call (.call .startUp (by simp) (by decide) rfl)
      (by decide) (by decide) rfl
  refine ⟨.quantumExpired 0 2 :: [.newJob 1 1 10 3, .newJob 0 0 3 2], _,
    .call h (by decide) ⟨rfl, rfl⟩ rfl, fun hrot => ?_⟩
  exact absurd (hrot.own _ 0 2 _ 0 0 _ (List.suffix_refl _) h rfl rfl rfl) (by decide)

/-- Job 1 waits while job 0 runs, and no quantum expires then: the jobs come out as they went in. -/
theorem rotation_two : ∃ s puts takes, Logged 1
    [.quantumExpired 0 5, .jobFinished 0 0 4, .newJob 1 3 2 1, .quantumExpired 0 2, .newJob 0 0 3 2]
    s puts takes ∧ puts = takes ++ s.jobQueue := by
  have h₁ : Run 1 .rr [.newJob 0 0 3 2] _ := .call .startUp (by simp) (by decide) rfl
  have h₂ : Run 1 .rr [.newJob 1 3 2 1, .quantumExpired 0 2, .newJob 0 0 3 2] _ :=
    .call (.call h₁ (by decide) ⟨rfl, rfl⟩ rfl) (by decide) (by decide) rfl
  have h₃ : Run 1 .rr [.jobFinished 0 0 4, .newJob 1 3 2 1, .quantumExpired 0 2, .newJob 0 0 3 2] _ :=
    .call h₂ (by decide) rfl rfl
  have h : Run 1 .rr
      [.quantumExpired 0 5, .jobFinished 0 0 4, .newJob 1 3 2 1, .quantumExpired 0 2, .newJob 0 0 3 2] _ :=
    .call h₃ (by decide) ⟨rfl, rfl⟩ rfl
  obtain ⟨puts, takes, hlog⟩ := exists_log h
  refine ⟨_, puts, takes, hlog, ((rotation h).mpr fun before core t s hb hr => ?_).fifo _ _ _ _
    (List.suffix_refl _) hlog⟩
  have hbefore : before = [.newJob 0 0 3 2] ∨
      before = [.jobFinished 0 0 4, .newJob 1 3 2 1, .quantumExpired 0 2, .newJob 0 0 3 2] := by
    simp only [List.suffix_cons_iff, List.suffix_nil] at hb
    grind
  rcases hbefore with rfl | rfl
  · rw [← h₁.unique hr]
    rfl
  · rw [← h₃.unique hr]
    rfl

end Eecs678.Scheduler.RoundRobin
