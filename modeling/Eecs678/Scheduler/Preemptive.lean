import Eecs678.Scheduler.Runs
import Eecs678.Lib.Best
import Mathlib.Data.Prod.Lex

/-!
# The preemptive schemes run the best jobs

For `PSJF` and `PPRI` the jobs on the cores go before the jobs in the queue, by remaining time or
priority and then by arrival (`key`). Keys of running jobs only fall as time goes by, and each
callback keeps the order (`newJob_ordered`, `finished_ordered`).
-/

namespace Eecs678.Scheduler.Preemptive

open Eecs678.Lib.Best Eecs678.Lib.Slots Eecs678.Scheduler.Priqueue Eecs678.Scheduler.Model
open Eecs678.Scheduler.Places Eecs678.Scheduler.Runs

/-! ### Comparers -/

/-- The field that the scheme compares first. -/
def field (scheme : Scheme) (j : JobT) : ℤ :=
  if scheme = .psjf then j.remainingTime else j.priority

/-- The order of two records: the field of the scheme, then the arrival. -/
def recordKey (scheme : Scheme) (j : JobT) : ℤ ×ₗ ℤ := toLex (field scheme j, j.arrivalTime)

/-- The differences of the compared fields fit in an `int`. -/
def Fits (scheme : Scheme) (a b : JobT) : Prop :=
  (-2 ^ 31 ≤ field scheme a - field scheme b ∧ field scheme a - field scheme b < 2 ^ 31) ∧
    (-2 ^ 31 ≤ a.arrivalTime - b.arrivalTime ∧ a.arrivalTime - b.arrivalTime < 2 ^ 31)

/-- Whether two records can be compared depends on their keys. -/
theorem Fits.congr {scheme : Scheme} {a a' b b' : JobT} (h : Fits scheme a b)
    (ha : recordKey scheme a' = recordKey scheme a) (hb : recordKey scheme b' = recordKey scheme b) :
    Fits scheme a' b' := by
  have ha' := Prod.ext_iff.mp (toLex_inj.mp ha)
  have hb' := Prod.ext_iff.mp (toLex_inj.mp hb)
  simp only at ha' hb'
  rw [Fits, ha'.1, ha'.2, hb'.1, hb'.2]
  exact h

theorem preemptCompare_eq (scheme : Scheme) (a b : JobT) :
    preemptCompare scheme a b = if field scheme a ≠ field scheme b then
      int32 (field scheme a - field scheme b) else int32 (a.arrivalTime - b.arrivalTime) := by
  unfold preemptCompare field
  split_ifs <;> simp_all [compareSjf, comparePri]

theorem recordKey_lt {scheme : Scheme} {a b : JobT} : recordKey scheme a < recordKey scheme b ↔
    field scheme a < field scheme b ∨
      field scheme a = field scheme b ∧ a.arrivalTime < b.arrivalTime := Prod.Lex.toLex_lt_toLex

/-- The differences that fit are those of the comparison. -/
theorem Fits.compare {scheme : Scheme} {a b : JobT} (h : Fits scheme a b) :
    preemptCompare scheme a b = if field scheme a ≠ field scheme b then
      field scheme a - field scheme b else a.arrivalTime - b.arrivalTime := by
  obtain ⟨⟨h1, h2⟩, h3, h4⟩ := h
  rw [preemptCompare_eq, int32_eq h1 h2, int32_eq h3 h4]

/-- **The comparison of the preemption is the order of the keys.** -/
theorem preemptCompare_neg {scheme : Scheme} {a b : JobT} (h : Fits scheme a b) :
    preemptCompare scheme a b < 0 ↔ recordKey scheme a < recordKey scheme b := by
  rw [h.compare, recordKey_lt]
  split_ifs with hne <;> omega

theorem preemptCompare_pos {scheme : Scheme} {a b : JobT} (h : Fits scheme a b) :
    0 < preemptCompare scheme a b ↔ recordKey scheme b < recordKey scheme a := by
  rw [h.compare, recordKey_lt]
  split_ifs with hne <;> omega

/-- The queue of a preemptive scheme is sorted by the same comparison. -/
theorem comparer_eq {scheme : Scheme} (h : scheme = .psjf ∨ scheme = .ppri) :
    comparer scheme = preemptCompare scheme := by
  rcases h with rfl | rfl <;> rfl

/-! ### The worst running job -/

section Worst
variable {K : Type} [LinearOrder K] {f : ℕ → K} {cmp : JobT → JobT → ℤ} {heap : ℕ → JobT}
  {P : ℕ → Prop}

/-- The loop returns the greatest key seen. -/
theorem worstLoop_max
    (hf : ∀ p q, P p → P q → (0 < cmp (heap p) (heap q) ↔ f q < f p)) :
    ∀ {l : List (Option ℕ)} {i : ℕ} {acc : Option (ℕ × ℕ)} {w c : ℕ},
      (∀ p ∈ l.reduceOption, P p) → (∀ x ∈ acc, P x.1) →
        worstLoop cmp heap l i acc = some (w, c) →
          (∀ p ∈ l.reduceOption, f p ≤ f w) ∧ ∀ x ∈ acc, f x.1 ≤ f w
  | [], i, acc, w, c, _, _, h => by
    rw [worstLoop] at h
    subst h
    simp
  | none :: l, i, acc, w, c, hl, ha, h => worstLoop_max hf (l := l) hl ha h
  | some r :: l, i, none, w, c, hl, _, h => by
    rw [List.reduceOption_cons_of_some, List.forall_mem_cons] at hl ⊢
    obtain ⟨h1, h2⟩ := worstLoop_max hf (l := l) hl.2 (by simp [hl.1]) h
    exact ⟨⟨h2 (r, i) rfl, h1⟩, by simp⟩
  | some r :: l, i, some (w', c'), w, c, hl, ha, h => by
    rw [List.reduceOption_cons_of_some, List.forall_mem_cons] at hl ⊢
    rw [worstLoop] at h
    have hw' : P w' := ha (w', c') rfl
    -- the entry kept is the greater of the two
    by_cases hlt : 0 < cmp (heap r) (heap w')
    · rw [if_pos hlt] at h
      obtain ⟨h1, h2⟩ := worstLoop_max hf (l := l) hl.2 (by simp [hl.1]) h
      have hr : f r ≤ f w := h2 (r, i) rfl
      refine ⟨⟨hr, h1⟩, fun x hx => ?_⟩
      rw [← Option.mem_some.mp hx]
      exact ((hf r w' hl.1 hw').mp hlt).le.trans hr
    · rw [if_neg hlt] at h
      obtain ⟨h1, h2⟩ := worstLoop_max hf (l := l) hl.2 (by simp [hw']) h
      refine ⟨⟨?_, h1⟩, h2⟩
      exact (not_lt.mp fun hlt' => hlt ((hf r w' hl.1 hw').mpr hlt')).trans (h2 (w', c') rfl)

theorem worstLoop_some : ∀ (l : List (Option ℕ)) (i : ℕ) (x : ℕ × ℕ),
    ∃ y, worstLoop cmp heap l i (some x) = some y
  | [], _, x => ⟨x, rfl⟩
  | none :: l, i, x => worstLoop_some l (i + 1) x
  | some _ :: l, i, (_, _) => by
    rw [worstLoop]
    split_ifs <;> exact worstLoop_some l (i + 1) _

theorem worstLoop_none : ∀ {l : List (Option ℕ)} {i : ℕ},
    worstLoop cmp heap l i none = none → l.reduceOption = []
  | [], _, _ => rfl
  | none :: l, i, h => worstLoop_none (l := l) h
  | some r :: l, i, h => by
    obtain ⟨y, hy⟩ : ∃ y, worstLoop cmp heap l (i + 1) (some (r, i)) = some y :=
      worstLoop_some l (i + 1) (r, i)
    rw [worstLoop, hy] at h
    simp at h

end Worst

/-- The new job and the running jobs have records that can be compared. -/
def AllFit (s : Sched) (p : ℕ) : Prop :=
  ∀ a ∈ p :: places s, ∀ b ∈ p :: places s, Fits s.currentScheme (s.heap a) (s.heap b)

instance (scheme : Scheme) (a b : JobT) : Decidable (Fits scheme a b) :=
  inferInstanceAs (Decidable (_ ∧ _))

instance (s : Sched) (p : ℕ) : Decidable (AllFit s p) :=
  inferInstanceAs (Decidable (∀ a ∈ p :: places s, ∀ b ∈ p :: places s, _))

section Victim
variable {s : Sched} {p w c : ℕ}

theorem worst_max (hfit : AllFit s p)
    (hw : worstLoop (preemptCompare s.currentScheme) s.heap s.coreJobPtrs 0 none = some (w, c)) :
    ∀ q ∈ s.coreJobPtrs.reduceOption,
      recordKey s.currentScheme (s.heap q) ≤ recordKey s.currentScheme (s.heap w) :=
  (worstLoop_max (P := fun q => q ∈ places s)
    (fun a b ha hb => preemptCompare_pos (hfit a (List.mem_cons_of_mem _ ha) b
      (List.mem_cons_of_mem _ hb)))
    (fun _ hq => List.mem_append_left _ hq) (by simp) hw).1

/-- **The victim is the worst running job, and the new job goes before it.** -/
theorem victim_worst (hfit : AllFit s p) (h : victim p s = some (w, c)) :
    recordKey s.currentScheme (s.heap p) < recordKey s.currentScheme (s.heap w) ∧
      ∀ q ∈ s.coreJobPtrs.reduceOption,
        recordKey s.currentScheme (s.heap q) ≤ recordKey s.currentScheme (s.heap w) := by
  have hslot := victim_slot h
  unfold victim at h
  split_ifs at h
  split at h
  · simp at h
  · rename_i w' c' hw
    split_ifs at h with hlt
    simp only [Option.some.injEq, Prod.mk.injEq] at h
    obtain ⟨rfl, rfl⟩ := h
    have hmem : w' ∈ p :: places s := List.mem_cons_of_mem _ (mem_places_slot hslot)
    exact ⟨(preemptCompare_neg (hfit p (List.mem_cons_self ..) w' hmem)).mp hlt,
      worst_max hfit hw⟩

/-- Without a victim, no running job goes after the new job. -/
theorem victim_none (hs : s.currentScheme = .psjf ∨ s.currentScheme = .ppri) (hfit : AllFit s p)
    (h : victim p s = none) : ∀ q ∈ s.coreJobPtrs.reduceOption,
      recordKey s.currentScheme (s.heap q) ≤ recordKey s.currentScheme (s.heap p) := by
  unfold victim at h
  rw [if_pos hs] at h
  split at h
  · rename_i hw
    rw [worstLoop_none hw]
    simp
  · rename_i w c hw
    split_ifs at h with hlt
    have hmem : w ∈ p :: places s := by
      rcases worstLoop_slot hw with hacc | ⟨k, hk, -⟩
      · simp at hacc
      · exact List.mem_cons_of_mem _ (mem_places_slot hk)
    have hle := not_lt.mp fun hlt' =>
      hlt ((preemptCompare_neg (hfit p (List.mem_cons_self ..) w hmem)).mpr hlt')
    exact fun q hq => (worst_max hfit hw q hq).trans hle

end Victim

/-! ### The order of the jobs -/

/-- The order of the jobs at `t`: true remaining time or priority, then the arrival. -/
def key (scheme : Scheme) (t : ℤ) (s : Sched) (p : ℕ) : ℤ ×ₗ ℤ :=
  toLex (if scheme = .psjf then trueRemaining t s p else (s.heap p).priority,
    (s.heap p).arrivalTime)

theorem key_keeps {scheme : Scheme} {t : ℤ} {s s' : Sched} (h : Keeps t s s') {p : ℕ}
    (hp : p < s.fresh) : key scheme t s' p = key scheme t s p := by
  have hs := h.static p hp
  simp only [static, Prod.mk.injEq] at hs
  rw [key, key, h.remaining p hp, hs.2.1, hs.2.2.2]

/-- Keys of running jobs fall with time. -/
theorem key_mono {scheme : Scheme} {t t' : ℤ} (h : t ≤ t') (s : Sched) (p : ℕ) :
    key scheme t' s p ≤ key scheme t s p := by
  have hle : trueRemaining t' s p ≤ trueRemaining t s p := by
    unfold trueRemaining
    split_ifs <;> omega
  rw [key, key, Prod.Lex.toLex_le_toLex]
  split_ifs
  · simp only
    omega
  · simp

/-- Keys of queued jobs stand still. -/
theorem key_queued {scheme : Scheme} (t t' : ℤ) {s : Sched} (h : Wf s) {p : ℕ}
    (hp : p ∈ s.jobQueue) : key scheme t' s p = key scheme t s p := by
  have hslot : some p ∉ s.coreJobPtrs := h.not_running hp
  rw [key, key, trueRemaining, trueRemaining, if_neg hslot, if_neg hslot]

/-- The jobs that run. -/
def running (s : Sched) : List ℕ := s.coreJobPtrs.reduceOption

theorem mem_places_running {s : Sched} {p : ℕ} (h : p ∈ running s) : p ∈ places s :=
  List.mem_append_left _ h

/-- The queue is sorted, and no running job goes after a queued one. -/
def Ordered (scheme : Scheme) (t : ℤ) (s : Sched) : Prop :=
  BestFirst (key scheme t s) (running s) s.jobQueue

/-- Time goes by without a callback. -/
theorem Ordered.later {scheme : Scheme} {t t' : ℤ} {s : Sched} (h : Ordered scheme t s) (hw : Wf s)
    (ht : t ≤ t') : Ordered scheme t' s :=
  BestFirst.mono h (fun p _ => key_mono ht s p) fun _ hq => key_queued t t' hw hq

/-! ### The callbacks keep the order -/

/-- The records at an arrival are up to date. -/
theorem arrive_remaining {s : Sched} (h : Held [] s) (n t r pr : ℤ) (p : ℕ) :
    trueRemaining t (arrive n t r pr s) p = ((arrive n t r pr s).heap p).remainingTime := by
  unfold trueRemaining
  split_ifs with hp
  · rw [arrive_coreJobPtrs] at hp
    rw [arrive_heap h, if_neg (fun he : p = s.fresh => h.fresh_not_slot (he ▸ hp)), if_pos hp]
    simp [JobT.elapse]
  · rfl

/-- The keys at an arrival are those of the records. -/
theorem key_arrive {s : Sched} (h : Held [] s) (scheme : Scheme) (n t r pr : ℤ) (p : ℕ) :
    key scheme t (arrive n t r pr s) p = recordKey scheme ((arrive n t r pr s).heap p) := by
  rw [key, recordKey, field, arrive_remaining h]

/-- **`priqueue_offer` keeps the queue sorted by key.** -/
theorem offer_sorted {s : Sched} {p : ℕ}
    (hs : s.currentScheme = .psjf ∨ s.currentScheme = .ppri)
    (hfit : ∀ q ∈ s.jobQueue, Fits s.currentScheme (s.heap p) (s.heap q))
    (h : s.jobQueue.Pairwise fun a b =>
      recordKey s.currentScheme (s.heap a) ≤ recordKey s.currentScheme (s.heap b)) :
    (offer p s).jobQueue.Pairwise fun a b =>
      recordKey s.currentScheme (s.heap a) ≤ recordKey s.currentScheme (s.heap b) := by
  refine offer_pairwise (R := fun a b => recordKey s.currentScheme (s.heap a) ≤
    recordKey s.currentScheme (s.heap b)) (fun _ _ _ => le_trans) (fun q hq hlt => ?_)
    (fun q hq hlt => ?_) h
  · rw [comparer_eq hs] at hlt
    exact ((preemptCompare_neg (hfit q hq)).mp hlt).le
  · rw [comparer_eq hs] at hlt
    exact not_lt.mp fun hlt' => hlt ((preemptCompare_neg (hfit q hq)).mpr hlt')

theorem recordKey_setJob (scheme : Scheme) (w : ℕ) (c : ℤ) (s : Sched) (p : ℕ) :
    recordKey scheme ((setJob w { s.heap w with coreId := c } s).heap p) =
      recordKey scheme (s.heap p) := by
  rw [setJob_heap]
  split_ifs with hp
  · rw [hp]
    rfl
  · rfl

theorem newJob_ordered {s : Sched} {scheme : Scheme} (hs : scheme = .psjf ∨ scheme = .ppri)
    (hsch : s.currentScheme = scheme) (h : Wf s) {n t r pr : ℤ} (ho : Ordered scheme t s)
    (hfit : AllFit (arrive n t r pr s) s.fresh) :
    Ordered scheme t (schedulerNewJob n t r pr s).2 := by
  obtain ⟨hwf, hperm, hk⟩ := newJob_spec h n t r pr
  have hfr : ∀ p ∈ places (schedulerNewJob n t r pr s).2, p < (arrive n t r pr s).fresh :=
    fun p hp => by
      rcases List.mem_cons.mp (hperm.mem_iff.mp hp) with rfl | hp
      · exact Nat.lt_succ_self _
      · exact Nat.lt_succ_of_lt (h.fresh p hp)
  -- it is enough to compare the records at the arrival
  have hA : BestFirst (fun p => recordKey scheme ((arrive n t r pr s).heap p)) (running s)
      s.jobQueue := BestFirst.congr ho fun p hp => by
    rw [← key_arrive h.toHeld]
    exact key_keeps (Keeps.arrive h.toHeld n r pr) (h.fresh p hp)
  suffices hB : BestFirst (fun p => recordKey scheme ((arrive n t r pr s).heap p))
      (running (schedulerNewJob n t r pr s).2) (schedulerNewJob n t r pr s).2.jobQueue from
    hB.congr fun p hp => by
      rw [← key_arrive h.toHeld]
      exact key_keeps hk (hfr p hp)
  rcases newJob_cases n t r pr s with ⟨c, hc, -, he⟩ | ⟨hn, w, c, hc, hv, he⟩ | ⟨hn, hv, he⟩
  · rw [he, place_jobQueue, arrive_jobQueue, h.busy (List.mem_of_getElem? hc)]
    exact BestFirst.nil
  · subst hsch
    obtain ⟨hlt, hmax⟩ := victim_worst hfit hv
    rw [he]
    refine hA.preempt hmax (mem_reduceOption hc) hlt.le (fun p hp => ?_)
      (offer_jobQueue _ _) ?_
    · have hw := (reduceOption_swap (a := s.fresh) hc).mem_iff (a := p)
      exact List.mem_cons.mp (hw.mp (List.mem_cons_of_mem _ hp))
    · -- the record of the preempted job keeps its key
      have hso := offer_sorted (p := w)
        (s := setJob w { (arrive n t r pr s).heap w with coreId := -1 } (arrive n t r pr s)) hs
        (fun q hq => ?_) ?_
      · simp only [recordKey_setJob] at hso
        exact hso
      · exact (hfit w (List.mem_cons_of_mem _ (mem_places_slot hc)) q
          (List.mem_cons_of_mem _ (mem_places_queue hq))).congr
          (recordKey_setJob _ _ _ _ _) (recordKey_setJob _ _ _ _ _)
      · simp only [recordKey_setJob]
        exact hA.sorted
  · subst hsch
    rw [he]
    refine hA.enqueue (victim_none (s := arrive n t r pr s) hs hfit hv) (offer_jobQueue _ _) ?_
    exact offer_sorted (s := arrive n t r pr s) hs (fun q hq => hfit _ (List.mem_cons_self ..) _
      (List.mem_cons_of_mem _ (mem_places_queue hq))) hA.sorted

/-- A finish keeps the order of any keys that do not change. -/
theorem finished_best {K : Type} [LinearOrder K] {f f' : ℕ → K} {s s' : Sched} {core n t res : ℤ}
    {p : ℕ} (h : Wf s) (hp : jobOn core s = some p)
    (he : schedulerJobFinished core n t s = some (res, s')) (hkey : ∀ q ∈ places s, f' q = f q)
    (ho : BestFirst f (running s) s.jobQueue) : BestFirst f' (running s') s'.jobQueue := by
  obtain ⟨-, hc⟩ := jobOn_eq hp
  obtain rfl := finished_state hp he
  have hready := finish_ready h hc t
  have hleft : ∀ q ∈ running (finish p core.toNat t s), q ∈ running s := fun q hq =>
    (reduceOption_clear hc).mem_iff.mp (List.mem_cons_of_mem _ hq)
  have h₁ : BestFirst f (running (finish p core.toNat t s)) s.jobQueue :=
    ⟨ho.sorted, fun q hq => ho.best q (hleft q hq)⟩
  rcases pollOnto_cases core.toNat t (finish p core.toNat t s) with ⟨hq, hpoll⟩ | ⟨next, q, hq, hpoll⟩
  · rw [hpoll, hq]
    exact BestFirst.nil
  · have hq' : s.jobQueue = next :: q := hq
    have hmem : ∀ x ∈ running (placeJobOnCore next core.toNat t
        { finish p core.toNat t s with jobQueue := q }),
        x = next ∨ x ∈ running (finish p core.toNat t s) := fun x hx =>
      List.mem_cons.mp ((reduceOption_fill hready.empty).mem_iff.mp hx)
    rw [hq'] at h₁
    rw [hpoll]
    refine (h₁.poll hmem).congr fun x hx => hkey x ?_
    rcases List.mem_append.mp hx with hx | hx
    · rcases hmem x hx with rfl | hx
      · exact mem_places_queue (hq' ▸ List.mem_cons_self ..)
      · exact List.mem_append_left _ (hleft x hx)
    · exact mem_places_queue (hq' ▸ List.mem_cons_of_mem _ hx)

theorem finished_ordered {s s' : Sched} {scheme : Scheme} {core n t res : ℤ} {p : ℕ} (h : Wf s)
    (hp : jobOn core s = some p) (he : schedulerJobFinished core n t s = some (res, s'))
    (ho : Ordered scheme t s) : Ordered scheme t s' := by
  obtain ⟨-, -, hk⟩ := finished_call h hp he
  exact finished_best h hp he (fun q hq => key_keeps hk (h.fresh q hq)) ho

/-! ### Runs -/

/-- A legal run of a preemptive scheduler: times do not go back, arrival times are distinct, the
compared fields fit in an `int`, and only running jobs finish. The last callback was at the second
index, and `times` are the arrival times. -/
inductive Legal (cores : ℕ) (scheme : Scheme) : Sched → ℤ → List ℤ → List ℤ → List ℤ → Prop
  | startUp (t : ℤ) : Legal cores scheme (schedulerStartUp cores scheme) t [] [] []
  | newJob {s : Sched} {t : ℤ} {arrived finished times : List ℤ} (n t' r pr : ℤ) :
      Legal cores scheme s t arrived finished times → t ≤ t' → n ∉ arrived → t' ∉ times →
        AllFit (arrive n t' r pr s) s.fresh →
          Legal cores scheme (schedulerNewJob n t' r pr s).2 t' (n :: arrived) finished (t' :: times)
  | jobFinished {s s' : Sched} {t : ℤ} {arrived finished times : List ℤ} {core res : ℤ} {p : ℕ}
      (n t' : ℤ) : Legal cores scheme s t arrived finished times → t ≤ t' →
        jobOn core s = some p → schedulerJobFinished core n t' s = some (res, s') →
          Legal cores scheme s' t' arrived ((s.heap p).jobNumber :: finished) times

variable {cores : ℕ} {scheme : Scheme} {s : Sched} {t : ℤ} {arrived finished times : List ℤ}

theorem Legal.run (h : Legal cores scheme s t arrived finished times) :
    Run cores scheme s arrived finished := by
  induction h with
  | startUp t => exact .startUp
  | newJob n t' r pr _ _ hn _ _ ih => exact .newJob n t' r pr ih hn
  | jobFinished n t' _ _ hp he ih => exact .jobFinished n t' ih hp he

/-- The arrival times of the jobs that have a place. -/
def arrivals (s : Sched) : List ℤ := (statics s).map fun x => x.2.1

theorem Legal.arrivals (h : Legal cores scheme s t arrived finished times) :
    (arrivals s).Nodup ∧ ∀ a ∈ arrivals s, a ∈ times := by
  induction h with
  | startUp t =>
    have he : Preemptive.arrivals (schedulerStartUp cores scheme) = [] := by
      simp [Preemptive.arrivals, statics, places, schedulerStartUp,
        List.reduceOption_replicate_none]
    rw [he]
    exact ⟨List.nodup_nil, by simp⟩
  | @newJob s _ _ _ times n t' r pr hl _ _ ht _ ih =>
    have hperm : (Preemptive.arrivals (schedulerNewJob n t' r pr s).2).Perm
        (t' :: Preemptive.arrivals s) := (statics_newJob hl.run.account.wf n t' r pr).map _
    refine ⟨hperm.nodup_iff.mpr (List.nodup_cons.mpr ⟨fun hm => ht (ih.2 _ hm), ih.1⟩),
      fun a ha => ?_⟩
    rcases List.mem_cons.mp (hperm.mem_iff.mp ha) with rfl | ha
    · exact List.mem_cons_self ..
    · exact List.mem_cons_of_mem _ (ih.2 a ha)
  | @jobFinished s s' _ _ _ _ _ _ p n t' hl _ hp he ih =>
    obtain ⟨-, hperm, hk⟩ := finished_call hl.run.account.wf hp he
    have hst := statics_finished hl.run.account.wf hk hperm
    have hperm' : ((static (s.heap p)).2.1 :: Preemptive.arrivals s').Perm
        (Preemptive.arrivals s) := hst.map fun x : ℤ × ℤ × ℤ × ℤ => x.2.1
    exact ⟨(List.nodup_cons.mp (hperm'.nodup_iff.mpr ih.1)).2, fun a ha =>
      ih.2 a (hperm'.mem_iff.mp (List.mem_cons_of_mem _ ha))⟩

/-- **The order holds along every legal run.** -/
theorem Legal.ordered (hs : scheme = .psjf ∨ scheme = .ppri)
    (h : Legal cores scheme s t arrived finished times) : Ordered scheme t s := by
  induction h with
  | startUp t => exact BestFirst.nil
  | newJob n t' r pr hl ht _ _ hfit ih =>
    have ha := hl.run.account
    exact newJob_ordered hs ha.scheme ha.wf (ih.later ha.wf ht) hfit
  | jobFinished n t' hl ht hp he ih =>
    have ha := hl.run.account
    exact finished_ordered ha.wf hp he (ih.later ha.wf ht)

/-- Distinct arrival times make the order strict. -/
theorem Legal.strict (hs : scheme = .psjf ∨ scheme = .ppri)
    (h : Legal cores scheme s t arrived finished times) :
    ∀ p ∈ running s, ∀ q ∈ s.jobQueue, key scheme t s p < key scheme t s q := by
  intro p hp q hq
  refine lt_of_le_of_ne ((h.ordered hs).best p hp q hq) fun he => ?_
  have harr : (s.heap p).arrivalTime = (s.heap q).arrivalTime :=
    (Prod.ext_iff.mp (toLex_inj.mp he)).2
  have hnd := h.arrivals.1
  rw [Preemptive.arrivals, statics, List.map_map] at hnd
  have hpq : p = q := List.inj_on_of_nodup_map hnd (mem_places_running hp)
    (mem_places_queue hq) harr
  obtain ⟨c, hc⟩ := exists_slot hp
  exact h.run.account.wf.not_queued hc (hpq ▸ hq)

/-- From `s` to `s'` at most one running job was preempted: the worst one, for the new job. -/
def PreemptsWorst (scheme : Scheme) (t : ℤ) (s s' : Sched) : Prop :=
  (∀ p ∈ running s, p ∈ running s') ∨
    ∃ w ∈ running s, (∀ p ∈ running s, key scheme t s p ≤ key scheme t s w) ∧
      (w :: running s').Perm (s.fresh :: running s)

theorem newJob_preempts (hsch : s.currentScheme = scheme) (h : Wf s) {n r pr : ℤ}
    (hfit : AllFit (arrive n t r pr s) s.fresh) :
    PreemptsWorst scheme t s (schedulerNewJob n t r pr s).2 := by
  rcases newJob_cases n t r pr s with ⟨c, hc, -, he⟩ | ⟨-, w, c, hc, hv, he⟩ | ⟨-, -, he⟩
  · rw [he]
    exact Or.inl fun p hp => (reduceOption_fill hc).mem_iff.mpr (List.mem_cons_of_mem _ hp)
  · subst hsch
    have hkey : ∀ p ∈ running s, recordKey s.currentScheme ((arrive n t r pr s).heap p) =
        key s.currentScheme t s p := fun p hp => by
      rw [← key_arrive h.toHeld]
      exact key_keeps (Keeps.arrive h.toHeld n r pr) (h.lt_fresh (mem_places_running hp))
    refine Or.inr ⟨w, mem_reduceOption hc, fun p hp => ?_, ?_⟩
    · rw [← hkey p hp, ← hkey w (mem_reduceOption hc)]
      exact (victim_worst hfit hv).2 p hp
    · rw [he]
      exact reduceOption_swap hc
  · rw [he]
    exact Or.inl fun p hp => hp

/-- **Preemptive policies run the best jobs.** After every callback of a legal run each job on a core
goes before each queued job, the running jobs are the `min cores unfinished` best unfinished ones,
and an arrival preempts at most the worst running job. -/
theorem preemptive (hs : scheme = .psjf ∨ scheme = .ppri)
    (h : Legal cores scheme s t arrived finished times) :
    (∀ p ∈ running s, ∀ q ∈ s.jobQueue, key scheme t s p < key scheme t s q) ∧
    (numbers s).Perm (arrived.filter (· ∉ finished)) ∧
    (∀ p ∈ places s, p ∈ running s ↔ rank (key scheme t s) (places s) p <
      min cores (arrived.filter (· ∉ finished)).length) ∧
    (running s).length = min cores (arrived.filter (· ∉ finished)).length ∧
    (∀ n t' r pr : ℤ, t ≤ t' → n ∉ arrived → t' ∉ times → AllFit (arrive n t' r pr s) s.fresh →
      PreemptsWorst scheme t' s (schedulerNewJob n t' r pr s).2) := by
  have ha := h.run.account
  have hlen : (running s).length = min cores (arrived.filter (· ∉ finished)).length := by
    rw [← ha.length_places]
    exact ha.busy
  refine ⟨h.strict hs, ha.numbers_perm, fun p hp => ?_, hlen, fun n t' r pr _ _ _ hfit =>
    newJob_preempts ha.scheme ha.wf hfit⟩
  rw [← hlen]
  exact (rank_lt_iff (h.strict hs) (le_refl _) (fun _ => rfl) hp).symm

/-- A short job preempts a long one. -/
theorem preemptive_short : ∃ s, Legal 1 .psjf s 1 [2, 1] [] [1, 0] ∧
    ∀ p ∈ running s, ∀ q ∈ s.jobQueue, key .psjf 1 s p < key .psjf 1 s q := by
  have h : Legal 1 .psjf (schedulerNewJob 2 1 2 0
      (schedulerNewJob 1 0 5 0 (schedulerStartUp 1 .psjf)).2).2 1 [2, 1] [] [1, 0] :=
    .newJob 2 1 2 0 (.newJob 1 0 5 0 (.startUp 0) (by decide) (by decide) (by decide) (by decide))
      (by decide) (by decide) (by decide) (by decide)
  exact ⟨_, h, (preemptive (Or.inl rfl) h).1⟩

end Eecs678.Scheduler.Preemptive
