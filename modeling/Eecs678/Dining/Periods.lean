import Eecs678.Dining.Holding
import Eecs678.Lib.Interleaving
import Eecs678.Lib.Locks

/-!
# The whole program of the philosophers

`main` of `dining_philosophers.c`, which `dp_asymmetric.c` and `dp_waiter.c` share, beside the threads:
the accounting periods, the test for deadlock, `Stop`, the release of all chopsticks and the joins. What
`main` unlocks need not be its own. So after the release a thread may not own what it has locked, but it
has locked what it owns (`Owned`). A program that is stuck before it is over is at a `pthread_join`, and
the threads that have not ended wait for each other (`deadlocked_of_stuck`).
-/

namespace Eecs678.Dining.Periods

open Eecs678.Lib.Interleaving Eecs678.Lib.Locks Eecs678.Dining.Holding
open Eecs678.Dining.Model hiding Step Reachable

variable {n : ℕ}

/-! ### States -/

/-- Where `main` is, after `set_table`. -/
inductive MainPc
  /-- In the loop over `Diners[i].prog = 0`. -/
  | reset (i : ℕ)
  /-- At `sleep(ACCOUNTING_PERIOD)`. -/
  | sleep
  /-- In the loop over `if (Diners[i].prog)`. -/
  | check (i : ℕ)
  /-- At `print_progress` and `iter++`. -/
  | print
  /-- At `while (!deadlock && iter < ITERATION_LIMIT)`. -/
  | while
  /-- At `Stop = 1`. -/
  | stop
  /-- At the `printf` of the result. -/
  | report
  /-- In the loop over `pthread_mutex_unlock(&chopstick[i])`. -/
  | unlock (i : ℕ)
  /-- In the loop over `pthread_join(Diners[i].thread, NULL)`. -/
  | join (i : ℕ)
  | returned
deriving DecidableEq, Repr

/-- `ended` are the threads that have returned from `dp_thread`, `report` is what `main` has printed
below the tables. -/
structure Program (n : ℕ) where
  table : Table n
  ended : Fin n → Bool
  stop : Bool
  main : MainPc
  deadlock : Bool
  iter : ℕ
  report : Option String

/-- After `set_table`. -/
def start (n : ℕ) : Program n where
  table := setTable n
  ended := fun _ => false
  stop := false
  main := .reset 0
  deadlock := false
  iter := 0
  report := none

/-- `ITERATION_LIMIT`. -/
def iterationLimit : ℕ := 10

/-! ### Steps -/

/-- The next step of the thread of `p`. -/
def threadStep (take : Fin n → ℤ → List (Fin n)) (p : Fin n) (a : Answer) (s : Program n) :
    Option (Program n) :=
  if s.ended p = true then none
  else if s.stop = true ∧ (s.table.diners p).pc = .loop then
    some { s with ended := Function.update s.ended p true }
  else (dpThread take p a s.table).map fun table => { s with table }

/-- The next step of `main`. -/
def mainStep (s : Program n) : Option (Program n) :=
  match s.main with
  | .reset i =>
    if h : i < n then some { s with table := s.table.reset ⟨i, h⟩, main := .reset (i + 1) }
    else some { s with main := .sleep }
  | .sleep => some { s with deadlock := true, main := .check 0 }
  | .check i =>
    if h : i < n then
      some { s with
        deadlock := if (s.table.diners ⟨i, h⟩).prog ≠ 0 then false else s.deadlock
        main := .check (i + 1) }
    else some { s with main := .print }
  | .print => some { s with iter := s.iter + 1, main := .while }
  | .while =>
    if s.deadlock = false ∧ s.iter < iterationLimit then some { s with main := .reset 0 }
    else some { s with main := .stop }
  | .stop => some { s with stop := true, main := .report }
  | .report =>
    some { s with
      report := some (if s.deadlock then "Deadlock Detected\n" else "Finished without Deadlock\n")
      main := .unlock 0 }
  | .unlock i =>
    if h : i < n then some { s with table := s.table.unlock ⟨i, h⟩, main := .unlock (i + 1) }
    else some { s with main := .join 0 }
  | .join i =>
    if h : i < n then if s.ended ⟨i, h⟩ = true then some { s with main := .join (i + 1) } else none
    else some { s with main := .returned }
  | .returned => none

/-- Who takes a step. -/
inductive Actor (n : ℕ)
  | main
  | thread (p : Fin n) (a : Answer)

/-- One step of the program. -/
def step (take : Fin n → ℤ → List (Fin n)) : Actor n → Program n → Option (Program n)
  | .main, s => mainStep s
  | .thread p a, s => threadStep take p a s

/-- The program is over. -/
def Over (s : Program n) : Prop := s.main = .returned ∧ ∀ p, s.ended p = true

/-- Where `main` has set `Stop`. -/
def MainPc.stopped : MainPc → Bool
  | .report => true
  | .unlock _ => true
  | .join _ => true
  | .returned => true
  | _ => false

/-- Where `main` has begun to release the chopsticks. -/
def MainPc.releasing : MainPc → Bool
  | .unlock _ => true
  | .join _ => true
  | .returned => true
  | _ => false

/-- Where `main` is in a period. -/
def MainPc.inPeriod : MainPc → Bool
  | .reset _ => true
  | .sleep => true
  | .check _ => true
  | .print => true
  | _ => false

/-- The threads that `main` has joined. -/
def MainPc.joined : MainPc → ℕ → Prop
  | .join i, j => j < i
  | .returned, _ => True
  | _, _ => False

variable {take : Fin n → ℤ → List (Fin n)} {s s' : Program n} {p : Fin n} {a : Answer}

/-- **What a thread can do**: it ends, or it goes on with `dp_thread`. -/
theorem threadStep_cases (h : threadStep take p a s = some s') :
    s.ended p = false ∧
      ((s.stop = true ∧ (s.table.diners p).pc = .loop ∧
        s' = { s with ended := Function.update s.ended p true }) ∨
      (¬ (s.stop = true ∧ (s.table.diners p).pc = .loop) ∧
        ∃ table, dpThread take p a s.table = some table ∧ s' = { s with table })) := by
  unfold threadStep at h
  split_ifs at h with he hl
  · exact ⟨by simpa using he, .inl ⟨hl.1, hl.2, (Option.some.inj h).symm⟩⟩
  · obtain ⟨table, ht, rfl⟩ := Option.map_eq_some_iff.mp h
    exact ⟨by simpa using he, .inr ⟨hl, table, ht, rfl⟩⟩

/-! ### What a thread has locked -/

/-- The chopsticks still to be locked are the last ones of the order, and a thread has locked what it
owns. -/
structure Owned (order : Fin n → List (Fin n)) (t : Table n) : Prop where
  rest : ∀ p, Rest order p (t.diners p).pc
  owned : ∀ {p chop}, t.chopstick chop = some p → chop ∈ holds p (t.diners p).pc

variable {order : Fin n → List (Fin n)} {t t' : Table n}

theorem owned_of_inv (h : Inv order t) : Owned order t := ⟨h.rest, fun hc => (h.owner _ _).mp hc⟩

/-- What a step of one thread has to show. -/
theorem Owned.step (h : Owned order t) {pc : Pc n} (hrest : Rest order p pc)
    (hchops : ∀ q c, t'.chopstick c = some q → t.chopstick c = some q ∨ (q = p ∧ c ∈ holds p pc))
    (hpc : ∀ q, (t'.diners q).pc = if q = p then pc else (t.diners q).pc)
    (hholds : ∀ c, t'.chopstick c = some p → c ∈ holds p (t.diners p).pc → c ∈ holds p pc) :
    Owned order t' := by
  refine ⟨fun q => ?_, fun {q c} hc => ?_⟩
  · rw [hpc]
    split_ifs with hq
    · exact hq ▸ hrest
    · exact h.rest q
  · rw [hpc]
    split_ifs with hq
    · subst hq
      rcases hchops q c hc with hold | ⟨-, hmem⟩
      · exact hholds c hc (h.owned hold)
      · exact hmem
    · rcases hchops q c hc with hold | ⟨hqp, -⟩
      · exact h.owned hold
      · exact absurd hqp hq

theorem Owned.goto (h : Owned order t) (pc : Pc n) (hrest : Rest order p pc)
    (hholds : ∀ c, c ∈ holds p (t.diners p).pc → c ∈ holds p pc) : Owned order (t.goto p pc) :=
  h.step hrest (fun _ _ hc => .inl hc) (fun q => goto_pc q pc) fun c _ => hholds c

theorem Owned.lock (h : Owned order t) {chop : Fin n} {pc : Pc n} (hrest : Rest order p pc)
    (hchop : chop ∈ holds p pc) (hholds : ∀ c, c ∈ holds p (t.diners p).pc → c ∈ holds p pc) :
    Owned order ((t.lock p chop).goto p pc) := by
  refine h.step hrest (fun q c hc => ?_) (fun q => goto_pc q pc) fun c _ => hholds c
  change (t.lock p chop).chopstick c = some q at hc
  rw [lock_chopstick] at hc
  split_ifs at hc with he
  · exact .inr ⟨(Option.some.inj hc).symm, he ▸ hchop⟩
  · exact .inl hc

theorem Owned.unlock (h : Owned order t) {chop : Fin n} {pc : Pc n} (hrest : Rest order p pc)
    (hholds : ∀ c, c ≠ chop → c ∈ holds p (t.diners p).pc → c ∈ holds p pc) :
    Owned order ((t.unlock chop).goto p pc) := by
  have hcs : ∀ {q c}, (t.unlock chop).chopstick c = some q → c ≠ chop ∧ t.chopstick c = some q := by
    intro q c hc
    rw [unlock_chopstick] at hc
    split_ifs at hc with he
    exact ⟨he, hc⟩
  exact h.step hrest (fun q c hc => .inl (hcs hc).2) (fun q => goto_pc q pc)
    fun c hc => hholds c (hcs hc).1

/-- A release by `main`. -/
theorem Owned.free (h : Owned order t) (chop : Fin n) : Owned order (t.unlock chop) := by
  refine ⟨h.rest, fun {q c} hc => h.owned ?_⟩
  rw [unlock_chopstick] at hc
  split_ifs at hc
  exact hc

theorem reset_pc (q : Fin n) : ((t.reset p).diners q).pc = (t.diners q).pc := by
  simp only [Table.reset, Function.update_apply]
  split_ifs with hq
  · rw [hq]
  · rfl

theorem update_pc (q : Fin n) : ((t.update p).diners q).pc = (t.diners q).pc := by
  simp only [Table.update, Function.update_apply]
  split_ifs with hq
  · rw [hq]
  · rfl

theorem Owned.of_pc (h : Owned order t) (hpc : ∀ q, (t'.diners q).pc = (t.diners q).pc)
    (hchops : t'.chopstick = t.chopstick) : Owned order t' :=
  ⟨fun q => hpc q ▸ h.rest q, fun {q _} hc => hpc q ▸ h.owned (hchops ▸ hc)⟩

/-- **One step of a thread.** -/
theorem Owned.dpThread (ho : Orders order) (hn : 2 ≤ n) (ha : take p a.available = order p)
    (h : Owned order t) (hstep : dpThread take p a t = some t') : Owned order t' := by
  have hrest := h.rest p
  unfold Model.dpThread at hstep
  cases hpc : (t.diners p).pc with
  | loop =>
    simp only [hpc, Option.some.injEq] at hstep
    exact hstep ▸ h.goto _ trivial fun c hc => absurd (hpc ▸ hc) List.not_mem_nil
  | think left eatRnd =>
    have hnil : ∀ c, c ∉ holds p (t.diners p).pc := fun c hc => by
      rw [hpc] at hc
      exact absurd hc List.not_mem_nil
    cases left with
    | zero =>
      simp only [hpc, Option.some.injEq, ha] at hstep
      exact hstep ▸ h.goto _ List.suffix_rfl fun c hc => absurd hc (hnil c)
    | succ left =>
      simp only [hpc, Option.some.injEq] at hstep
      exact hstep ▸ h.goto _ trivial fun c hc => absurd hc (hnil c)
  | grab chops eatRnd =>
    rw [hpc] at hrest
    cases chops with
    | nil =>
      simp only [hpc, Option.some.injEq] at hstep
      refine hstep ▸ h.goto _ trivial fun c hc => ?_
      rw [hpc, mem_holds_grab] at hc
      simpa [holds] using hc.1
    | cons chop chops =>
      simp only [hpc] at hstep
      split_ifs at hstep with hfree
      simp only [Option.some.injEq] at hstep
      have hsuf : chop :: chops <:+ order p := hrest
      have hchop := (mem_order ho).mp (hsuf.subset (List.mem_cons_self ..))
      have hnot := (List.nodup_cons.mp (hsuf.sublist.nodup (nodup_order hn ho))).1
      refine hstep ▸ h.lock ((List.suffix_cons chop chops).trans hsuf)
        (mem_holds_grab.mpr ⟨hchop, hnot⟩) fun c hc => ?_
      rw [hpc, mem_holds_grab, List.mem_cons, not_or] at hc
      exact mem_holds_grab.mpr ⟨hc.1, hc.2.2⟩
  | eat left =>
    cases left with
    | zero =>
      simp only [hpc, Option.some.injEq] at hstep
      exact hstep ▸ h.goto _ trivial fun c hc => by rwa [hpc] at hc
    | succ left =>
      simp only [hpc, Option.some.injEq] at hstep
      exact hstep ▸ h.goto _ trivial fun c hc => by rwa [hpc] at hc
  | releaseRight =>
    simp only [hpc, Option.some.injEq] at hstep
    refine hstep ▸ h.unlock trivial fun c hne hc => ?_
    rw [hpc] at hc
    simp only [holds, List.mem_cons, List.not_mem_nil, or_false] at hc ⊢
    exact hc.resolve_right hne
  | releaseLeft =>
    simp only [hpc, Option.some.injEq] at hstep
    refine hstep ▸ h.unlock trivial fun c hne hc => ?_
    rw [hpc] at hc
    simp only [holds, List.mem_cons, List.not_mem_nil, or_false] at hc
    exact absurd hc hne
  | progress =>
    simp only [hpc, Option.some.injEq] at hstep
    refine hstep ▸ (h.of_pc update_pc rfl).goto _ trivial fun _ hc => ?_
    rw [update_pc, hpc] at hc
    exact absurd hc List.not_mem_nil

/-! ### The states of the runs -/

/-- What holds in every state. -/
structure Ok (order : Fin n → List (Fin n)) (s : Program n) : Prop where
  owned : Owned order s.table
  inv : s.main.releasing = false → Inv order s.table
  ended : ∀ p, s.ended p = true → (s.table.diners p).pc = .loop
  stop : s.stop = s.main.stopped
  iter : s.main.inPeriod = true → s.iter < iterationLimit
  joined : ∀ p : Fin n, s.main.joined p.val → s.ended p = true

theorem ok_start : Ok order (start n) where
  owned := owned_of_inv inv_setTable
  inv := fun _ => inv_setTable
  ended := fun _ h => by cases h
  stop := rfl
  iter := fun _ => Nat.zero_lt_succ 9
  joined := fun _ h => h.elim

theorem inv_reset (h : Inv order t) (p : Fin n) : Inv order (t.reset p) :=
  ⟨fun q => (reset_pc (t := t) (p := p) q).symm ▸ h.rest q,
    fun q c => (reset_pc (t := t) (p := p) q).symm ▸ h.owner q c⟩

/-- A thread that steps is the only one that changes its place. -/
theorem dpThread_pc (h : dpThread take p a t = some t') {q : Fin n} (hq : q ≠ p) :
    (t'.diners q).pc = (t.diners q).pc := by
  unfold dpThread at h
  split at h
  · rw [← Option.some.inj h, goto_pc, if_neg hq]
  · rw [← Option.some.inj h, goto_pc, if_neg hq]
  · rw [← Option.some.inj h, goto_pc, if_neg hq]
  · split_ifs at h
    rw [← Option.some.inj h, goto_pc, if_neg hq]
    rfl
  · rw [← Option.some.inj h, goto_pc, if_neg hq]
  · rw [← Option.some.inj h, goto_pc, if_neg hq]
  · rw [← Option.some.inj h, goto_pc, if_neg hq]
  · rw [← Option.some.inj h, goto_pc, if_neg hq]
    rfl
  · rw [← Option.some.inj h, goto_pc, if_neg hq]
    rfl
  · rw [← Option.some.inj h, goto_pc, if_neg hq, update_pc]

/-- **A step of a thread** of the program. -/
theorem ok_threadStep (hn : 2 ≤ n) (ho : Orders order) (ha : take p a.available = order p)
    (h : Ok order s) (hstep : threadStep take p a s = some s') : Ok order s' := by
  obtain ⟨hp, ⟨-, hpc, rfl⟩ | ⟨-, table, ht, rfl⟩⟩ := threadStep_cases hstep
  · refine ⟨h.owned, h.inv, fun q hq => ?_, h.stop, h.iter, fun q hq => ?_⟩
    · by_cases hqp : q = p
      · rw [hqp]
        exact hpc
      · exact h.ended q ((Function.update_of_ne hqp ..).symm.trans hq)
    · by_cases hqp : q = p
      · rw [hqp]
        exact Function.update_self ..
      · exact (Function.update_of_ne hqp ..).trans (h.joined q hq)
  · refine ⟨h.owned.dpThread ho hn ha ht, fun hm => inv_dpThread hn ho ha (h.inv hm) ht,
      fun q hq => ?_, h.stop, h.iter, h.joined⟩
    have hqp : q ≠ p := by
      rintro rfl
      rw [hp] at hq
      cases hq
    rw [dpThread_pc ht hqp]
    exact h.ended q hq

/-- **A step of `main`.** -/
theorem ok_mainStep (h : Ok order s) (hstep : mainStep s = some s') : Ok order s' := by
  have hstop := h.stop
  have hiter := h.iter
  have hinv := h.inv
  have hjoined := h.joined
  unfold mainStep at hstep
  cases hm : s.main with
  | reset i =>
    rw [hm] at hstop hiter hinv
    simp only [hm] at hstep
    split_ifs at hstep with hi
    · rw [← Option.some.inj hstep]
      exact ⟨h.owned.of_pc reset_pc rfl, fun _ => inv_reset (hinv rfl) _,
        fun q hq => (reset_pc q).trans (h.ended q hq), hstop, hiter, fun _ hj => hj.elim⟩
    · rw [← Option.some.inj hstep]
      exact ⟨h.owned, fun _ => hinv rfl, h.ended, hstop, hiter, fun _ hj => hj.elim⟩
  | sleep =>
    rw [hm] at hstop hiter hinv
    simp only [hm, Option.some.injEq] at hstep
    rw [← hstep]
    exact ⟨h.owned, fun _ => hinv rfl, h.ended, hstop, hiter, fun _ hj => hj.elim⟩
  | check i =>
    rw [hm] at hstop hiter hinv
    by_cases hi : i < n
    · simp only [hm, dif_pos hi, Option.some.injEq] at hstep
      rw [← hstep]
      exact ⟨h.owned, fun _ => hinv rfl, h.ended, hstop, hiter, fun _ hj => hj.elim⟩
    · simp only [hm, dif_neg hi, Option.some.injEq] at hstep
      rw [← hstep]
      exact ⟨h.owned, fun _ => hinv rfl, h.ended, hstop, hiter, fun _ hj => hj.elim⟩
  | print =>
    rw [hm] at hstop hinv
    simp only [hm, Option.some.injEq] at hstep
    rw [← hstep]
    exact ⟨h.owned, fun _ => hinv rfl, h.ended, hstop, fun hp => (by cases hp), fun _ hj => hj.elim⟩
  | «while» =>
    rw [hm] at hstop hinv
    simp only [hm] at hstep
    split_ifs at hstep with hw
    · rw [← Option.some.inj hstep]
      exact ⟨h.owned, fun _ => hinv rfl, h.ended, hstop, fun _ => hw.2, fun _ hj => hj.elim⟩
    · rw [← Option.some.inj hstep]
      exact ⟨h.owned, fun _ => hinv rfl, h.ended, hstop, fun hp => (by cases hp), fun _ hj => hj.elim⟩
  | stop =>
    rw [hm] at hinv
    simp only [hm, Option.some.injEq] at hstep
    rw [← hstep]
    exact ⟨h.owned, fun _ => hinv rfl, h.ended, rfl, fun hp => (by cases hp), fun _ hj => hj.elim⟩
  | report =>
    rw [hm] at hstop
    simp only [hm, Option.some.injEq] at hstep
    rw [← hstep]
    exact ⟨h.owned, fun hp => (by cases hp), h.ended, hstop, fun hp => (by cases hp),
      fun _ hj => hj.elim⟩
  | unlock i =>
    rw [hm] at hstop
    simp only [hm] at hstep
    split_ifs at hstep with hi
    · rw [← Option.some.inj hstep]
      exact ⟨h.owned.free _, fun hp => (by cases hp), h.ended, hstop, fun hp => (by cases hp),
        fun _ hj => hj.elim⟩
    · rw [← Option.some.inj hstep]
      exact ⟨h.owned, fun hp => (by cases hp), h.ended, hstop, fun hp => (by cases hp),
        fun q hj => absurd hj (Nat.not_lt_zero _)⟩
  | join i =>
    rw [hm] at hstop hjoined
    simp only [hm] at hstep
    split_ifs at hstep with hi he
    · rw [← Option.some.inj hstep]
      refine ⟨h.owned, fun hp => (by cases hp), h.ended, hstop, fun hp => (by cases hp), fun q hj => ?_⟩
      rcases Nat.lt_succ_iff_lt_or_eq.mp hj with hj | hj
      · exact hjoined q hj
      · rw [show q = ⟨i, hi⟩ from Fin.ext hj]
        exact he
    · rw [← Option.some.inj hstep]
      exact ⟨h.owned, fun hp => (by cases hp), h.ended, hstop, fun hp => (by cases hp),
        fun q _ => hjoined q (lt_of_lt_of_le q.isLt (not_lt.mp hi))⟩
  | returned =>
    simp only [hm, reduceCtorEq] at hstep

/-- **Every step of the program.** -/
theorem ok_step (hn : 2 ≤ n) (ho : Orders order) (ha : ∀ p x, take p x = order p) {actor : Actor n}
    (h : Ok order s) (hstep : step take actor s = some s') : Ok order s' := by
  cases actor with
  | main => exact ok_mainStep h hstep
  | thread p a => exact ok_threadStep hn ho (ha p a.available) h hstep

/-- **Every reachable state.** -/
theorem ok_reachable (hn : 2 ≤ n) (ho : Orders order) (ha : ∀ p x, take p x = order p)
    (h : Reachable (step take) (start n) s) : Ok order s :=
  invariant (Ok order) ok_start (fun _ _ _ hs hstep => ok_step hn ho ha hs hstep) h

/-! ### When nobody can step -/

/-- A thread that owns one chopstick and waits for another is at its second lock. -/
theorem order_of_owned (ho : Orders order) (h : Owned order t) {c c' : Fin n}
    (hown : t.chopstick c = some p) (hw : wants t p = some c') : order p = [c, c'] := by
  unfold wants at hw
  split at hw
  · next chop chops eatRnd hpc =>
    obtain rfl := Option.some.inj hw
    have hrest := h.rest p
    have hmem := h.owned hown
    rw [hpc] at hrest
    rw [hpc, mem_holds_grab, ← mem_order ho] at hmem
    obtain ⟨hc, hnot⟩ := hmem
    obtain ⟨x, y, hxy⟩ : ∃ x y, order p = [x, y] := by
      rcases ho p with he | he
      · exact ⟨_, _, he⟩
      · exact ⟨_, _, he⟩
    have hsuf : chop :: chops <:+ [x, y] := hxy ▸ hrest
    rw [hxy] at hc ⊢
    rcases List.suffix_cons_iff.mp hsuf with he | hsuf
    · exact absurd (he ▸ hc) hnot
    · rcases List.suffix_cons_iff.mp hsuf with he | hsuf
      · obtain ⟨rfl, rfl⟩ : chop = y ∧ chops = [] := by simpa using he
        have hcx : c = x := by
          simp only [List.mem_cons, List.not_mem_nil, or_false] at hc hnot
          exact hc.resolve_right hnot
        rw [hcx]
      · cases List.suffix_nil.mp hsuf
  · cases hw

/-- A thread does not wait for its own chopstick. -/
theorem Owned.not_own (h : Owned order t) {c : Fin n} (hw : wants t p = some c) :
    t.chopstick c ≠ some p := by
  intro hown
  have hmem := h.owned hown
  unfold wants at hw
  split at hw
  · next chop chops eatRnd hpc =>
    rw [hpc, mem_holds_grab, Option.some.inj hw] at hmem
    exact hmem.2 (List.mem_cons_self ..)
  · cases hw

/-- A thread that has not ended steps unless it waits for a chopstick. -/
theorem waits_of_threadStep (hp : s.ended p = false) (h : ∀ a, threadStep take p a s = none) :
    ∃ c q, wants s.table p = some c ∧ s.table.chopstick c = some q := by
  by_contra hno
  have hsome : (threadStep take p ⟨0, 0, 0⟩ s).isSome := by
    unfold threadStep
    rw [if_neg (by rw [hp]; exact Bool.false_ne_true)]
    split_ifs
    · rfl
    · rw [Option.isSome_map]
      refine dpThread_isSome p _ fun c hw => ?_
      cases hown : s.table.chopstick c with
      | none => rfl
      | some q => exact absurd ⟨c, q, hw, hown⟩ hno
  rw [h] at hsome
  cases hsome

/-- `main` steps unless it waits for a thread or has returned. -/
theorem mainStep_none (h : mainStep s = none) :
    s.main = .returned ∨ ∃ (i : ℕ) (hi : i < n), s.main = .join i ∧ s.ended ⟨i, hi⟩ = false := by
  unfold mainStep at h
  split at h
  · split_ifs at h
  · cases h
  · split_ifs at h
  · cases h
  · split_ifs at h
  · cases h
  · cases h
  · split_ifs at h
  · next i hm =>
    split_ifs at h with hi he
    exact .inr ⟨i, hi, hm, by simpa using he⟩
  · next hm => exact .inl hm

/-- **When nobody can step**: the program is over, or `main` waits for a thread, and the threads that
have not ended wait for each other. -/
theorem deadlocked_of_stuck (h : Ok order s) (hs : Stuck (step take) s) :
    Over s ∨ (∃ i, s.main = .join i) ∧
      Deadlocked s.table.chopstick (wants s.table) {p | s.ended p = false} := by
  rcases mainStep_none (hs .main) with hm | ⟨i, hi, hm, hlive⟩
  · exact .inl ⟨hm, fun p => h.joined p (by rw [hm]; trivial)⟩
  · refine .inr ⟨⟨i, hm⟩, ⟨⟨i, hi⟩, hlive⟩, fun p hp => ?_⟩
    obtain ⟨c, q, hw, hown⟩ := waits_of_threadStep hp fun a => hs (.thread p a)
    refine ⟨c, hw, q, ?_, ?_, hown⟩
    · -- a thread that has ended owns nothing
      rw [Set.mem_ofPred_eq, ← Bool.not_eq_true]
      intro hq
      have hmem := h.owned.owned hown
      rw [h.ended q hq] at hmem
      exact List.not_mem_nil hmem
    · rintro rfl
      exact h.owned.not_own hw hown

end Eecs678.Dining.Periods
