import Eecs678.Counting.Model
import Mathlib.Algebra.BigOperators.Group.Finset.Piecewise
import Mathlib.Algebra.BigOperators.Ring.Finset
import Mathlib.Tactic.Ring

/-!
# No increment is lost

With the fetch-and-add, `count` is the sum of what the threads have added (`Inv`). With the mutex, the
thread that holds it has read the `count` that it adds to (`Held`), so its write is the fetch-and-add, and
its other steps change nothing (`mutex_refines`). `no_lost_increment` says so of both programs.
-/

namespace Eecs678.Counting.NoLostIncrement

open Eecs678.Counting.Model

variable {n : ℕ} {B : Type} {args : ThreadArgs} {p : Fin n}

/-! ### The steps of a thread -/

/-- The steps of `inc_count`, on what the thread and all threads have. -/
inductive Moves (body : Body B n) (args : ThreadArgs) (p : Fin n) :
    Thread B → Shared n → Thread B → Shared n → Prop
  | enter {me shared} (hpc : me.pc = .test) (hi : me.i < args.loop) :
      Moves body args p me shared { me with pc := .body body.first } shared
  | exit {me shared} (hpc : me.pc = .test) (hi : ¬ me.i < args.loop) :
      Moves body args p me shared { me with pc := .exited } shared
  | body {me shared b b' shared'} (hpc : me.pc = .body b)
      (hstep : body.step args p b shared = some (b', shared')) :
      Moves body args p me shared { me with pc := after b' } shared'
  | count {me shared} (hpc : me.pc = .local) :
      Moves body args p me shared ⟨.test, me.i + 1, add me.loc args.inc⟩ shared

/-- **A step of a thread** changes only what it has itself, and what all have. -/
theorem incCount_cases {body : Body B n} {s t : State B n} (h : incCount body args p s = some t) :
    ∃ me shared, t = ⟨Function.update s.threads p me, shared⟩ ∧
      Moves body args p (s.threads p) s.shared me shared := by
  unfold incCount at h
  cases hpc : (s.threads p).pc with
  | test =>
    simp only [hpc] at h
    split_ifs at h with hi
    · exact ⟨_, _, (Option.some.inj h).symm, .enter hpc hi⟩
    · exact ⟨_, _, (Option.some.inj h).symm, .exit hpc hi⟩
  | body b =>
    simp only [hpc] at h
    obtain ⟨⟨b', shared⟩, hstep, h⟩ := Option.bind_eq_some_iff.mp h
    exact ⟨_, _, (Option.some.inj h).symm, .body hpc hstep⟩
  | «local» =>
    simp only [hpc] at h
    exact ⟨_, _, (Option.some.inj h).symm, .count hpc⟩
  | exited =>
    simp only [hpc] at h
    cases h

theorem incCount_moves {body : Body B n} {s : State B n} {me : Thread B} {shared : Shared n}
    (h : Moves body args p (s.threads p) s.shared me shared) :
    incCount body args p s = some ⟨Function.update s.threads p me, shared⟩ := by
  unfold incCount
  rcases h with ⟨hpc, hi⟩ | ⟨hpc, hi⟩ | ⟨hpc, hstep⟩ | hpc
  · simp only [hpc, if_pos hi]
  · simp only [hpc, if_neg hi]
  · simp only [hpc, hstep]
    rfl
  · simp only [hpc]

/-! ### The fetch-and-add -/

/-- How often the thread has added to `count`. -/
def added (t : Thread Unit) : ℤ := t.i + if t.pc = .local then 1 else 0

/-- What a thread has done in its rounds. -/
structure Rounds (args : ThreadArgs) (t : Thread Unit) : Prop where
  le : t.i ≤ args.loop
  lt : t.pc ≠ .test → t.pc ≠ .exited → t.i < args.loop
  exited : t.pc = .exited → t.i = args.loop
  loc : t.loc = Int.bmod (t.i * args.inc) (2 ^ 32)

structure Inv (args : ThreadArgs) (s : State Unit n) : Prop where
  rounds : ∀ p, Rounds args (s.threads p)
  free : s.shared.countMutex = none
  count : s.shared.count = Int.bmod ((∑ p, added (s.threads p)) * args.inc) (2 ^ 32)

theorem inv_start (hloop : 0 ≤ args.loop) : Inv args (start Unit n) where
  rounds _ := ⟨hloop, fun h => absurd rfl h, nofun, by simp [start]⟩
  free := rfl
  count := by simp [start, added]

/-- The sum over the threads, when one of them has changed. -/
theorem sum_added_update (f : Fin n → Thread Unit) (p : Fin n) (me : Thread Unit) :
    ∑ q, added (Function.update f p me q) = ∑ q, added (f q) + (added me - added (f p)) := by
  have hcomp : (fun q => added (Function.update f p me q)) =
      Function.update (fun q => added (f q)) p (added me) := by
    ext q
    by_cases hq : q = p
    · subst hq
      simp
    · simp [Function.update_of_ne hq]
  rw [hcomp, Finset.sum_update_of_mem (Finset.mem_univ p),
    ← Finset.sum_sdiff (Finset.subset_univ {p}), Finset.sum_singleton]
  ring

theorem rounds_moves {me me' : Thread Unit} {shared shared' : Shared n} (hr : Rounds args me)
    (h : Moves (atomic n) args p me shared me' shared') : Rounds args me' := by
  rcases h with ⟨hpc, hi⟩ | ⟨hpc, hi⟩ | ⟨hpc, hstep⟩ | hpc
  · exact ⟨hr.le, fun _ _ => hi, nofun, hr.loc⟩
  · exact ⟨hr.le, fun _ h => absurd rfl h, fun _ => le_antisymm hr.le (not_lt.mp hi), hr.loc⟩
  · obtain ⟨rfl, rfl⟩ := Prod.ext_iff.mp (Option.some.inj hstep)
    exact ⟨hr.le, fun _ _ => hr.lt (by rw [hpc]; nofun) (by rw [hpc]; nofun), nofun, hr.loc⟩
  · refine ⟨hr.lt (by rw [hpc]; nofun) (by rw [hpc]; nofun), fun h => absurd rfl h, nofun, ?_⟩
    show add _ _ = Int.bmod ((me.i + 1) * args.inc) (2 ^ 32)
    rw [add, hr.loc, Int.bmod_add_bmod, add_mul, one_mul]

/-- What is added to `count` is what the thread has added. -/
theorem count_moves {me me' : Thread Unit} {shared shared' : Shared n}
    (h : Moves (atomic n) args p me shared me' shared') :
    (shared'.count = Int.bmod (shared.count + (added me' - added me) * args.inc) (2 ^ 32) ∧
      shared'.countMutex = shared.countMutex) ∨ (shared' = shared ∧ added me' = added me) := by
  rcases h with ⟨hpc, hi⟩ | ⟨hpc, hi⟩ | ⟨hpc, hstep⟩ | hpc
  · exact .inr ⟨rfl, by simp [added, hpc]⟩
  · exact .inr ⟨rfl, by simp [added, hpc]⟩
  · obtain ⟨rfl, rfl⟩ := Prod.ext_iff.mp (Option.some.inj hstep)
    exact .inl ⟨by simp [added, hpc, after, add], rfl⟩
  · exact .inr ⟨rfl, by simp [added, hpc]⟩

theorem inv_step {s t : State Unit n} (hinv : Inv args s) (h : incCount (atomic n) args p s = some t) :
    Inv args t := by
  obtain ⟨me, shared, rfl, hm⟩ := incCount_cases h
  refine ⟨fun q => ?_, ?_, ?_⟩
  · show Rounds args (Function.update s.threads p me q)
    by_cases hq : q = p
    · subst hq
      rw [Function.update_self]
      exact rounds_moves (hinv.rounds q) hm
    · rw [Function.update_of_ne hq]
      exact hinv.rounds q
  · rcases count_moves hm with ⟨-, hmutex⟩ | ⟨rfl, -⟩
    · exact hmutex.trans hinv.free
    · exact hinv.free
  · rw [sum_added_update, add_mul]
    rcases count_moves hm with ⟨hcount, -⟩ | ⟨rfl, hadded⟩
    · rw [hcount, hinv.count, Int.bmod_add_bmod]
    · rw [hadded, sub_self, zero_mul, add_zero]
      exact hinv.count

theorem inv_reachable (hloop : 0 ≤ args.loop) {s : State Unit n} (h : Reachable (atomic n) args s) :
    Inv args s :=
  Lib.Interleaving.invariant (Inv args) (inv_start hloop) (fun _ _ _ => inv_step) h

/-- When all threads have exited, each has added in each of its rounds. -/
theorem count_atomic (hloop : 0 ≤ args.loop) {s : State Unit n} (h : Reachable (atomic n) args s)
    (hexit : ∀ p, (s.threads p).pc = .exited) :
    s.shared.count = Int.bmod (n * args.loop * args.inc) (2 ^ 32) := by
  have hinv := inv_reachable hloop h
  have hadded : ∀ p, added (s.threads p) = args.loop := fun p => by
    rw [added, hexit p, if_neg nofun, (hinv.rounds p).exited (hexit p), add_zero]
  rw [hinv.count, Finset.sum_congr rfl fun p _ => hadded p, Finset.sum_const, Finset.card_univ,
    Fintype.card_fin, nsmul_eq_mul]

/-! ### The mutex -/

/-- The thread is between its lock and its unlock. -/
def Holding : Pc Place → Prop
  | .body .read => True
  | .body (.write _) => True
  | .body .unlock => True
  | _ => False

/-- The mutex is locked by the thread that is between its lock and its unlock, and the value that it has
read is still in `count`. -/
structure Held (s : State Place n) : Prop where
  holding : ∀ p, Holding (s.threads p).pc ↔ s.shared.countMutex = some p
  read : ∀ p value, (s.threads p).pc = .body (.write value) → value = s.shared.count

variable {s t : State Place n}

theorem held_start : Held (start Place n) := ⟨fun _ => ⟨nofun, nofun⟩, nofun⟩

/-- A step of a thread keeps what is held, when it changes `count` only with the mutex. -/
theorem held_update (hheld : Held s) {me : Thread Place} {shared : Shared n}
    (hme : Holding me.pc ↔ shared.countMutex = some p)
    (hother : ∀ q, q ≠ p → (shared.countMutex = some q ↔ s.shared.countMutex = some q))
    (hread : ∀ value, me.pc = .body (.write value) → value = shared.count)
    (hcount : shared.count = s.shared.count ∨ Holding (s.threads p).pc) :
    Held ⟨Function.update s.threads p me, shared⟩ := by
  refine ⟨fun q => ?_, fun q value hq => ?_⟩
  · show Holding (Function.update s.threads p me q).pc ↔ shared.countMutex = some q
    by_cases hqp : q = p
    · subst hqp
      rw [Function.update_self]
      exact hme
    · rw [Function.update_of_ne hqp, hother q hqp]
      exact hheld.holding q
  · change (Function.update s.threads p me q).pc = .body (.write value) at hq
    by_cases hqp : q = p
    · subst hqp
      rw [Function.update_self] at hq
      exact hread value hq
    · rw [Function.update_of_ne hqp] at hq
      have hvalue := hheld.read q value hq
      rcases hcount with hcount | hp
      · exact hvalue.trans hcount.symm
      · -- the mutex cannot be held by both
        have hq' : Holding (s.threads q).pc := by rw [hq]; trivial
        have heq := ((hheld.holding q).mp hq').symm.trans ((hheld.holding p).mp hp)
        exact absurd (Option.some.inj heq) hqp

theorem held_step (hheld : Held s) (h : incCount (mutex n) args p s = some t) : Held t := by
  obtain ⟨me, shared, rfl, hm⟩ := incCount_cases h
  have hp := hheld.holding p
  rcases hm with ⟨hpc, hi⟩ | ⟨hpc, hi⟩ | ⟨hpc, hstep⟩ | hpc
  · rw [hpc] at hp
    exact held_update hheld hp (fun _ _ => Iff.rfl) nofun (.inl rfl)
  · rw [hpc] at hp
    exact held_update hheld hp (fun _ _ => Iff.rfl) nofun (.inl rfl)
  · rename_i b b'
    rw [hpc] at hp
    cases b with
    | lock =>
      have hnone : s.shared.countMutex = none := by
        by_contra hne
        simp [mutex, hne] at hstep
      simp only [mutex, hnone, if_true, Option.some.injEq, Prod.mk.injEq] at hstep
      obtain ⟨rfl, rfl⟩ := hstep
      refine held_update hheld ⟨fun _ => rfl, fun _ => trivial⟩ (fun q hq => ?_) nofun (.inl rfl)
      rw [hnone]
      exact ⟨fun h => absurd (Option.some.inj h).symm hq, nofun⟩
    | read =>
      obtain ⟨rfl, rfl⟩ := Prod.ext_iff.mp (Option.some.inj hstep)
      refine held_update hheld hp (fun _ _ => Iff.rfl) (fun value hv => ?_) (.inl rfl)
      cases hv
      rfl
    | write value =>
      obtain ⟨rfl, rfl⟩ := Prod.ext_iff.mp (Option.some.inj hstep)
      exact held_update hheld hp (fun _ _ => Iff.rfl) nofun (.inr (by rw [hpc]; trivial))
    | unlock =>
      obtain ⟨rfl, rfl⟩ := Prod.ext_iff.mp (Option.some.inj hstep)
      refine held_update hheld ⟨nofun, nofun⟩ (fun q hq => ⟨nofun, fun h => ?_⟩) nofun (.inl rfl)
      exact absurd (Option.some.inj (h.symm.trans (hp.mp trivial))) hq
  · rw [hpc] at hp
    exact held_update hheld hp (fun _ _ => Iff.rfl) nofun (.inl rfl)

theorem held_reachable (h : Reachable (mutex n) args s) : Held s :=
  Lib.Interleaving.invariant Held held_start (fun _ _ _ => held_step) h

/-! ### The mutex is a fetch-and-add -/

/-- The place of a thread of `ptcount_mutex.c` in `ptcount_atomic.c`: it has added when it has written. -/
def absPc : Pc Place → Pc Unit
  | .test => .test
  | .body .unlock => .local
  | .body _ => .body ()
  | .local => .local
  | .exited => .exited

def absThread (t : Thread Place) : Thread Unit := ⟨absPc t.pc, t.i, t.loc⟩

/-- The state of `ptcount_atomic.c` that a state of `ptcount_mutex.c` stands for. -/
def abs (s : State Place n) : State Unit n :=
  ⟨fun p => absThread (s.threads p), ⟨s.shared.count, none⟩⟩

theorem abs_update (f : Fin n → Thread Place) (me : Thread Place) (shared : Shared n) :
    abs ⟨Function.update f p me, shared⟩ =
      ⟨Function.update (fun q => absThread (f q)) p (absThread me), ⟨shared.count, none⟩⟩ := by
  unfold abs
  congr 1
  funext q
  show absThread (Function.update f p me q) = _
  by_cases hq : q = p
  · subst hq
    rw [Function.update_self, Function.update_self]
  · rw [Function.update_of_ne hq, Function.update_of_ne hq]

/-- A step to a thread that stands for the same one, with the same `count`. -/
theorem abs_stutter {me : Thread Place} {shared : Shared n} (hme : absThread me = absThread (s.threads p))
    (hcount : shared.count = s.shared.count) :
    abs ⟨Function.update s.threads p me, shared⟩ = abs s := by
  rw [abs_update, hme, Function.update_eq_self p (fun q => absThread (s.threads q)), hcount]
  rfl

theorem abs_moves (hheld : Held s) {me : Thread Place} {shared : Shared n}
    (hm : Moves (mutex n) args p (s.threads p) s.shared me shared) :
    (absThread me = absThread (s.threads p) ∧ shared.count = s.shared.count) ∨
      Moves (atomic n) args p (absThread (s.threads p)) ⟨s.shared.count, none⟩ (absThread me)
        ⟨shared.count, none⟩ := by
  rcases hm with ⟨hpc, hi⟩ | ⟨hpc, hi⟩ | ⟨hpc, hstep⟩ | hpc
  · exact .inr (.enter (by rw [absThread, hpc]; rfl) hi)
  · exact .inr (.exit (by rw [absThread, hpc]; rfl) hi)
  · rename_i b b'
    cases b with
    | lock =>
      simp only [mutex] at hstep
      split_ifs at hstep
      obtain ⟨rfl, rfl⟩ := Prod.ext_iff.mp (Option.some.inj hstep)
      exact .inl ⟨by simp only [absThread, hpc, after, absPc], rfl⟩
    | read =>
      obtain ⟨rfl, rfl⟩ := Prod.ext_iff.mp (Option.some.inj hstep)
      exact .inl ⟨by simp only [absThread, hpc, after, absPc], rfl⟩
    | write value =>
      obtain ⟨rfl, rfl⟩ := Prod.ext_iff.mp (Option.some.inj hstep)
      -- the value that was read is the one in `count`
      obtain rfl := hheld.read p value hpc
      have hadd : (atomic n).step args p () ⟨s.shared.count, none⟩ =
          some (none, ⟨add s.shared.count args.inc, none⟩) := rfl
      exact .inr (.body (by rw [absThread, hpc]; rfl) hadd)
    | unlock =>
      obtain ⟨rfl, rfl⟩ := Prod.ext_iff.mp (Option.some.inj hstep)
      exact .inl ⟨by simp only [absThread, hpc, after, absPc], rfl⟩
  · exact .inr (.count (by rw [absThread, hpc]; rfl))

/-- **A step with the mutex** is a step with the fetch-and-add, or nothing. -/
theorem abs_step (hheld : Held s) (h : incCount (mutex n) args p s = some t) :
    abs t = abs s ∨ incCount (atomic n) args p (abs s) = some (abs t) := by
  obtain ⟨me, shared, rfl, hm⟩ := incCount_cases h
  rcases abs_moves hheld hm with ⟨hme, hcount⟩ | hm'
  · exact .inl (abs_stutter hme hcount)
  · rw [abs_update]
    exact .inr (incCount_moves hm')

/-- **The mutex makes the addition atomic.** -/
theorem mutex_refines (h : Reachable (mutex n) args s) : Reachable (atomic n) args (abs s) :=
  Lib.Interleaving.simulation abs Held held_reachable (fun _ _ _ => abs_step) h

/-- **No increment is lost.** In every interleaving, when all threads have exited, `count` is the number
of the threads times the loop bound times the increment, modulo `2 ^ 32`, in both programs, and the mutex
is free. -/
theorem no_lost_increment (n : ℕ) (args : ThreadArgs) (hloop : 0 ≤ args.loop) :
    (∀ s, Reachable (mutex n) args s → (∀ p, (s.threads p).pc = .exited) →
      s.shared.count = Int.bmod (n * args.loop * args.inc) (2 ^ 32) ∧ s.shared.countMutex = none) ∧
    ∀ s, Reachable (atomic n) args s → (∀ p, (s.threads p).pc = .exited) →
      s.shared.count = Int.bmod (n * args.loop * args.inc) (2 ^ 32) ∧ s.shared.countMutex = none := by
  refine ⟨fun s h hexit => ⟨?_, ?_⟩,
    fun s h hexit => ⟨count_atomic hloop h hexit, (inv_reachable hloop h).free⟩⟩
  · exact count_atomic hloop (mutex_refines h) fun p => by
      show absPc (s.threads p).pc = .exited
      rw [hexit p]
      rfl
  · by_contra hne
    obtain ⟨p, hp⟩ := Option.ne_none_iff_exists'.mp hne
    have hholding := ((held_reachable h).holding p).mpr hp
    rw [hexit p] at hholding
    exact hholding

/-- Two threads, one round each, with the second thread waiting for the mutex of the first one. -/
theorem no_lost_increment_two :
    (∃ s, Reachable (mutex 2) ⟨3, 1⟩ s ∧ s.shared.count = 6 ∧ s.shared.countMutex = none) ∧
      ∃ s, Reachable (atomic 2) ⟨3, 1⟩ s ∧ s.shared.count = 6 ∧ s.shared.countMutex = none := by
  obtain ⟨hmutex, hatomic⟩ := no_lost_increment 2 ⟨3, 1⟩ (by decide)
  obtain ⟨s, hrun, hexit⟩ : ∃ s, Lib.Interleaving.run (incCount (mutex 2) ⟨3, 1⟩)
      [0, 0, 0, 1, 0, 0, 1, 1, 1, 1, 0, 0, 1, 1] (start Place 2) = some s ∧
      ∀ p, (s.threads p).pc = .exited := ⟨_, rfl, by decide⟩
  obtain ⟨t, hrun', hexit'⟩ : ∃ s, Lib.Interleaving.run (incCount (atomic 2) ⟨3, 1⟩)
      [0, 1, 1, 0, 0, 1, 1, 0] (start Unit 2) = some s ∧
      ∀ p, (s.threads p).pc = .exited := ⟨_, rfl, by decide⟩
  have h := Lib.Interleaving.reachable_run .refl hrun
  have h' := Lib.Interleaving.reachable_run .refl hrun'
  exact ⟨⟨s, h, hmutex s h hexit⟩, t, h', hatomic t h' hexit'⟩

end Eecs678.Counting.NoLostIncrement
