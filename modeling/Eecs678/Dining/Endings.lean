import Eecs678.Dining.Asymmetric
import Eecs678.Dining.Periods
import Eecs678.Lib.Machine
import Mathlib.Algebra.Order.BigOperators.Group.Finset

/-!
# How the programs of the philosophers end

Once `Stop` is set, each thread has at most one round left (`left`) and `main` only a few loops, so every
run is finite, whatever the order of the steps. With the asymmetric threads it is over then
(`asymmetric_ends`). With the symmetric ones of `dining_philosophers.c` it is over or the threads wait in a
circle (`symmetric_ends`), and a circle that `main` finds before `Stop` is resolved by the release
(`circle_resolved`).
-/

namespace Eecs678.Dining.Endings

open Eecs678.Lib.Interleaving Eecs678.Lib.Locks Eecs678.Dining.Holding Eecs678.Dining.Periods
open Eecs678.Dining.Model hiding Step Reachable

variable {n : ℕ} {order : Fin n → List (Fin n)} {take : Fin n → ℤ → List (Fin n)} {s s' : Program n}
  {t t' : Table n} {p : Fin n} {a : Answer}

/-! ### The measure -/

/-- The steps of `dp_thread` up to the test of the loop, and one for the test. -/
def left : Pc n → ℕ
  | .loop => 1
  | .think left eatRnd => left + eatRnd + 9
  | .grab chops eatRnd => chops.length + eatRnd + 6
  | .eat left => left + 5
  | .releaseRight => 4
  | .releaseLeft => 3
  | .progress => 2

/-- The steps left to a thread once `Stop` is set. -/
def threadLeft (s : Program n) (p : Fin n) : ℕ :=
  if s.ended p = true then 0 else left (s.table.diners p).pc

/-- The steps of `main` to the end of the period, or to its end. -/
def mainLeft (n : ℕ) : MainPc → ℕ
  | .while => 4 * n + 20
  | .reset i => 3 * n + 15 + (n - i)
  | .sleep => 3 * n + 14
  | .check i => 2 * n + 12 + (n - i)
  | .print => 2 * n + 11
  | .stop => 2 * n + 10
  | .report => 2 * n + 9
  | .unlock i => n + 5 + (n - i)
  | .join i => 2 + (n - i)
  | .returned => 0

/-- What is left of the program: periods, steps of `main`, steps of the threads. -/
def measure (s : Program n) : ℕ ×ₗ ℕ ×ₗ ℕ :=
  toLex (iterationLimit - s.iter, toLex (mainLeft n s.main, ∑ p, threadLeft s p))

/-- A step of `dp_thread` that is not the start of a round. -/
theorem left_lt (ho : Orders order) (ha : take p a.available = order p)
    (hloop : (t.diners p).pc ≠ .loop) (h : dpThread take p a t = some t') :
    left (t'.diners p).pc < left (t.diners p).pc := by
  have hlen : (take p a.available).length = 2 := by
    rw [ha]
    rcases ho p with he | he
    · rw [he]
      rfl
    · rw [he]
      rfl
  unfold dpThread at h
  split at h
  · next hpc => exact absurd hpc hloop
  · next k e hpc =>
    rw [← Option.some.inj h, goto_pc, if_pos rfl, hpc]
    simp only [left]
    omega
  · next e hpc =>
    rw [← Option.some.inj h, goto_pc, if_pos rfl, hpc]
    simp only [left, hlen]
    omega
  · next chop chops e hpc =>
    split_ifs at h
    rw [← Option.some.inj h, goto_pc, if_pos rfl, hpc]
    simp only [left, List.length_cons]
    omega
  · next e hpc =>
    rw [← Option.some.inj h, goto_pc, if_pos rfl, hpc]
    simp only [left, List.length_nil]
    omega
  · next k hpc =>
    rw [← Option.some.inj h, goto_pc, if_pos rfl, hpc]
    simp only [left]
    omega
  · next hpc =>
    rw [← Option.some.inj h, goto_pc, if_pos rfl, hpc]
    simp only [left]
    omega
  · next hpc =>
    rw [← Option.some.inj h, goto_pc, if_pos rfl, hpc]
    simp only [left]
    omega
  · next hpc =>
    rw [← Option.some.inj h, goto_pc, if_pos rfl, hpc]
    simp only [left]
    omega
  · next hpc =>
    rw [← Option.some.inj h, goto_pc, if_pos rfl, hpc]
    simp only [left]
    omega

/-- **A step of a thread after `Stop`.** -/
theorem measure_threadStep (ho : Orders order) (ha : take p a.available = order p)
    (hstop : s.stop = true) (h : threadStep take p a s = some s') : measure s' < measure s := by
  obtain ⟨hp, hcases⟩ := threadStep_cases h
  -- the other threads have as much left as before
  have hsum : ∀ {u : Program n}, (∀ q, q ≠ p → threadLeft u q = threadLeft s q) →
      threadLeft u p < threadLeft s p → ∑ q, threadLeft u q < ∑ q, threadLeft s q := by
    intro u hothers hlt
    refine Finset.sum_lt_sum (fun q _ => ?_) ⟨p, Finset.mem_univ p, hlt⟩
    by_cases hq : q = p
    · rw [hq]
      exact hlt.le
    · exact (hothers q hq).le
  have hleft : threadLeft s p = left (s.table.diners p).pc := by
    rw [threadLeft, hp]
    rfl
  obtain ⟨-, hpc, rfl⟩ | ⟨hloop, table, ht, rfl⟩ := hcases
  · refine Lib.Machine.lex_lt le_rfl (.inr (.inr ⟨rfl, hsum (fun q hq => ?_) ?_⟩))
    · simp only [threadLeft, Function.update_of_ne hq]
    · rw [hleft, hpc]
      simp only [threadLeft, Function.update_self, if_true, left]
      omega
  · refine Lib.Machine.lex_lt le_rfl (.inr (.inr ⟨rfl, hsum (fun q hq => ?_) ?_⟩))
    · simp only [threadLeft, dpThread_pc ht hq]
    · have hlt := left_lt ho ha (fun hpc => hloop ⟨hstop, hpc⟩) ht
      rw [hleft]
      simpa only [threadLeft, hp, Bool.false_eq_true, if_false] using hlt

theorem measure_lt (hiter : s'.iter = s.iter) (h : mainLeft n s'.main < mainLeft n s.main) :
    measure s' < measure s :=
  Lib.Machine.lex_lt (by rw [hiter]) (.inr (.inl h))

/-- **A step of `main`.** -/
theorem measure_mainStep (h : Ok order s) (hstep : mainStep s = some s') : measure s' < measure s := by
  have hiter := h.iter
  unfold mainStep at hstep
  cases hm : s.main with
  | print =>
    simp only [hm, Option.some.injEq] at hstep
    rw [hm] at hiter
    have hlt := hiter rfl
    rw [← hstep]
    exact Lib.Machine.lex_lt (by simp only; omega) (.inl (by simp only; omega))
  | reset i =>
    simp only [hm] at hstep
    split_ifs at hstep with hi
    · rw [← Option.some.inj hstep]
      exact measure_lt rfl (by simp only [hm, mainLeft]; omega)
    · rw [← Option.some.inj hstep]
      exact measure_lt rfl (by simp only [hm, mainLeft]; omega)
  | sleep =>
    simp only [hm, Option.some.injEq] at hstep
    rw [← hstep]
    exact measure_lt rfl (by simp only [hm, mainLeft]; omega)
  | check i =>
    by_cases hi : i < n
    · simp only [hm, dif_pos hi, Option.some.injEq] at hstep
      rw [← hstep]
      exact measure_lt rfl (by simp only [hm, mainLeft]; omega)
    · simp only [hm, dif_neg hi, Option.some.injEq] at hstep
      rw [← hstep]
      exact measure_lt rfl (by simp only [hm, mainLeft]; omega)
  | «while» =>
    simp only [hm] at hstep
    split_ifs at hstep
    · rw [← Option.some.inj hstep]
      exact measure_lt rfl (by simp only [hm, mainLeft]; omega)
    · rw [← Option.some.inj hstep]
      exact measure_lt rfl (by simp only [hm, mainLeft]; omega)
  | stop =>
    simp only [hm, Option.some.injEq] at hstep
    rw [← hstep]
    exact measure_lt rfl (by simp only [hm, mainLeft]; omega)
  | report =>
    simp only [hm, Option.some.injEq] at hstep
    rw [← hstep]
    exact measure_lt rfl (by simp only [hm, mainLeft]; omega)
  | unlock i =>
    simp only [hm] at hstep
    split_ifs at hstep with hi
    · rw [← Option.some.inj hstep]
      exact measure_lt rfl (by simp only [hm, mainLeft]; omega)
    · rw [← Option.some.inj hstep]
      exact measure_lt rfl (by simp only [hm, mainLeft]; omega)
  | join i =>
    simp only [hm] at hstep
    split_ifs at hstep with hi he
    · rw [← Option.some.inj hstep]
      exact measure_lt rfl (by simp only [hm, mainLeft]; omega)
    · rw [← Option.some.inj hstep]
      exact measure_lt rfl (by simp only [hm, mainLeft]; omega)
  | returned => simp only [hm, reduceCtorEq] at hstep

/-! ### After `Stop` -/

theorem stop_threadStep (h : threadStep take p a s = some s') : s'.stop = s.stop := by
  obtain ⟨-, ⟨-, -, rfl⟩ | ⟨-, table, -, rfl⟩⟩ := threadStep_cases h
  · rfl
  · rfl

theorem stop_mainStep (hstop : s.stop = true) (h : mainStep s = some s') : s'.stop = true := by
  unfold mainStep at h
  grind

/-- **After `Stop` every run is finite.** In the end the program is over, or `main` waits for a thread and
the threads that have not ended wait for each other. -/
theorem ends_of_stop (hn : 2 ≤ n) (ho : Orders order) (ha : ∀ p x, take p x = order p) (h : Ok order s)
    (hstop : s.stop = true) :
    Ends (step take)
      (fun t => Over t ∨ (Ok order t ∧ ∃ i, t.main = .join i) ∧
        Deadlocked t.table.chopstick (wants t.table) {p | t.ended p = false}) s := by
  refine ends measure (fun s => Ok order s ∧ s.stop = true) ?_ ?_ ?_ ⟨h, hstop⟩
  · rintro actor s s' ⟨hok, hstop⟩ hstep
    refine ⟨ok_step hn ho ha hok hstep, ?_⟩
    cases actor with
    | main => exact stop_mainStep hstop hstep
    | thread p a => exact (stop_threadStep hstep).trans hstop
  · rintro actor s s' ⟨hok, hstop⟩ hstep
    cases actor with
    | main => exact measure_mainStep hok hstep
    | thread p a => exact measure_threadStep ho (ha p a.available) hstop hstep
  · rintro s ⟨hok, -⟩ hstuck
    rcases deadlocked_of_stuck hok hstuck with hover | ⟨hjoin, hdead⟩
    · exact .inl hover
    · exact .inr ⟨⟨hok, hjoin⟩, hdead⟩

/-! ### The asymmetric threads -/

/-- **`dp_asymmetric.c` ends.** Nobody is left waiting before the program is over, and once `Stop` is set
every run is finite: `main` returns after all threads have ended. -/
theorem asymmetric_ends (hn : 2 ≤ n)
    (h : Reachable (step Asymmetric.takeChopsticks) (start n) s) :
    (Stuck (step Asymmetric.takeChopsticks) s → Over s) ∧
    (s.stop = true → Ends (step Asymmetric.takeChopsticks) Over s) := by
  have ho : Orders fun p : Fin n => Asymmetric.takeChopsticks p 0 := Asymmetric.orders_take 0
  have hok := ok_reachable hn ho (fun _ _ => rfl) h
  have hnot : ∀ {t : Program n}, Ok (fun p => Asymmetric.takeChopsticks p 0) t →
      ∀ S, ¬ Deadlocked t.table.chopstick (wants t.table) S := by
    intro t ht
    exact not_deadlocked fun _ _ _ hown hw => Asymmetric.rank_lt hn (order_of_owned ho ht.owned hown hw)
  constructor
  · intro hstuck
    rcases deadlocked_of_stuck hok hstuck with hover | ⟨-, hdead⟩
    · exact hover
    · exact absurd hdead (hnot hok _)
  · intro hstop
    obtain ⟨hfinite, hfinal⟩ := ends_of_stop hn ho (fun _ _ => rfl) hok hstop
    refine ⟨hfinite, fun t ht hstuck => ?_⟩
    rcases hfinal t ht hstuck with hover | ⟨⟨ht, -⟩, hdead⟩
    · exact hover
    · exact absurd hdead (hnot ht _)

/-- Philosopher 1 eats and the others wait for chopsticks, or are about to, when `main` sets `Stop`. -/
theorem asymmetric_ends_five : ∃ s : Program 5, s.stop = true ∧ Eating s.table 1 ∧
    wants s.table 0 = some 0 ∧ s.table.chopstick 0 = some 1 ∧
    Ends (step Asymmetric.takeChopsticks) Over s := by
  obtain ⟨s, hrun, hstop, heat, hwait, hheld⟩ : ∃ s : Program 5, run (step Asymmetric.takeChopsticks)
      ([1, 1, 1, 1, 1, 2, 2, 0, 0, 3, 3, 3, 4, 4, 4].map (fun p => .thread p ⟨0, 0, 0⟩) ++
        List.replicate 16 .main) (start 5) = some s ∧ s.stop = true ∧ Eating s.table 1 ∧
      wants s.table 0 = some 0 ∧ s.table.chopstick 0 = some 1 := by
    refine ⟨_, rfl, rfl, ?_, rfl, rfl⟩
    exact trivial
  have hends := (asymmetric_ends (by omega) (reachable_run .refl hrun)).2 hstop
  exact ⟨s, hstop, heat, hwait, hheld, hends⟩

/-! ### The symmetric threads -/

/-- The order of the two calls of `pthread_mutex_lock` in `dining_philosophers.c`. -/
def takeChopsticks (p : Fin n) (_available : ℤ) : List (Fin n) := [leftChop p, rightChop p]

theorem orders_take (x : ℤ) : Orders fun p : Fin n => takeChopsticks p x := fun _ => .inl rfl

/-- Each philosopher has locked its left chopstick and is at the lock of its right one. -/
def Circle (t : Table n) : Prop :=
  ∀ p, (∃ eatRnd, (t.diners p).pc = .grab [rightChop p] eatRnd) ∧ t.chopstick (leftChop p) = some p

/-- Going to the right reaches every philosopher. -/
theorem eq_univ_of_rightChop {S : Set (Fin n)} (hne : S.Nonempty) (h : ∀ p ∈ S, rightChop p ∈ S)
    (q : Fin n) : q ∈ S := by
  -- from a philosopher down to each one before it
  have hdown : ∀ p ∈ S, ∀ k ≤ p.val, (⟨p.val - k, by omega⟩ : Fin n) ∈ S := by
    intro p hp k
    induction k with
    | zero => exact fun _ => hp
    | succ k ih =>
      intro hk
      have hmem := h _ (ih (by omega))
      rwa [show rightChop ⟨p.val - k, by omega⟩ = (⟨p.val - (k + 1), by omega⟩ : Fin n) from
        Fin.ext (by rw [rightChop_val]; simp only; split_ifs <;> omega)] at hmem
  obtain ⟨p, hp⟩ := hne
  have hlast := h _ (hdown p hp p.val le_rfl)
  have hq := hdown _ hlast (n - 1 - q.val) (by rw [rightChop_val]; simp only; split_ifs <;> omega)
  rwa [show (⟨_, _⟩ : Fin n) = q from
    Fin.ext (by simp only [rightChop_val]; split_ifs <;> omega)] at hq

/-- **Threads that wait for each other wait in the whole circle.** -/
theorem circle_of_deadlocked (h : Owned (fun p => takeChopsticks p 0) t) {S : Set (Fin n)}
    (hd : Deadlocked t.chopstick (wants t) S) : Circle t := by
  obtain ⟨hne, hS⟩ := hd
  -- the owner of what a philosopher waits for has its left chopstick and waits for the right one
  have hnext : ∀ p ∈ S, rightChop p ∈ S ∧ wants t p = some (rightChop p) ∧
      t.chopstick (rightChop p) = some (rightChop p) := by
    intro p hp
    obtain ⟨c, hw, q, hq, hqp, hown⟩ := hS p hp
    obtain ⟨c', hw', -, -, -, -⟩ := hS q hq
    have hcq : leftChop q = c := (List.cons.inj (order_of_owned (orders_take 0) h hown hw')).1
    have hcp : c = leftChop p ∨ c = rightChop p := by
      have hrest := h.rest p
      unfold wants at hw
      split at hw
      · next chop chops eatRnd hpc =>
        rw [hpc] at hrest
        have hmem := (show chop :: chops <:+ takeChopsticks p 0 from hrest).subset (List.mem_cons_self ..)
        rw [Option.some.inj hw] at hmem
        simpa [takeChopsticks] using hmem
      · cases hw
    rcases hcp with rfl | rfl
    · exact absurd hcq hqp
    · rw [show rightChop p = q from hcq.symm] at hown hw ⊢
      exact ⟨hq, hw, hown⟩
  have hall := eq_univ_of_rightChop hne fun p hp => (hnext p hp).1
  have hown : ∀ p, t.chopstick (leftChop p) = some p := by
    intro p
    have hleft := (hnext (leftPhil p) (hall _)).2.2
    rwa [rightChop_leftPhil] at hleft
  intro p
  refine ⟨?_, hown p⟩
  have hw := (hnext p (hall p)).2.1
  have horder := order_of_owned (orders_take 0) h (hown p) hw
  have hrest := h.rest p
  have hmem := h.owned (hown p)
  unfold wants at hw
  split at hw
  · next chop chops eatRnd hpc =>
    rw [hpc] at hrest hmem
    obtain rfl := Option.some.inj hw
    have hsuf : rightChop p :: chops <:+ [leftChop p, rightChop p] := hrest
    rcases List.suffix_cons_iff.mp hsuf with he | hsuf
    · rw [he] at hmem
      exact absurd (List.mem_cons_self ..) (mem_holds_grab.mp hmem).2
    · rcases List.suffix_cons_iff.mp hsuf with he | hsuf
      · exact ⟨eatRnd, by rw [hpc, he]⟩
      · cases List.suffix_nil.mp hsuf
  · cases hw

/-- Nobody steps in a circle. -/
theorem threadStep_circle (h : Circle s.table) (p : Fin n) (a : Answer) :
    threadStep takeChopsticks p a s = none := by
  obtain ⟨⟨e, hpc⟩, -⟩ := h p
  have hown := (h (rightChop p)).2
  unfold threadStep
  split_ifs with he hl
  · rfl
  · rw [hpc] at hl
    cases hl.2
  · rw [Option.map_eq_none_iff]
    simp only [dpThread, hpc]
    exact if_neg (by rw [show rightChop p = leftChop (rightChop p) from rfl, hown]; exact Option.some_ne_none _)

/-- A circle during the joins: `main` waits for one of the threads. -/
theorem stuck_of_circle (hn : 2 ≤ n) (hok : Ok order s) {i : ℕ} (hm : s.main = .join i)
    (hc : Circle s.table) : Stuck (step takeChopsticks) s := by
  have hlive : ∀ p, s.ended p ≠ true := by
    intro p he
    obtain ⟨⟨e, hpc⟩, -⟩ := hc p
    rw [hok.ended p he] at hpc
    cases hpc
  intro actor
  cases actor with
  | thread p a => exact threadStep_circle hc p a
  | main =>
    by_cases hi : i < n
    · simp only [step, mainStep, hm, dif_pos hi, hlive]
      rfl
    · -- `main` has joined nobody in the circle
      exact absurd (hok.joined ⟨0, by omega⟩ (by rw [hm]; exact (by omega : 0 < i))) (hlive _)

/-- **How `dining_philosophers.c` ends.** No two neighbours eat before the release. Nobody can step just
when the program is over, or `main` waits for a thread and the philosophers wait in a circle. Once `Stop`
is set every run is finite and comes to one of the two. -/
theorem symmetric_ends (hn : 2 ≤ n) (h : Reachable (step takeChopsticks) (start n) s) :
    (s.main.releasing = false → ∀ p, ¬ (Eating s.table p ∧ Eating s.table (leftPhil p))) ∧
    (Stuck (step takeChopsticks) s ↔ Over s ∨ (∃ i, s.main = .join i) ∧ Circle s.table) ∧
    (s.stop = true → Ends (step takeChopsticks)
      (fun t => Over t ∨ (∃ i, t.main = .join i) ∧ Circle t.table) s) := by
  have hok := ok_reachable hn (orders_take 0) (fun _ _ => rfl) h
  refine ⟨fun hm => not_both_eating hn (hok.inv hm), ⟨fun hstuck => ?_, ?_⟩, fun hstop => ?_⟩
  · rcases deadlocked_of_stuck hok hstuck with hover | ⟨hjoin, hdead⟩
    · exact .inl hover
    · exact .inr ⟨hjoin, circle_of_deadlocked hok.owned hdead⟩
  · rintro (⟨hm, hall⟩ | ⟨⟨i, hm⟩, hc⟩) actor
    · cases actor with
      | main => simp only [step, mainStep, hm]
      | thread p a => simp only [step, threadStep, hall p, if_true]
    · exact stuck_of_circle hn hok hm hc actor
  · obtain ⟨hfinite, hfinal⟩ := ends_of_stop hn (orders_take 0) (fun _ _ => rfl) hok hstop
    refine ⟨hfinite, fun t ht hstuck => ?_⟩
    rcases hfinal t ht hstuck with hover | ⟨⟨ht, hjoin⟩, hdead⟩
    · exact .inl hover
    · exact .inr ⟨hjoin, circle_of_deadlocked ht.owned hdead⟩

/-- Philosopher 1 eats and the others wait in a row behind it, when `main` sets `Stop`. -/
theorem symmetric_ends_five : ∃ s : Program 5, s.stop = true ∧ Eating s.table 1 ∧
    (∀ p, p ≠ 1 → wants s.table p = some (if p = 0 then 0 else rightChop p)) ∧
    ¬ Stuck (step takeChopsticks) s ∧ Ends (step takeChopsticks)
      (fun t => Over t ∨ (∃ i, t.main = .join i) ∧ Circle t.table) s := by
  obtain ⟨s, hrun, hstop, heat, hwait, hmain⟩ : ∃ s : Program 5, run (step takeChopsticks)
      ([1, 1, 1, 1, 1, 2, 2, 2, 0, 0, 3, 3, 3, 4, 4, 4].map (fun p => .thread p ⟨0, 0, 0⟩) ++
        List.replicate 16 .main) (start 5) = some s ∧ s.stop = true ∧ Eating s.table 1 ∧
      (∀ p, p ≠ 1 → wants s.table p = some (if p = 0 then 0 else rightChop p)) ∧ s.main = .report := by
    refine ⟨_, rfl, rfl, ?_, by decide, rfl⟩
    exact trivial
  obtain ⟨-, hstuck, hends⟩ := symmetric_ends (by omega) (reachable_run .refl hrun)
  refine ⟨s, hstop, heat, hwait, fun hs => ?_, hends hstop⟩
  rcases hstuck.mp hs with ⟨hover, -⟩ | ⟨⟨i, hjoin⟩, -⟩
  · rw [hmain] at hover
    cases hover
  · rw [hmain] at hjoin
    cases hjoin

/-! ### The release of a circle -/

theorem rightChop_injective {q : Fin n} (h : rightChop q = rightChop p) : q = p := by
  have hp := p.isLt
  have hq := q.isLt
  have hv := congrArg Fin.val h
  rw [rightChop_val, rightChop_val] at hv
  apply Fin.ext
  split_ifs at hv <;> omega

/-- The last round of a philosopher, from its second lock on. -/
def Tail (p : Fin n) : Pc n → Prop
  | .think _ _ => False
  | .grab chops _ => chops = [] ∨ chops = [rightChop p]
  | _ => True

/-- A step in the last round. Only `p` locks its right chopstick, and only once. -/
theorem tail_dpThread (ht : Tail p (t.diners p).pc) (hloop : (t.diners p).pc ≠ .loop)
    (h : dpThread take p a t = some t') :
    Tail p (t'.diners p).pc ∧ (∀ e, (t'.diners p).pc ≠ .grab [rightChop p] e) ∧
      ∀ c, c ≠ rightChop p → t'.chopstick c = t.chopstick c ∨ t'.chopstick c = none := by
  have hgoto : ∀ {u : Table n} {pc : Pc n}, u.goto p pc = t' → Tail p pc →
      (∀ e, pc ≠ .grab [rightChop p] e) →
      (∀ c, c ≠ rightChop p → u.chopstick c = t.chopstick c ∨ u.chopstick c = none) →
      Tail p (t'.diners p).pc ∧ (∀ e, (t'.diners p).pc ≠ .grab [rightChop p] e) ∧
        ∀ c, c ≠ rightChop p → t'.chopstick c = t.chopstick c ∨ t'.chopstick c = none := by
    rintro u pc rfl htail hne hc
    rw [goto_pc, if_pos rfl]
    exact ⟨htail, hne, hc⟩
  have hunlock : ∀ chop c, (t.unlock chop).chopstick c = t.chopstick c ∨
      (t.unlock chop).chopstick c = none := by
    intro chop c
    rw [unlock_chopstick]
    split_ifs
    · exact .inr rfl
    · exact .inl rfl
  unfold dpThread at h
  split at h
  · next hpc => exact absurd hpc hloop
  · next hpc =>
    rw [hpc] at ht
    exact ht.elim
  · next hpc =>
    rw [hpc] at ht
    exact ht.elim
  · next chop chops e hpc =>
    rw [hpc] at ht
    obtain ⟨rfl, rfl⟩ : chop = rightChop p ∧ chops = [] := by simpa [Tail] using ht
    split_ifs at h
    refine hgoto (Option.some.inj h) (.inl rfl) (fun e he => by cases he) fun c hc => ?_
    rw [lock_chopstick, if_neg hc]
    exact .inl rfl
  · exact hgoto (Option.some.inj h) trivial (fun e he => by cases he) fun c _ => .inl rfl
  · exact hgoto (Option.some.inj h) trivial (fun e he => by cases he) fun c _ => .inl rfl
  · exact hgoto (Option.some.inj h) trivial (fun e he => by cases he) fun c _ => .inl rfl
  · exact hgoto (Option.some.inj h) trivial (fun e he => by cases he) fun c _ => hunlock _ c
  · exact hgoto (Option.some.inj h) trivial (fun e he => by cases he) fun c _ => hunlock _ c
  · exact hgoto (Option.some.inj h) trivial (fun e he => by cases he) fun c _ => .inl rfl

/-- During the release: a philosopher that still waits for its right chopstick finds it free, or `main`
comes to it. -/
structure Released (s : Program n) : Prop where
  releasing : s.main.releasing = true
  tail : ∀ p, Tail p (s.table.diners p).pc
  free : ∀ p e, (s.table.diners p).pc = .grab [rightChop p] e →
    s.table.chopstick (rightChop p) = none ∨ ∃ i, s.main = .unlock i ∧ i ≤ (rightChop p).val

theorem released_threadStep (h : Released s) (hstop : s.stop = true)
    (hstep : threadStep take p a s = some s') : Released s' := by
  obtain ⟨-, ⟨-, -, rfl⟩ | ⟨hloop, table, ht, rfl⟩⟩ := threadStep_cases hstep
  · exact ⟨h.releasing, h.tail, h.free⟩
  · obtain ⟨htail, hne, hchops⟩ := tail_dpThread (h.tail p) (fun hpc => hloop ⟨hstop, hpc⟩) ht
    refine ⟨h.releasing, fun q => ?_, fun q e hpc => ?_⟩
    · by_cases hq : q = p
      · exact hq ▸ htail
      · change Tail q (table.diners q).pc
        rw [dpThread_pc ht hq]
        exact h.tail q
    · by_cases hq : q = p
      · exact absurd (hq ▸ hpc) (hne e)
      · rcases h.free q e ((dpThread_pc ht hq).symm.trans hpc) with hfree | hmain
        · rcases hchops _ (fun heq => hq (rightChop_injective heq)) with hsame | hnone
          · exact .inl (hsame.trans hfree)
          · exact .inl hnone
        · exact .inr hmain

/-- What `main` does from the release on: it frees a chopstick, or it goes on. -/
theorem mainStep_releasing (hr : s.main.releasing = true) (h : mainStep s = some s') :
    (∃ (i : ℕ) (hi : i < n), s.main = .unlock i ∧
      s' = { s with table := s.table.unlock ⟨i, hi⟩, main := .unlock (i + 1) }) ∨
    ∃ m : MainPc, m.releasing = true ∧ s' = { s with main := m } ∧ ∀ i, s.main = .unlock i → n ≤ i := by
  unfold mainStep at h
  cases hm : s.main with
  | unlock i =>
    simp only [hm] at h
    split_ifs at h with hi
    · exact .inl ⟨i, hi, rfl, (Option.some.inj h).symm⟩
    · refine .inr ⟨.join 0, rfl, (Option.some.inj h).symm, fun j hj => ?_⟩
      rw [← MainPc.unlock.inj hj]
      exact not_lt.mp hi
  | join i =>
    simp only [hm] at h
    split_ifs at h with hi he
    · exact .inr ⟨.join (i + 1), rfl, (Option.some.inj h).symm, fun j hj => by cases hj⟩
    · exact .inr ⟨.returned, rfl, (Option.some.inj h).symm, fun j hj => by cases hj⟩
  | returned => simp only [hm, reduceCtorEq] at h
  | _ =>
    rw [hm] at hr
    cases hr

theorem released_mainStep (h : Released s) (hstep : mainStep s = some s') : Released s' := by
  rcases mainStep_releasing h.releasing hstep with ⟨i, hi, hm, rfl⟩ | ⟨m, hr, rfl, hlast⟩
  · refine ⟨rfl, h.tail, fun p e hpc => ?_⟩
    simp only [unlock_chopstick]
    by_cases hc : rightChop p = ⟨i, hi⟩
    · exact .inl (if_pos hc)
    · rw [if_neg hc]
      rcases h.free p e hpc with hnone | ⟨j, hj, hle⟩
      · exact .inl hnone
      · obtain rfl : i = j := MainPc.unlock.inj (hm.symm.trans hj)
        exact .inr ⟨i + 1, rfl, Nat.lt_of_le_of_ne hle fun heq => hc (Fin.ext heq.symm)⟩
  · refine ⟨hr, h.tail, fun p e hpc => ?_⟩
    rcases h.free p e hpc with hnone | ⟨j, hj, hle⟩
    · exact .inl hnone
    · have hlt := (rightChop p).isLt
      have hnj := hlast j hj
      omega

/-- What `main` knows of a circle that it has started a period with. -/
def Found (s : Program n) : Prop :=
  match s.main with
  | .reset i => ∀ p, p.val < i → (s.table.diners p).prog = 0
  | .sleep => ∀ p, (s.table.diners p).prog = 0
  | .check _ => (∀ p, (s.table.diners p).prog = 0) ∧ s.deadlock = true
  | .print => s.deadlock = true
  | .while => s.deadlock = true
  | .stop => s.deadlock = true
  | .report => s.deadlock = true
  | .unlock _ => s.report = some "Deadlock Detected\n"
  | .join _ => s.report = some "Deadlock Detected\n"
  | .returned => s.report = some "Deadlock Detected\n"

theorem found_mainStep (h : Found s) (hstep : mainStep s = some s') : Found s' := by
  unfold Found at h
  unfold mainStep at hstep
  cases hm : s.main with
  | reset i =>
    simp only [hm] at hstep h
    split_ifs at hstep with hi
    · rw [← Option.some.inj hstep]
      intro p hp
      simp only [Table.reset, Function.update_apply]
      split_ifs with heq
      · rfl
      · exact h p (Nat.lt_of_le_of_ne (Nat.le_of_lt_succ hp) fun hv => heq (Fin.ext hv))
    · rw [← Option.some.inj hstep]
      exact fun p => h p (lt_of_lt_of_le p.isLt (not_lt.mp hi))
  | sleep =>
    simp only [hm, Option.some.injEq] at hstep h
    rw [← hstep]
    exact ⟨h, rfl⟩
  | check i =>
    simp only [hm] at hstep h
    by_cases hi : i < n
    · simp only [dif_pos hi, h.1, ne_eq, not_true_eq_false, if_false, Option.some.injEq] at hstep
      rw [← hstep]
      exact h
    · simp only [dif_neg hi, Option.some.injEq] at hstep
      rw [← hstep]
      exact h.2
  | print =>
    simp only [hm, Option.some.injEq] at hstep h
    rw [← hstep]
    exact h
  | «while» =>
    simp only [hm] at hstep h
    rw [if_neg (by rw [h]; exact fun hw => by cases hw.1)] at hstep
    rw [← Option.some.inj hstep]
    exact h
  | stop =>
    simp only [hm, Option.some.injEq] at hstep h
    rw [← hstep]
    exact h
  | report =>
    simp only [hm, Option.some.injEq] at hstep h
    rw [← hstep]
    simp only [Found, h, if_true]
  | unlock i =>
    simp only [hm] at hstep h
    split_ifs at hstep
    · rw [← Option.some.inj hstep]
      exact h
    · rw [← Option.some.inj hstep]
      exact h
  | join i =>
    simp only [hm] at hstep h
    split_ifs at hstep
    · rw [← Option.some.inj hstep]
      exact h
    · rw [← Option.some.inj hstep]
      exact h
  | returned => simp only [hm, reduceCtorEq] at hstep

/-- A circle before the release, or the release of one. -/
def Resolving (s : Program n) : Prop :=
  (s.main.releasing = false ∧ Circle s.table) ∨ Released s

theorem resolving_mainStep (h : Resolving s) (hstep : mainStep s = some s') : Resolving s' := by
  rcases h with ⟨hr, hc⟩ | h
  · by_cases hreport : s.main = .report
    · simp only [mainStep, hreport, Option.some.injEq] at hstep
      rw [← hstep]
      refine .inr ⟨rfl, fun p => ?_, fun p e _ => .inr ⟨0, rfl, Nat.zero_le _⟩⟩
      obtain ⟨⟨e, hpc⟩, -⟩ := hc p
      simp only [hpc]
      exact .inr rfl
    · left
      unfold mainStep at hstep
      cases hm : s.main with
      | reset i =>
        simp only [hm] at hstep
        split_ifs at hstep with hi
        · rw [← Option.some.inj hstep]
          exact ⟨rfl, fun p => ⟨by rw [reset_pc]; exact (hc p).1, (hc p).2⟩⟩
        · rw [← Option.some.inj hstep]
          exact ⟨rfl, hc⟩
      | check i =>
        by_cases hi : i < n
        · simp only [hm, dif_pos hi, Option.some.injEq] at hstep
          rw [← hstep]
          exact ⟨rfl, hc⟩
        · simp only [hm, dif_neg hi, Option.some.injEq] at hstep
          rw [← hstep]
          exact ⟨rfl, hc⟩
      | «while» =>
        simp only [hm] at hstep
        split_ifs at hstep
        · rw [← Option.some.inj hstep]
          exact ⟨rfl, hc⟩
        · rw [← Option.some.inj hstep]
          exact ⟨rfl, hc⟩
      | sleep =>
        simp only [hm, Option.some.injEq] at hstep
        rw [← hstep]
        exact ⟨rfl, hc⟩
      | print =>
        simp only [hm, Option.some.injEq] at hstep
        rw [← hstep]
        exact ⟨rfl, hc⟩
      | stop =>
        simp only [hm, Option.some.injEq] at hstep
        rw [← hstep]
        exact ⟨rfl, hc⟩
      | report => exact absurd hm hreport
      | _ =>
        rw [hm] at hr
        cases hr
  · exact .inr (released_mainStep h hstep)

theorem stop_of_released (hok : Ok order s) (h : Released s) : s.stop = true := by
  rw [hok.stop]
  have hr := h.releasing
  cases hm : s.main with
  | unlock i => rfl
  | join i => rfl
  | returned => rfl
  | _ =>
    rw [hm] at hr
    cases hr

theorem resolving_threadStep (hok : Ok order s) (h : Resolving s)
    (hstep : threadStep takeChopsticks p a s = some s') : Released s ∧ Resolving s' := by
  rcases h with ⟨-, hc⟩ | h
  · rw [threadStep_circle hc] at hstep
    cases hstep
  · exact ⟨h, .inr (released_threadStep h (stop_of_released hok h) hstep)⟩

/-- From the release on, the threads do not change what `main` has printed. -/
theorem found_threadStep (h : Found s) (hr : Released s) (hstep : threadStep take p a s = some s') :
    Found s' := by
  have hreleasing := hr.releasing
  obtain ⟨-, ⟨-, -, rfl⟩ | ⟨-, table, -, rfl⟩⟩ := threadStep_cases hstep
  · exact h
  · unfold Found at h ⊢
    cases hm : s.main with
    | unlock i => simpa only [hm] using h
    | join i => simpa only [hm] using h
    | returned => simpa only [hm] using h
    | _ =>
      rw [hm] at hreleasing
      cases hreleasing

/-- **The release resolves a circle.** When the philosophers wait in a circle before `main` begins to
release the chopsticks, every run is finite, and `main` returns after all threads have ended. If a period
is only beginning, `main` reports the deadlock. -/
theorem circle_resolved (hn : 2 ≤ n) (h : Reachable (step takeChopsticks) (start n) s)
    (hc : Circle s.table) (hr : s.main.releasing = false) :
    Ends (step takeChopsticks)
      (fun t => Over t ∧ (s.main = .reset 0 → t.report = some "Deadlock Detected\n")) s := by
  have hok := ok_reachable hn (orders_take 0) (fun _ _ => rfl) h
  refine ends measure
    (fun t => Ok (fun p => takeChopsticks p 0) t ∧ Resolving t ∧ (s.main = .reset 0 → Found t)) ?_ ?_ ?_
    ⟨hok, .inl ⟨hr, hc⟩, fun hm => ?_⟩
  · rintro actor t t' ⟨hok, hres, hfound⟩ hstep
    have hok' := ok_step hn (orders_take 0) (fun _ _ => rfl) hok hstep
    cases actor with
    | main =>
      exact ⟨hok', resolving_mainStep hres hstep, fun hm => found_mainStep (hfound hm) hstep⟩
    | thread p a =>
      obtain ⟨hreleased, hres'⟩ := resolving_threadStep hok hres hstep
      exact ⟨hok', hres', fun hm => found_threadStep (hfound hm) hreleased hstep⟩
  · rintro actor t t' ⟨hok, hres, -⟩ hstep
    cases actor with
    | main => exact measure_mainStep hok hstep
    | thread p a =>
      have hreleased := (resolving_threadStep hok hres hstep).1
      exact measure_threadStep (orders_take 0) rfl (stop_of_released hok hreleased) hstep
  · rintro t ⟨hok, hres, hfound⟩ hstuck
    have hover : Over t := by
      rcases deadlocked_of_stuck hok hstuck with hover | ⟨⟨i, hm⟩, hdead⟩
      · exact hover
      · rcases hres with ⟨hr, -⟩ | hreleased
        · rw [hm] at hr
          cases hr
        · -- the chopstick that philosopher 0 waits for has been freed
          have hcircle := circle_of_deadlocked hok.owned hdead
          obtain ⟨⟨e, hpc⟩, -⟩ := hcircle ⟨0, by omega⟩
          have hown := (hcircle (rightChop ⟨0, by omega⟩)).2
          rcases hreleased.free _ e hpc with hnone | ⟨j, hj, -⟩
          · cases hnone.symm.trans hown
          · rw [hm] at hj
            cases hj
    refine ⟨hover, fun hm => ?_⟩
    have hf := hfound hm
    unfold Found at hf
    simpa only [hover.1] using hf
  · unfold Found
    simp only [hm]
    exact fun p hp => absurd hp (Nat.not_lt_zero _)

/-- Two philosophers that take their left chopsticks at once. -/
theorem circle_resolved_two : ∃ s : Program 2, Circle s.table ∧
    Ends (step takeChopsticks) (fun t => Over t ∧ t.report = some "Deadlock Detected\n") s := by
  obtain ⟨s, hrun, hm, hc⟩ : ∃ s : Program 2, run (step takeChopsticks)
      ([0, 1, 0, 1, 0, 1].map fun p => .thread p ⟨0, 0, 0⟩) (start 2) = some s ∧
        s.main = .reset 0 ∧ Circle s.table := by
    refine ⟨_, rfl, rfl, fun p => ⟨⟨0, ?_⟩, ?_⟩⟩
    · revert p
      decide
    · revert p
      decide
  have hends := circle_resolved (by omega) (reachable_run .refl hrun) hc (by rw [hm]; rfl)
  exact ⟨s, hc, hends.finite, fun t ht hstuck =>
    ⟨(hends.final t ht hstuck).1, (hends.final t ht hstuck).2 hm⟩⟩

end Eecs678.Dining.Endings
