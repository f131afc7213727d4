import Eecs678.Dining.Holding
import Eecs678.Lib.Locks

/-!
# The asymmetric philosophers

`dp_asymmetric.c`. An even philosopher locks its left chopstick first, an odd one its right chopstick.
Both are at an even place, and the second one is at an odd place, but for philosopher 0 at a table of
odd size: there it is the last one. So each philosopher locks upwards in `rank`.
-/

namespace Eecs678.Dining.Asymmetric

open Eecs678.Lib.Locks Eecs678.Dining.Model Eecs678.Dining.Holding

variable {n : ℕ}

/-- The order of the two calls of `pthread_mutex_lock`. -/
def takeChopsticks (p : Fin n) (_available : ℤ) : List (Fin n) :=
  if p.val % 2 = 0 then [leftChop p, rightChop p] else [rightChop p, leftChop p]

theorem orders_take (x : ℤ) : Orders fun p : Fin n => takeChopsticks p x := fun p => by
  simp only [takeChopsticks]
  split_ifs
  · exact .inl rfl
  · exact .inr rfl

/-- Chopstick 0, then the even ones, then the odd ones. -/
def rank (chop : Fin n) : ℕ := if chop.val = 0 then 0 else chop.val % 2 + 1

theorem rank_lt (hn : 2 ≤ n) {p c c' : Fin n} {x : ℤ} (h : takeChopsticks p x = [c, c']) :
    rank c < rank c' := by
  have hr := rightChop_val p
  have hp := p.isLt
  unfold takeChopsticks at h
  split_ifs at h with heven
  · obtain ⟨rfl, rfl⟩ : leftChop p = c ∧ rightChop p = c' := by simpa using h
    unfold rank leftChop
    rw [hr]
    split_ifs <;> omega
  · obtain ⟨rfl, rfl⟩ : rightChop p = c ∧ leftChop p = c' := by simpa using h
    unfold rank leftChop
    rw [hr]
    split_ifs <;> omega

/-- A philosopher waits only for a chopstick above the one it holds. -/
theorem ascending (hn : 2 ≤ n) {t : Table n} (h : Inv (fun p => takeChopsticks p 0) t) :
    Ascending t.chopstick (wants t) rank :=
  fun _ _ _ hown hw => rank_lt hn (order_of_waiting (orders_take 0) h hown hw)

/-- No philosopher waits for a chopstick that it holds itself. -/
theorem not_own (hn : 2 ≤ n) {t : Table n} (h : Inv (fun p => takeChopsticks p 0) t) {p c : Fin n}
    (hw : wants t p = some c) : t.chopstick c ≠ some p := fun hown =>
  lt_irrefl _ (ascending hn h p c c hown hw)

/-- **The asymmetric philosophers cannot deadlock.** In every reachable state no two neighbours eat, no
philosophers wait for each other, and one of them can take a step, whatever answer it gets. -/
theorem deadlock_free (hn : 2 ≤ n) {t : Table n} (h : Reachable takeChopsticks (fun _ => True) t) :
    (∀ p, ¬ (Eating t p ∧ Eating t (leftPhil p))) ∧
    (∀ S, ¬ Deadlocked t.chopstick (wants t) S) ∧
    ∃ p, ∀ a, (dpThread takeChopsticks p a t).isSome := by
  have hinv : Inv (fun p => takeChopsticks p 0) t :=
    inv_reachable hn (orders_take 0) (fun _ _ _ => rfl) h
  have hasc := ascending hn hinv
  refine ⟨not_both_eating hn hinv, not_deadlocked hasc, ?_⟩
  have : Nonempty (Fin n) := ⟨⟨0, by omega⟩⟩
  obtain ⟨p, hp⟩ := exists_unblocked hasc
  refine ⟨p, fun a => dpThread_isSome p a fun c hc => ?_⟩
  cases hown : t.chopstick c with
  | none => rfl
  | some q =>
    obtain rfl := hp c hc q hown
    exact absurd hown (not_own hn hinv hc)

/-- Five philosophers, of whom the first has locked a chopstick. -/
theorem deadlock_free_five :
    ∃ t : Table 5, t.chopstick 0 = some 0 ∧ ∃ p, ∀ a, (dpThread takeChopsticks p a t).isSome := by
  have hstep : ∀ {t t' : Table 5}, Reachable takeChopsticks (fun _ => True) t →
      dpThread takeChopsticks 0 ⟨0, 0, 0⟩ t = some t' → Reachable takeChopsticks (fun _ => True) t' :=
    fun ht he => ht.tail (.thread 0 ⟨0, 0, 0⟩ trivial he)
  have hr := hstep (hstep (hstep (.refl) rfl) rfl) rfl
  exact ⟨_, rfl, (deadlock_free (by omega) hr).2.2⟩

end Eecs678.Dining.Asymmetric
