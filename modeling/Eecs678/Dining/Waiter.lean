import Eecs678.Dining.Holding

/-!
# The philosophers with a waiter

`dp_waiter.c`. The two locks are guarded by a comparison of `available_chopsticks[NUM_CHOPS]` with 2,
and the array ends before that element, so what is read there is an answer from outside. A thread that
reads another number eats without its chopsticks, and unlocks them all the same.
-/

namespace Eecs678.Dining.Waiter

open Eecs678.Dining.Model Eecs678.Dining.Holding

variable {n : ℕ}

/-- The guarded calls of `pthread_mutex_lock`. -/
def takeChopsticks (p : Fin n) (available : ℤ) : List (Fin n) :=
  if available = 2 then [leftChop p, rightChop p] else []

/-- **Exclusion while the guard reads 2.** In every run in which each read of the guard gives 2, no two
neighbours eat, and a philosopher only unlocks chopsticks that it has locked. -/
theorem exclusion (hn : 2 ≤ n) {t : Table n}
    (h : Reachable takeChopsticks (fun a => a.available = 2) t) :
    (∀ p, ¬ (Eating t p ∧ Eating t (leftPhil p))) ∧
    ∀ p chop, unlocks t p = some chop → t.chopstick chop = some p := by
  have hinv : Inv (fun p => [leftChop p, rightChop p]) t :=
    inv_reachable hn (fun _ => .inl rfl) (fun p a ha => by rw [takeChopsticks, if_pos ha]) h
  exact ⟨not_both_eating hn hinv, fun p chop hu => unlocks_owned hinv hu⟩

/-- Five philosophers, of whom the first has locked a chopstick. -/
theorem exclusion_five :
    ∃ t : Table 5, t.chopstick 0 = some 0 ∧ ∀ p, ¬ (Eating t p ∧ Eating t (leftPhil p)) := by
  have hstep : ∀ {t t' : Table 5}, Reachable takeChopsticks (fun a => a.available = 2) t →
      dpThread takeChopsticks 0 ⟨0, 0, 2⟩ t = some t' →
      Reachable takeChopsticks (fun a => a.available = 2) t' :=
    fun ht he => ht.tail (.thread 0 ⟨0, 0, 2⟩ rfl he)
  have hr := hstep (hstep (hstep (.refl) rfl) rfl) rfl
  exact ⟨_, rfl, (exclusion (by omega) hr).1⟩

/-- When the guard reads 0, two neighbours of five eat at the same time, and one of them unlocks a
chopstick that nobody has locked. -/
theorem exclusion_zero : ∃ t : Table 5, Reachable takeChopsticks (fun _ => True) t ∧
    (Eating t 0 ∧ Eating t (leftPhil 0)) ∧ unlocks t 0 = some 4 ∧ t.chopstick 4 = none := by
  have hstep : ∀ (p : Fin 5) {t t' : Table 5}, Reachable takeChopsticks (fun _ => True) t →
      dpThread takeChopsticks p ⟨0, 0, 0⟩ t = some t' → Reachable takeChopsticks (fun _ => True) t' :=
    fun p _ _ ht he => ht.tail (.thread p ⟨0, 0, 0⟩ trivial he)
  have hr0 := hstep 0 (hstep 0 (hstep 0 (hstep 0 (.refl) rfl) rfl) rfl) rfl
  have hr1 := hstep 1 (hstep 1 (hstep 1 hr0 rfl) rfl) rfl
  exact ⟨_, hr1, ⟨trivial, trivial⟩, rfl, rfl⟩

end Eecs678.Dining.Waiter
