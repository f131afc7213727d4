import Mathlib.Logic.Function.Iterate
import Mathlib.Order.WellFounded
import Mathlib.Data.Prod.Lex

/-!
# Deterministic machines

A machine is a step function on its states. `exists_halt` is the rule of termination: an invariant,
and a measure in a well-founded order that falls with each step until the machine halts.
`not_eventually` is the rule of divergence.
-/

namespace Eecs678.Lib.Machine

variable {σ β : Type} {step : σ → σ}

/-- **The rule of termination.** -/
theorem exists_halt [LT β] [WellFoundedLT β] (measure : σ → β) (inv halted : σ → Prop)
    (hinv : ∀ s, inv s → inv (step s))
    (hdec : ∀ s, inv s → ¬ halted s → measure (step s) < measure s) {s : σ} (h : inv s) :
    ∃ n, halted (step^[n] s) := by
  obtain ⟨b, hb⟩ : ∃ b, b = measure s := ⟨_, rfl⟩
  induction b using WellFoundedLT.induction generalizing s with
  | ind b ih =>
    by_cases hs : halted s
    · exact ⟨0, hs⟩
    · obtain ⟨n, hn⟩ := ih _ (hb ▸ hdec s h hs) (hinv s h) rfl
      exact ⟨n + 1, hn⟩

/-- Some state of the run has the property. -/
def Eventually (step : σ → σ) (P : σ → Prop) (s : σ) : Prop := ∃ n, P (step^[n] s)

theorem eventually_now {P : σ → Prop} {s : σ} (h : P s) : Eventually step P s := ⟨0, h⟩

theorem eventually_step {P : σ → Prop} {s : σ} (h : ¬ P s) :
    Eventually step P s ↔ Eventually step P (step s) := by
  constructor
  · rintro ⟨n, hn⟩
    cases n with
    | zero => exact absurd hn h
    | succ n => exact ⟨n, hn⟩
  · rintro ⟨n, hn⟩
    exact ⟨n + 1, hn⟩

theorem eventually_iterate {P : σ → Prop} {s : σ} {k : ℕ} (h : Eventually step P (step^[k] s)) :
    Eventually step P s := by
  obtain ⟨n, hn⟩ := h
  rw [← Function.iterate_add_apply] at hn
  exact ⟨n + k, hn⟩

/-- **The rule of divergence.** -/
theorem not_eventually {P : σ → Prop} (inv : σ → Prop) (hinv : ∀ s, inv s → inv (step s))
    (hP : ∀ s, inv s → ¬ P s) {s : σ} (h : inv s) : ¬ Eventually step P s := by
  rintro ⟨n, hn⟩
  induction n generalizing s with
  | zero => exact hP s h hn
  | succ n ih => exact ih (hinv s h) hn

/-- **The rule of simulation**, with stuttering: where each state of the first run is followed by one that
matches the same state of the second run or the next one, all states of the first run are matched. -/
theorem exists_matching {τ : Type} {run : ℕ → σ} {run' : ℕ → τ} (R : σ → τ → Prop)
    (h0 : R (run 0) (run' 0))
    (hstep : ∀ n m, R (run n) (run' m) → R (run (n + 1)) (run' m) ∨ R (run (n + 1)) (run' (m + 1))) (n : ℕ) :
    ∃ m ≤ n, R (run n) (run' m) := by
  induction n with
  | zero => exact ⟨0, le_rfl, h0⟩
  | succ n ih =>
    obtain ⟨m, hm, hR⟩ := ih
    rcases hstep n m hR with hR' | hR'
    · exact ⟨m, Nat.le_succ_of_le hm, hR'⟩
    · exact ⟨m + 1, Nat.succ_le_succ hm, hR'⟩

/-- Three numbers that count what is left, the first one most. -/
theorem lex_lt {a b c a' b' c' : ℕ} (ha : a' ≤ a)
    (h : a' < a ∨ b' < b ∨ (b' = b ∧ c' < c)) :
    (toLex (a', toLex (b', c')) : ℕ ×ₗ ℕ ×ₗ ℕ) < toLex (a, toLex (b, c)) := by
  rw [Prod.Lex.toLex_lt_toLex, Prod.Lex.toLex_lt_toLex]
  simp only
  omega

end Eecs678.Lib.Machine
