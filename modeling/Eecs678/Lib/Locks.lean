import Mathlib.Data.Set.Finite.Lemmas

/-!
# Locks taken in an order

Processes hold resources and wait for others. When each process waits only for a resource above those
it holds, no set of processes waits for itself (`not_deadlocked`), so some process does not wait
(`exists_unblocked`).
-/

namespace Eecs678.Lib.Locks

variable {P R : Type} {owner : R → Option P} {wants : P → Option R}

/-- Each process of the set waits for a resource that another one of the set holds. -/
def Deadlocked (owner : R → Option P) (wants : P → Option R) (S : Set P) : Prop :=
  S.Nonempty ∧ ∀ p ∈ S, ∃ r, wants p = some r ∧ ∃ q ∈ S, q ≠ p ∧ owner r = some q

/-- The processes wait upwards. -/
def Ascending (owner : R → Option P) (wants : P → Option R) (rank : R → ℕ) : Prop :=
  ∀ q r r', owner r = some q → wants q = some r' → rank r < rank r'

/-- **Waiting upwards excludes deadlock.** -/
theorem not_deadlocked [Finite P] {rank : R → ℕ} (h : Ascending owner wants rank) (S : Set P) :
    ¬ Deadlocked owner wants S := by
  rintro ⟨hne, hS⟩
  -- the process that waits for the highest resource
  obtain ⟨p, hp, hmax⟩ := Set.exists_max_image S (fun p => ((wants p).map rank).getD 0) S.toFinite hne
  obtain ⟨r, hr, q, hq, -, hown⟩ := hS p hp
  obtain ⟨r', hr', -⟩ := hS q hq
  have hlt : rank r < rank r' := h q r r' hown hr'
  have hle := hmax q hq
  simp only [hr, hr', Option.map_some, Option.getD_some] at hle
  omega

/-- **Some process does not wait** for another one. -/
theorem exists_unblocked [Finite P] [Nonempty P] {rank : R → ℕ} (h : Ascending owner wants rank) :
    ∃ p, ∀ r, wants p = some r → ∀ q, owner r = some q → q = p := by
  by_contra hc
  push Not at hc
  refine not_deadlocked h Set.univ ⟨Set.univ_nonempty, fun p _ => ?_⟩
  obtain ⟨r, hr, q, hq, hne⟩ := hc p
  exact ⟨r, hr, q, Set.mem_univ q, hne, hq⟩

end Eecs678.Lib.Locks
