import Mathlib.Data.Int.Order.Basic
import Mathlib.Order.Lattice

/-!
# Numbers from a counter

A counter gives out the numbers from 1 on, and the numbers in use are some of those that it has given.
None of them is given again (`Given.notMem`). The counter is one more than the largest number in use just
when the last number it gave is still in use (`Given.afterMax_iff`).
-/

namespace Eecs678.Lib.Counter

/-- The numbers in use come from a counter that is at `next`. -/
structure Given (next : ℤ) (used : List ℤ) : Prop where
  pos : 0 < next
  range : ∀ n ∈ used, 0 < n ∧ n < next

/-- One more than the largest number in use, and 1 when there is none. -/
def afterMax (used : List ℤ) : ℤ :=
  match used.max? with
  | none => 1
  | some m => m + 1

variable {next : ℤ} {used : List ℤ}

theorem Given.nil : Given 1 [] := ⟨Int.one_pos, fun _ hn => absurd hn List.not_mem_nil⟩

/-- Numbers can go out of use. -/
theorem Given.subset {used' : List ℤ} (h : Given next used) (hsub : used' ⊆ used) : Given next used' :=
  ⟨h.pos, fun n hn => h.range n (hsub hn)⟩

/-- The counter gives a number. -/
theorem Given.give (h : Given next used) : Given (next + 1) (used ++ [next]) := by
  have hpos := h.pos
  refine ⟨by omega, fun n hn => ?_⟩
  rcases List.mem_append.mp hn with hn | hn
  · have := h.range n hn
    omega
  · rw [List.mem_singleton.mp hn]
    omega

/-- **A number that is given is not in use.** -/
theorem Given.notMem (h : Given next used) : next ∉ used := fun hn => (h.range next hn).2.ne rfl

/-- **When the counter follows the maximum**: it has given no number, or the last one is in use. -/
theorem Given.afterMax_iff (h : Given next used) : next = afterMax used ↔ next = 1 ∨ next - 1 ∈ used := by
  unfold afterMax
  cases hm : used.max? with
  | none =>
    rw [List.max?_eq_none_iff.mp hm]
    simp only [List.not_mem_nil, or_false]
  | some m =>
    obtain ⟨hmem, hmax⟩ := List.max?_eq_some_iff.mp hm
    have hrange := h.range m hmem
    simp only
    constructor
    · rintro rfl
      exact .inr (by rwa [Int.add_sub_cancel])
    · rintro (rfl | hlast)
      · omega
      · have := hmax _ hlast
        omega

end Eecs678.Lib.Counter
