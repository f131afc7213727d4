import Mathlib.Algebra.Order.Ring.Nat

/-!
# Spans of memory

A span is an address and a number of bytes. Spans inside two spans that are apart are apart
(`Within.apart`).
-/

namespace Eecs678.Lib.Spans

structure Span where
  base : ℕ
  size : ℕ
deriving DecidableEq, Repr

/-- The first address behind the span. -/
def Span.stop (a : Span) : ℕ := a.base + a.size

/-- The first span lies inside the second one. -/
def Within (a b : Span) : Prop := b.base ≤ a.base ∧ a.stop ≤ b.stop

/-- One of the two spans lies before the other one. -/
def Apart (a b : Span) : Prop := a.stop ≤ b.base ∨ b.stop ≤ a.base

instance (a b : Span) : Decidable (Within a b) := inferInstanceAs (Decidable (_ ∧ _))

instance (a b : Span) : Decidable (Apart a b) := inferInstanceAs (Decidable (_ ∨ _))

variable {a b c d : Span}

theorem Apart.symm (h : Apart a b) : Apart b a := Or.symm h

/-- **Spans inside spans that are apart are apart.** -/
theorem Within.apart (h : Within a b) (h' : Within c d) (hbd : Apart b d) : Apart a c := by
  rcases hbd with hbd | hbd
  · exact Or.inl (h.2.trans (hbd.trans h'.1))
  · exact Or.inr (h'.2.trans (hbd.trans h.1))

end Eecs678.Lib.Spans
