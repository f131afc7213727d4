import Mathlib.Order.Basic
import Mathlib.Algebra.Order.Ring.Nat
import Mathlib.Data.Nat.Find
import Mathlib.Logic.Function.Basic

/-!
# Descriptor tables

The descriptors of a process: a function that is `none` from some number on, so that there is a lowest
free descriptor. `openAt`, `close` and `dup2` are the calls that change a table; `moveTo` is a
`dup2` with the old descriptor closed after it.
-/

namespace Eecs678.Lib.Descriptors

/-- What each descriptor refers to; only finitely many are open. -/
structure Table (α : Type) where
  get : ℕ → Option α
  limit : ℕ
  closed : ∀ fd, limit ≤ fd → get fd = none

namespace Table

variable {α : Type}

def set (t : Table α) (fd : ℕ) (o : α) : Table α where
  get := Function.update t.get fd (some o)
  limit := max t.limit (fd + 1)
  closed := fun x hx => by
    rw [Function.update_of_ne (by omega)]
    exact t.closed x (by omega)

def close (t : Table α) (fd : ℕ) : Table α where
  get := Function.update t.get fd none
  limit := t.limit
  closed := fun x hx => by
    by_cases h : x = fd
    · rw [h, Function.update_self]
    · rw [Function.update_of_ne h]
      exact t.closed x hx

theorem exists_free (t : Table α) : ∃ fd, t.get fd = none := ⟨t.limit, t.closed _ le_rfl⟩

/-- The lowest free descriptor. -/
def lowest (t : Table α) : ℕ := Nat.find t.exists_free

/-- An object is opened on the lowest free descriptor. -/
def openAt (t : Table α) (o : α) : ℕ × Table α := (t.lowest, t.set t.lowest o)

/-- `dup2`; a closed `old` leaves the table as it is. -/
def dup2 (t : Table α) (old new : ℕ) : Table α :=
  match t.get old with
  | none => t
  | some o => t.set new o

/-- `dup2(old, new)` and then `close(old)`. -/
def moveTo (t : Table α) (old new : ℕ) : Table α := (t.dup2 old new).close old

/-! ### What is open afterwards -/

@[simp] theorem get_set (t : Table α) (fd x : ℕ) (o : α) :
    (t.set fd o).get x = if x = fd then some o else t.get x := Function.update_apply _ _ _ _

@[simp] theorem get_close (t : Table α) (fd x : ℕ) :
    (t.close fd).get x = if x = fd then none else t.get x := Function.update_apply _ _ _ _

theorem get_lowest (t : Table α) : t.get t.lowest = none := Nat.find_spec t.exists_free

theorem get_dup2 {t : Table α} {old : ℕ} {o : α} (h : t.get old = some o) (new x : ℕ) :
    (t.dup2 old new).get x = if x = new then some o else t.get x := by
  unfold dup2
  rw [h]
  exact t.get_set new x o

/-- **A moved descriptor.** -/
theorem get_moveTo {t : Table α} {old : ℕ} {o : α} (h : t.get old = some o) (new x : ℕ) :
    (t.moveTo old new).get x = if x = old then none else if x = new then some o else t.get x := by
  unfold moveTo
  rw [get_close, get_dup2 h]

/-- An object that is opened and moved to an open descriptor takes its place, and nothing else
changes. -/
theorem get_open_moveTo (t : Table α) (o : α) {new : ℕ} (h : t.get new ≠ none) (x : ℕ) :
    ((t.openAt o).2.moveTo (t.openAt o).1 new).get x = if x = new then some o else t.get x := by
  have hne : new ≠ t.lowest := fun he => h (he ▸ t.get_lowest)
  unfold openAt
  rw [get_moveTo (o := o) (by rw [get_set, if_pos rfl]), get_set]
  by_cases hx : x = t.lowest
  · rw [if_pos hx, if_neg (by omega), hx, t.get_lowest]
  · rw [if_neg hx, if_neg hx]

end Table

end Eecs678.Lib.Descriptors
