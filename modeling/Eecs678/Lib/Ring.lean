import Mathlib.Order.Basic
import Mathlib.Algebra.Order.Ring.Nat
import Mathlib.Data.List.Basic

/-!
# Circular buffers

A circular buffer of `cap` cells keeps the element number `i` of a sequence in the cell
`slot cap front i`. `Holds cells cap front l` says that the cells hold the sequence `l` so; the lemmas
after it are the moves of a double-ended queue: a write beyond either end (`Holds.push_back`,
`Holds.push_front`), a forgotten end (`Holds.tail`, `Holds.dropLast`), a changed element (`Holds.set`)
and a copy to the start of other cells (`Holds.of_prefix`).
-/

namespace Eecs678.Lib.Ring

/-- The cell of the element number `i`. -/
def slot (cap front i : ℕ) : ℕ := (front + i) % cap

/-! ### Indices -/

theorem slot_lt {cap front i : ℕ} (h : 0 < cap) : slot cap front i < cap := Nat.mod_lt _ h

theorem slot_zero {cap front : ℕ} (h : front < cap) : slot cap front 0 = front := Nat.mod_eq_of_lt h

theorem slot_slot (cap front i j : ℕ) : slot cap (slot cap front i) j = slot cap front (i + j) := by
  unfold slot
  rw [Nat.mod_add_mod, Nat.add_assoc]

theorem slot_add_cap (cap front i : ℕ) : slot cap front (cap + i) = slot cap front i := by
  unfold slot
  rw [show front + (cap + i) = front + i + cap by omega, Nat.add_mod_right]

/-- One turn at most: the index wraps once. -/
theorem slot_eq {cap front i : ℕ} (hf : front < cap) (hi : i ≤ cap) :
    slot cap front i = if front + i < cap then front + i else front + i - cap := by
  unfold slot
  split
  · next h => exact Nat.mod_eq_of_lt h
  · next h =>
    rw [Nat.mod_eq_sub_mod (by omega)]
    exact Nat.mod_eq_of_lt (by omega)

/-- **Different elements lie in different cells.** -/
theorem slot_inj {cap front i j : ℕ} (hf : front < cap) (hi : i < cap) (hj : j < cap)
    (h : slot cap front i = slot cap front j) : i = j := by
  rw [slot_eq hf hi.le, slot_eq hf hj.le] at h
  split at h <;> split at h <;> omega

/-- The cell before the front, then one to the right again. -/
theorem slot_prev_succ {cap front : ℕ} (hf : front < cap) (i : ℕ) :
    slot cap (slot cap front (cap - 1)) (i + 1) = slot cap front i := by
  rw [slot_slot, show cap - 1 + (i + 1) = cap + i by omega, slot_add_cap]

/-- The number of elements from the two ends. -/
theorem sub_slot {cap front n : ℕ} (hf : front < cap) (hn : n < cap) :
    (slot cap front n + cap - front) % cap = n := by
  rw [slot_eq hf hn.le]
  split
  · next h =>
    rw [show front + n + cap - front = n + cap by omega, Nat.add_mod_right]
    exact Nat.mod_eq_of_lt hn
  · next h =>
    rw [show front + n - cap + cap - front = n by omega]
    exact Nat.mod_eq_of_lt hn

/-! ### The sequence in the cells -/

variable {α : Type}

/-- The cells hold the sequence, from `front` on. -/
def Holds (cells : List (Option α)) (cap front : ℕ) (l : List α) : Prop :=
  ∀ (i : ℕ) (a : α), l[i]? = some a → cells[slot cap front i]? = some (some a)

theorem Holds.nil {cells : List (Option α)} {cap front : ℕ} : Holds cells cap front [] :=
  fun i a h => by simp only [List.getElem?_nil, reduceCtorEq] at h

/-- **Write beyond the back.** -/
theorem Holds.push_back {cells : List (Option α)} {cap front : ℕ} {l : List α} (a : α)
    (h : Holds cells cap front l) (hf : front < cap) (hc : cells.length = cap) (hl : l.length < cap) :
    Holds (cells.set (slot cap front l.length) (some a)) cap front (l ++ [a]) := by
  intro i b hi
  obtain ⟨hil, hb⟩ | ⟨rfl, rfl⟩ : (i < l.length ∧ l[i]? = some b) ∨ (i = l.length ∧ a = b) := by
    rcases Nat.lt_trichotomy i l.length with hlt | rfl | hgt
    · exact .inl ⟨hlt, by rwa [List.getElem?_append_left hlt] at hi⟩
    · rw [List.getElem?_concat_length] at hi
      exact .inr ⟨rfl, Option.some.inj hi⟩
    · rw [List.getElem?_eq_none (by simp only [List.length_append, List.length_singleton]; omega)] at hi
      cases hi
  · rw [List.getElem?_set_ne fun he => ?_]
    · exact h i b hb
    · have := slot_inj hf hl (by omega) he
      omega
  · exact List.getElem?_set_self (hc ▸ slot_lt (by omega))

/-- **Write before the front.** -/
theorem Holds.push_front {cells : List (Option α)} {cap front : ℕ} {l : List α} (a : α)
    (h : Holds cells cap front l) (hf : front < cap) (hc : cells.length = cap)
    (hl : l.length + 1 < cap) :
    Holds (cells.set (slot cap front (cap - 1)) (some a)) cap (slot cap front (cap - 1)) (a :: l) := by
  have hf' : slot cap front (cap - 1) < cap := slot_lt (by omega)
  rintro (_ | i) b hi
  · rw [slot_zero hf', List.getElem?_set_self (hc ▸ hf')]
    exact congrArg some hi
  · obtain ⟨hil, -⟩ := List.getElem?_eq_some_iff.mp hi
    rw [List.length_cons] at hil
    rw [slot_prev_succ hf, List.getElem?_set_ne fun he => ?_]
    · exact h i b hi
    · have := slot_inj hf (by omega) (by omega) he
      omega

/-- The front element is forgotten. -/
theorem Holds.tail {cells : List (Option α)} {cap front : ℕ} {a : α} {l : List α}
    (h : Holds cells cap front (a :: l)) : Holds cells cap (slot cap front 1) l := by
  intro i b hi
  rw [slot_slot, Nat.add_comm]
  exact h (i + 1) b hi

/-- The back element is forgotten. -/
theorem Holds.dropLast {cells : List (Option α)} {cap front : ℕ} {a : α} {l : List α}
    (h : Holds cells cap front (l ++ [a])) : Holds cells cap front l := by
  intro i b hi
  obtain ⟨hil, -⟩ := List.getElem?_eq_some_iff.mp hi
  exact h i b (by rwa [List.getElem?_append_left hil])

theorem Holds.front {cells : List (Option α)} {cap front : ℕ} {a : α} {l : List α}
    (h : Holds cells cap front (a :: l)) (hf : front < cap) : cells[front]? = some (some a) := by
  have := h 0 a rfl
  rwa [slot_zero hf] at this

theorem Holds.back {cells : List (Option α)} {cap front : ℕ} {a : α} {l : List α}
    (h : Holds cells cap front (l ++ [a])) : cells[slot cap front l.length]? = some (some a) :=
  h l.length a List.getElem?_concat_length

/-- An element is changed. -/
theorem Holds.set {cells : List (Option α)} {cap front n : ℕ} {l : List α} (b : α)
    (h : Holds cells cap front l) (hf : front < cap) (hc : cells.length = cap) (hl : l.length ≤ cap)
    (hn : n < l.length) : Holds (cells.set (slot cap front n) (some b)) cap front (l.set n b) := by
  intro i a hi
  obtain ⟨hil, -⟩ := List.getElem?_eq_some_iff.mp hi
  rw [List.length_set] at hil
  by_cases hin : n = i
  · subst hin
    rw [List.getElem?_set_self hn] at hi
    rw [List.getElem?_set_self (hc ▸ slot_lt (by omega))]
    exact congrArg some hi
  · rw [List.getElem?_set_ne hin] at hi
    rw [List.getElem?_set_ne fun he => hin (slot_inj hf (by omega) (by omega) he)]
    exact h i a hi

/-- **A copy at the start of other cells.** -/
theorem Holds.of_prefix {cells : List (Option α)} {cap : ℕ} {l : List α} (hl : l.length ≤ cap)
    (h : ∀ (i : ℕ) (a : α), l[i]? = some a → cells[i]? = some (some a)) : Holds cells cap 0 l := by
  intro i a hi
  obtain ⟨hil, -⟩ := List.getElem?_eq_some_iff.mp hi
  unfold slot
  rw [Nat.zero_add, Nat.mod_eq_of_lt (by omega)]
  exact h i a hi

/-- The first cells of a block, when they hold the sequence. -/
theorem take_eq_map {cells : List (Option α)} {l : List α}
    (h : ∀ (i : ℕ) (a : α), l[i]? = some a → cells[i]? = some (some a)) :
    cells.take l.length = l.map some := by
  refine List.ext_getElem? fun i => ?_
  rw [List.getElem?_map]
  by_cases hi : i < l.length
  · have ha : l[i]? = some l[i] := List.getElem?_eq_getElem hi
    rw [List.getElem?_take_of_lt hi, h i _ ha, ha]
    rfl
  · rw [List.getElem?_take_eq_none (not_lt.mp hi), List.getElem?_eq_none (not_lt.mp hi)]
    rfl

end Eecs678.Lib.Ring
