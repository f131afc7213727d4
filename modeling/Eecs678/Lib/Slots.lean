import Mathlib.Data.List.ReduceOption
import Mathlib.Data.List.Perm.Basic
import Mathlib.Data.List.Nodup

/-!
# Lists of slots

A list of slots is a `List (Option α)`; `List.reduceOption` are its occupants. Writing one slot
changes the occupants by the old and the new content of that slot (`reduceOption_set_perm`).
-/

namespace Eecs678.Lib.Slots

variable {α : Type}

/-- **Writing a slot**: the new occupants with the old content are the old ones with the new. -/
theorem reduceOption_set_perm : ∀ {l : List (Option α)} {c : ℕ} {x y : Option α}, l[c]? = some y →
    ((l.set c x).reduceOption ++ y.toList).Perm (l.reduceOption ++ x.toList)
  | [], c, x, y, h => by simp at h
  | z :: l, 0, x, y, h => by
    simp only [List.getElem?_cons_zero, Option.some.injEq] at h
    subst h
    simp only [List.set_cons_zero]
    -- both sides are the rest of the list with the two contents of the slot
    have key : ∀ w : Option α, (w :: l).reduceOption = w.toList ++ l.reduceOption := fun w => by
      cases w <;> rfl
    rw [key, key, List.append_assoc, List.append_assoc]
    exact List.perm_append_comm.trans (by rw [List.append_assoc]; exact
      (List.perm_append_comm_assoc _ _ _))
  | z :: l, c + 1, x, y, h => by
    simp only [List.getElem?_cons_succ] at h
    have ih := reduceOption_set_perm (x := x) h
    simp only [List.set_cons_succ]
    cases z with
    | none => simpa only [List.reduceOption_cons_of_none] using ih
    | some z => simpa only [List.reduceOption_cons_of_some, List.cons_append] using ih.cons z

theorem reduceOption_fill {l : List (Option α)} {c : ℕ} {a : α} (h : l[c]? = some none) :
    (l.set c (some a)).reduceOption.Perm (a :: l.reduceOption) := by
  have := reduceOption_set_perm (x := some a) h
  simp only [Option.toList_none, List.append_nil, Option.toList_some] at this
  exact this.trans (List.perm_append_singleton _ _)

theorem reduceOption_clear {l : List (Option α)} {c : ℕ} {b : α} (h : l[c]? = some (some b)) :
    (b :: (l.set c none).reduceOption).Perm l.reduceOption := by
  have := reduceOption_set_perm (x := none) h
  simp only [Option.toList_none, List.append_nil, Option.toList_some] at this
  exact (List.perm_append_singleton _ _).symm.trans this

theorem reduceOption_swap {l : List (Option α)} {c : ℕ} {a b : α} (h : l[c]? = some (some b)) :
    (b :: (l.set c (some a)).reduceOption).Perm (a :: l.reduceOption) := by
  have := reduceOption_set_perm (x := some a) h
  simp only [Option.toList_some] at this
  exact (List.perm_append_singleton _ _).symm.trans
    (this.trans (List.perm_append_singleton _ _))

/-- Who sits in a slot is an occupant. -/
theorem mem_reduceOption {l : List (Option α)} {c : ℕ} {a : α} (h : l[c]? = some (some a)) :
    a ∈ l.reduceOption :=
  List.reduceOption_mem_iff.mpr (List.mem_of_getElem? h)

theorem exists_slot {l : List (Option α)} {a : α} (h : a ∈ l.reduceOption) :
    ∃ c : ℕ, l[c]? = some (some a) :=
  List.mem_iff_getElem?.mp (List.reduceOption_mem_iff.mp h)

/-- Without repetition, an occupant sits in one slot. -/
theorem slot_unique : ∀ {l : List (Option α)} {c c' : ℕ} {a : α}, l.reduceOption.Nodup →
    l[c]? = some (some a) → l[c']? = some (some a) → c = c'
  | [], c, c', a, _, h, _ => by simp at h
  | z :: l, c, c', a, hnd, h, h' => by
    have hnd' : l.reduceOption.Nodup := by
      cases z with
      | none => exact hnd
      | some z => exact (List.nodup_cons.mp hnd).2
    cases c <;> cases c'
    · rfl
    · simp only [List.getElem?_cons_zero, Option.some.injEq] at h
      subst h
      simp only [List.getElem?_cons_succ] at h'
      exact absurd (mem_reduceOption h') (List.nodup_cons.mp hnd).1
    · simp only [List.getElem?_cons_zero, Option.some.injEq] at h'
      subst h'
      simp only [List.getElem?_cons_succ] at h
      exact absurd (mem_reduceOption h) (List.nodup_cons.mp hnd).1
    · simp only [List.getElem?_cons_succ] at h h'
      rw [slot_unique hnd' h h']

/-- All slots are taken when none is empty. -/
theorem length_reduceOption {l : List (Option α)} (h : none ∉ l) :
    l.reduceOption.length = l.length := by
  rw [List.length_eq_reduceOption_length_add_filter_none, List.filter_eq_nil_iff.mpr, List.length_nil,
    Nat.add_zero]
  intro x hx hn
  rw [Option.isNone_iff_eq_none] at hn
  exact h (hn ▸ hx)

end Eecs678.Lib.Slots
