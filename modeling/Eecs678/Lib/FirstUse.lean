import Mathlib.Data.Finset.Card
import Mathlib.Data.List.Infix

/-!
# Numbering by first use

The values of a sequence in the order in which they are first used, each once (`nodup_touched`). What was
used stays in front (`prefix_touched`), so that a value keeps its place as the sequence goes on: the place is
a number for it.
-/

namespace Eecs678.Lib.FirstUse

variable {α : Type} [DecidableEq α]

/-- The values, after one more use. -/
def touch (l : List α) (x : α) : List α := if x ∈ l then l else l ++ [x]

/-- The values after the uses `xs`, from the values `l` on. -/
def touched (l : List α) : List α → List α
  | [] => l
  | x :: xs => touched (touch l x) xs

variable {l : List α} {x y : α}

theorem prefix_touch (l : List α) (x : α) : l <+: touch l x := by
  unfold touch
  split_ifs
  · exact List.prefix_rfl
  · exact List.prefix_append l [x]

theorem mem_touch : y ∈ touch l x ↔ y ∈ l ∨ y = x := by
  unfold touch
  split_ifs with h
  · constructor
    · exact .inl
    · rintro (hy | rfl)
      · exact hy
      · exact h
  · rw [List.mem_append, List.mem_singleton]

theorem nodup_touch (h : l.Nodup) (x : α) : (touch l x).Nodup := by
  unfold touch
  split_ifs with hx
  · exact h
  · rw [List.nodup_append]
    refine ⟨h, List.nodup_singleton x, ?_⟩
    rintro a ha b hb rfl
    exact hx (List.mem_singleton.mp hb ▸ ha)

theorem prefix_touched : ∀ (xs l : List α), l <+: touched l xs
  | [], _ => List.prefix_rfl
  | x :: xs, l => (prefix_touch l x).trans (prefix_touched xs (touch l x))

theorem mem_touched : ∀ {xs l : List α}, y ∈ touched l xs ↔ y ∈ l ∨ y ∈ xs
  | [], _ => by simp [touched]
  | x :: xs, l => by rw [touched, mem_touched, mem_touch, List.mem_cons, or_assoc]

theorem nodup_touched : ∀ (xs : List α) {l : List α}, l.Nodup → (touched l xs).Nodup
  | [], _, h => h
  | x :: xs, _, h => nodup_touched xs (nodup_touch h x)

/-- There are as many as there are different values. -/
theorem length_touched (xs : List α) : (touched [] xs).length = xs.toFinset.card := by
  rw [← List.toFinset_card_of_nodup (nodup_touched xs List.nodup_nil)]
  congr 1
  ext y
  simp [mem_touched]

end Eecs678.Lib.FirstUse
