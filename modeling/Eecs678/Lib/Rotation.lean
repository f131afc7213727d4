import Mathlib.Data.List.Basic

/-!
# One turn of a queue

A loop that takes the front element of a queue, looks at it and puts it back or not, as many times as
the queue is long, goes through the elements in order and leaves the kept ones in order
(`rotate_length`). `none` is the round that finds the queue empty.
-/

namespace Eecs678.Lib.Rotation

variable {α σ : Type}

/-- `n` rounds; `f` says what is put back of the front element. -/
def rotate (f : α → σ → Option (Option α × σ)) : ℕ → List α → σ → Option (List α × σ)
  | 0, q, s => some (q, s)
  | _ + 1, [], _ => none
  | n + 1, a :: q, s => do
    let (b, s) ← f a s
    rotate f n (q ++ b.toList) s

/-- The elements in order, with what is kept of each. -/
def walk (f : α → σ → Option (Option α × σ)) : List α → σ → Option (List α × σ)
  | [], s => some ([], s)
  | a :: q, s => do
    let (b, s) ← f a s
    let (q, s) ← walk f q s
    return (b.toList ++ q, s)

theorem rotate_append (f : α → σ → Option (Option α × σ)) : ∀ (l r : List α) (s : σ),
    rotate f l.length (l ++ r) s = (walk f l s).map fun (q, s) => (r ++ q, s)
  | [], r, s => by simp [rotate, walk]
  | a :: l, r, s => by
    simp only [List.length_cons, List.cons_append, rotate, walk, bind, Option.bind]
    cases hf : f a s with
    | none => rfl
    | some p =>
      obtain ⟨b, s'⟩ := p
      simp only [List.append_assoc]
      rw [rotate_append f l (r ++ b.toList) s']
      cases walk f l s' with
      | none => rfl
      | some q => simp only [Option.map_some, List.append_assoc, pure]

/-- **One turn** goes through the queue once, in order. -/
theorem rotate_length (f : α → σ → Option (Option α × σ)) (l : List α) (s : σ) :
    rotate f l.length l s = walk f l s := by
  have := rotate_append f l [] s
  simp only [List.append_nil, List.nil_append] at this
  rw [this]
  cases walk f l s with
  | none => rfl
  | some q => rfl

/-- A turn whose rounds write a log: what is kept, and what each element writes, in order. -/
theorem walk_log {β : Type} {f : α → List β → Option (Option α × List β)} {keep : α → Option α}
    {act : α → List β} : ∀ {l : List α} {log : List β},
    (∀ a ∈ l, ∀ log, f a log = some (keep a, log ++ act a)) →
    walk f l log = some (l.filterMap keep, log ++ l.flatMap act)
  | [], log, _ => by simp only [walk, List.filterMap_nil, List.flatMap_nil, List.append_nil]
  | a :: l, log, h => by
    simp only [walk, h a List.mem_cons_self log, bind, Option.bind]
    rw [walk_log fun b hb => h b (List.mem_cons_of_mem _ hb), List.filterMap_cons,
      List.flatMap_cons, List.append_assoc]
    cases keep a with
    | none => rfl
    | some b => rfl

end Eecs678.Lib.Rotation
