import Mathlib.Algebra.Order.Ring.Int
import Mathlib.Data.List.Pairwise
import Mathlib.Data.List.Perm.Basic

/-!
# The priority queue

`libpriqueue.c`. The chain of nodes from `q->top` is the list of the items it holds, and a comparer
is a function to `ℤ`. `priqueue_offer` puts an item before the first one it precedes, so it keeps the
list sorted (`offer_pairwise`) and adds exactly that item (`offer_perm`).
-/

namespace Eecs678.Scheduler.Priqueue

variable {α : Type}

/-- `node_at`. -/
def nodeAt : List α → ℤ → Option α
  | [], _ => none
  | x :: q, index => if index < 0 then none else if index = 0 then some x else nodeAt q (index - 1)

/-- `list_size`. -/
def listSize : List α → ℤ
  | [] => 0
  | _ :: q => 1 + listSize q

/-- The loop of `priqueue_offer` from entry `i` on: the list from there on, and the index used. -/
def offerLoop (comparer : α → α → ℤ) (ptr : α) : List α → ℤ → List α × ℤ
  | [], i => ([ptr], i)
  | target :: q, i =>
    if comparer ptr target < 0 then (ptr :: target :: q, i)
    else (target :: (offerLoop comparer ptr q (i + 1)).1, (offerLoop comparer ptr q (i + 1)).2)

/-- `priqueue_offer`. -/
def priqueueOffer (comparer : α → α → ℤ) (q : List α) (ptr : α) : List α × ℤ :=
  offerLoop comparer ptr q 0

/-- `priqueue_at`. -/
def priqueueAt (q : List α) (index : ℤ) : Option α := nodeAt q index

/-- `priqueue_peek`. -/
def priqueuePeek (q : List α) : Option α := priqueueAt q 0

/-- `priqueue_remove_at`: the list left and the item removed. -/
def priqueueRemoveAt : List α → ℤ → List α × Option α
  | [], _ => ([], none)
  | x :: q, index =>
    if index < 0 then (x :: q, none)
    else if index = 0 then (q, some x)
    else (x :: (priqueueRemoveAt q (index - 1)).1, (priqueueRemoveAt q (index - 1)).2)

/-- `priqueue_poll`. -/
def priqueuePoll (q : List α) : List α × Option α := priqueueRemoveAt q 0

/-- `priqueue_remove`: the list left and the number of entries removed. -/
def priqueueRemove [DecidableEq α] (ptr : α) : List α → List α × ℤ
  | [] => ([], 0)
  | target :: q =>
    if target = ptr then ((priqueueRemove ptr q).1, (priqueueRemove ptr q).2 + 1)
    else (target :: (priqueueRemove ptr q).1, (priqueueRemove ptr q).2)

/-- `priqueue_size`. -/
def priqueueSize (q : List α) : ℤ := listSize q

@[simp] theorem poll_nil : priqueuePoll ([] : List α) = ([], none) := rfl

@[simp] theorem poll_cons (x : α) (q : List α) : priqueuePoll (x :: q) = (q, some x) := rfl

variable {comparer : α → α → ℤ}

theorem offerLoop_perm (ptr : α) : ∀ (q : List α) (i : ℤ),
    (offerLoop comparer ptr q i).1.Perm (ptr :: q)
  | [], i => List.Perm.refl _
  | target :: q, i => by
    unfold offerLoop
    split_ifs
    · exact List.Perm.refl _
    · exact ((offerLoop_perm ptr q (i + 1)).cons target).trans (List.Perm.swap _ _ _)

/-- **`priqueue_offer` adds one entry and loses none.** -/
theorem offer_perm (q : List α) (ptr : α) :
    (priqueueOffer comparer q ptr).1.Perm (ptr :: q) := offerLoop_perm ptr q 0

theorem offerLoop_pairwise {R : α → α → Prop} (htr : ∀ x y z, R x y → R y z → R x z) {ptr : α} :
    ∀ {q : List α} {i : ℤ}, (∀ y ∈ q, comparer ptr y < 0 → R ptr y) →
      (∀ y ∈ q, ¬ comparer ptr y < 0 → R y ptr) → q.Pairwise R →
        (offerLoop comparer ptr q i).1.Pairwise R
  | [], i, _, _, _ => List.pairwise_singleton _ _
  | y :: q, i, h, h', hq => by
    obtain ⟨hy, hq'⟩ := List.pairwise_cons.mp hq
    unfold offerLoop
    split_ifs with hlt
    · refine List.pairwise_cons.mpr ⟨fun z hz => ?_, hq⟩
      have hpy := h y (List.mem_cons_self ..) hlt
      rcases List.mem_cons.mp hz with rfl | hz
      · exact hpy
      · exact htr _ _ _ hpy (hy z hz)
    · refine List.pairwise_cons.mpr ⟨fun z hz => ?_, offerLoop_pairwise htr
        (fun z hz => h z (List.mem_cons_of_mem _ hz))
        (fun z hz => h' z (List.mem_cons_of_mem _ hz)) hq'⟩
      rcases List.mem_cons.mp ((offerLoop_perm ptr q _).mem_iff.mp hz) with rfl | hz
      · exact h' y (List.mem_cons_self ..) hlt
      · exact hy z hz

/-- **`priqueue_offer` keeps the list sorted.** -/
theorem offer_pairwise {R : α → α → Prop} (htr : ∀ x y z, R x y → R y z → R x z) {ptr : α}
    {q : List α} (h : ∀ y ∈ q, comparer ptr y < 0 → R ptr y)
    (h' : ∀ y ∈ q, ¬ comparer ptr y < 0 → R y ptr) (hq : q.Pairwise R) :
    (priqueueOffer comparer q ptr).1.Pairwise R := offerLoop_pairwise htr h h' hq

theorem offerLoop_last {ptr : α} : ∀ {q : List α} {i : ℤ}, (∀ y ∈ q, ¬ comparer ptr y < 0) →
    (offerLoop comparer ptr q i).1 = q ++ [ptr]
  | [], i, _ => rfl
  | y :: q, i, h => by
    rw [offerLoop, if_neg (h y (List.mem_cons_self ..)),
      offerLoop_last fun z hz => h z (List.mem_cons_of_mem _ hz)]
    rfl

/-- An item that goes before none is put at the end. -/
theorem offer_last {q : List α} {ptr : α} (h : ∀ y ∈ q, ¬ comparer ptr y < 0) :
    (priqueueOffer comparer q ptr).1 = q ++ [ptr] := offerLoop_last h

/-- An item that goes before all is put at the front. -/
theorem offer_first {q : List α} {ptr : α} (h : ∀ y ∈ q, comparer ptr y < 0) :
    (priqueueOffer comparer q ptr).1 = ptr :: q := by
  cases q with
  | nil => rfl
  | cons y q => rw [priqueueOffer, offerLoop, if_pos (h y (List.mem_cons_self ..))]

end Eecs678.Scheduler.Priqueue
