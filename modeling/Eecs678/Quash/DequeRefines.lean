import Eecs678.Lib.Ring
import Eecs678.Quash.DequeModel

/-!
# The queue is a sequence

`Rep` says that a queue represents a sequence: the cells hold it from `front` on, and `back` is the
first free cell. `step_rep` is one operation, `run_rep` a list of them; `sequence` is the run from a
new queue on, with what `as_array` gives at its end.
-/

namespace Eecs678.Quash.DequeRefines

open Eecs678.Lib.Ring Eecs678.Quash.DequeModel

variable {α : Type}

/-! ### The operations, and what they do to a sequence -/

inductive Op (α : Type)
  | pushFront (element : α)
  | pushBack (element : α)
  | popFront
  | popBack
  | peekFront
  | peekBack
  | updateFront (element : α)
  | updateBack (element : α)
  | empty
  | isEmpty
  | length
  | apply
deriving DecidableEq, Repr

inductive Reply (α : Type)
  | done
  | element (a : α)
  | flag (b : Bool)
  | count (n : ℕ)
  | visited (l : List α)
deriving DecidableEq, Repr

/-- One call on a queue. -/
def step (size : ℕ) (granted : Bool) : Op α → Deque α → Except Fault (Reply α × Deque α)
  | .pushFront a, d => (d.pushFront size granted a).map fun d => (.done, d)
  | .pushBack a, d => (d.pushBack size granted a).map fun d => (.done, d)
  | .popFront, d => d.popFront.map fun (a, d) => (.element a, d)
  | .popBack, d => d.popBack.map fun (a, d) => (.element a, d)
  | .peekFront, d => d.peekFront.map fun a => (.element a, d)
  | .peekBack, d => d.peekBack.map fun a => (.element a, d)
  | .updateFront a, d => (d.updateFront a).map fun d => (.done, d)
  | .updateBack a, d => (d.updateBack a).map fun d => (.done, d)
  | .empty, d => d.empty.map fun d => (.done, d)
  | .isEmpty, d => d.isEmpty.map fun b => (.flag b, d)
  | .length, d => d.length.map fun n => (.count n, d)
  | .apply, d => d.apply.map fun l => (.visited l, d)

/-- The same call on a sequence; `none` where it needs an element and there is none. -/
def seqStep : Op α → List α → Option (Reply α × List α)
  | .pushFront a, l => some (.done, a :: l)
  | .pushBack a, l => some (.done, l ++ [a])
  | .popFront, l => l.head?.map fun a => (.element a, l.tail)
  | .popBack, l => l.getLast?.map fun a => (.element a, l.dropLast)
  | .peekFront, l => l.head?.map fun a => (.element a, l)
  | .peekBack, l => l.getLast?.map fun a => (.element a, l)
  | .updateFront b, l => l.head?.map fun _ => (.done, b :: l.tail)
  | .updateBack b, l => l.getLast?.map fun _ => (.done, l.dropLast ++ [b])
  | .empty, _ => some (.done, [])
  | .isEmpty, l => some (.flag l.isEmpty, l)
  | .length, l => some (.count l.length, l)
  | .apply, l => some (.visited l, l)

/-- Calls one after the other, each with the answer of the allocator. -/
def run (size : ℕ) : List (Op α × Bool) → Deque α → Except Fault (List (Reply α) × Deque α)
  | [], d => .ok ([], d)
  | (op, granted) :: ops, d => do
    let (r, d) ← step size granted op d
    let (rs, d) ← run size ops d
    return (r :: rs, d)

def seqRun : List (Op α × Bool) → List α → Option (List (Reply α) × List α)
  | [], l => some ([], l)
  | (op, _) :: ops, l => do
    let (r, l) ← seqStep op l
    let (rs, l) ← seqRun ops l
    return (r :: rs, l)

/-! ### Allocations that succeed -/

/-- The block for `n` elements is granted, and its size is a `size_t`. -/
def Served (α : Type) (size : ℕ) (granted : Bool) (n : ℕ) : Prop :=
  n * size < 2 ^ 64 ∧ (alloc α size granted n).isSome

def Op.pushes : Op α → Bool
  | .pushFront _ => true
  | .pushBack _ => true
  | _ => false

/-- Each time the capacity is doubled on the way, the block is granted. -/
def AllServed (size : ℕ) : List (Op α × Bool) → Deque α → Prop
  | [], _ => True
  | (op, granted) :: ops, d =>
    (op.pushes → d.full → Served α size granted (2 * d.cap)) ∧
      match step size granted op d with
      | .ok (_, d) => AllServed size ops d
      | .error _ => True

instance (size : ℕ) (granted : Bool) (n : ℕ) : Decidable (Served α size granted n) :=
  inferInstanceAs (Decidable (_ ∧ _))

instance AllServed.decidable (size : ℕ) :
    ∀ (ops : List (Op α × Bool)) (d : Deque α), Decidable (AllServed size ops d)
  | [], _ => isTrue trivial
  | (op, granted) :: ops, d =>
    have rest : Decidable (match step size granted op d with
        | .ok (_, d) => AllServed size ops d
        | .error _ => True) :=
      match step size granted op d with
      | .ok (_, d) => AllServed.decidable size ops d
      | .error _ => isTrue trivial
    @instDecidableAnd _ _ _ rest

theorem sizeT_natCast {n : ℕ} (h : n < 2 ^ 64) : sizeT (n : ℤ) = n := by
  unfold sizeT
  omega

theorem Served.alloc_eq {size : ℕ} {granted : Bool} {n : ℕ} (hs : 0 < size)
    (h : Served α size granted n) :
    alloc α size granted n = some (List.replicate n none) ∧ n * size < 2 ^ 63 := by
  obtain ⟨hn, hg⟩ := h
  have hb : sizeT ((n : ℤ) * (size : ℤ)) = n * size := by exact_mod_cast sizeT_natCast hn
  unfold alloc at hg ⊢
  simp only [hb] at hg ⊢
  split at hg
  · next hc => exact ⟨by rw [if_pos hc, Nat.mul_div_cancel _ hs], hc.2⟩
  · next hc => simp at hg

/-! ### The representation -/

/-- **The queue represents the sequence.** -/
structure Rep (size : ℕ) (d : Deque α) (cells : List (Option α)) (l : List α) : Prop where
  data : d.data = some cells
  front_lt : d.front < d.cap
  back_eq : d.back = slot d.cap d.front l.length
  length_lt : l.length < d.cap
  holds : Holds cells d.cap d.front l
  -- a queue made with capacity 0 has no cell, but it is full
  room : d.cap = 1 ∨ cells.length = d.cap
  bytes : d.cap = 1 ∨ d.cap * size < 2 ^ 63

namespace Rep

variable {size : ℕ} {granted : Bool} {d : Deque α} {cells : List (Option α)} {l : List α}

theorem cap_pos (h : Rep size d cells l) : 0 < d.cap := Nat.zero_lt_of_lt h.front_lt

theorem back_lt (h : Rep size d cells l) : d.back < d.cap := h.back_eq ▸ slot_lt h.cap_pos

theorem cap_lt (h : Rep size d cells l) (hs : 0 < size) : d.cap < 2 ^ 63 := by
  rcases h.bytes with h1 | h1
  · omega
  · exact Nat.lt_of_le_of_lt (Nat.le_mul_of_pos_right _ hs) h1

theorem cells_eq (h : Rep size d cells l) : d.cells = .ok cells := by
  unfold Deque.cells
  rw [h.data]

/-! ### Indices -/

theorem after_eq (h : Rep size d cells l) (hs : 0 < size) {i : ℕ} (hi : i < d.cap) :
    d.after i = slot d.cap i 1 := by
  have hc := h.cap_lt hs
  unfold Deque.after slot
  rw [← sizeT_natCast (n := i + 1) (by omega)]
  rfl

theorem before_eq (h : Rep size d cells l) (hs : 0 < size) {i : ℕ} (hi : i < d.cap) :
    d.before i = slot d.cap i (d.cap - 1) := by
  have hc := h.cap_lt hs
  unfold Deque.before slot
  rw [← sizeT_natCast (n := i + (d.cap - 1)) (by omega)]
  congr 2
  omega

theorem after_back (h : Rep size d cells l) (hs : 0 < size) :
    d.after d.back = slot d.cap d.front (l.length + 1) := by
  rw [h.after_eq hs h.back_lt, h.back_eq, slot_slot]

theorem before_back (h : Rep size d cells l) (hs : 0 < size) (hl : 0 < l.length) :
    d.before d.back = slot d.cap d.front (l.length - 1) := by
  have hc := h.cap_pos
  rw [h.before_eq hs h.back_lt, h.back_eq, slot_slot,
    show l.length + (d.cap - 1) = d.cap + (l.length - 1) by omega, slot_add_cap]

/-- The test for a full queue finds the queues with one free cell. -/
theorem full_iff (h : Rep size d cells l) (hs : 0 < size) : d.full ↔ l.length + 1 = d.cap := by
  have hf := h.front_lt
  have hl := h.length_lt
  have hfull : d.full ↔ d.front = slot d.cap d.front (l.length + 1) := by
    rw [← h.after_back hs]
    rfl
  rw [hfull]
  constructor
  · intro he
    by_contra hne
    have := slot_inj hf (i := 0) (j := l.length + 1) (by omega) (by omega) (by rwa [slot_zero hf])
    omega
  · intro he
    rw [he, slot_eq hf le_rfl, if_neg (by omega)]
    omega

/-! ### What does not change the queue -/

theorem isEmpty_eq (h : Rep size d cells l) : d.isEmpty = .ok l.isEmpty := by
  have hf := h.front_lt
  have hl := h.length_lt
  unfold Deque.isEmpty
  rw [h.cells_eq]
  refine congrArg Except.ok ?_
  cases hc : l with
  | nil => simp only [h.back_eq, hc, List.length_nil, slot_zero hf, beq_self_eq_true, List.isEmpty_nil]
  | cons a t =>
    have hne : d.front ≠ d.back := fun he => by
      rw [h.back_eq, ← slot_zero hf, slot_slot] at he
      have := slot_inj hf (by omega) (by omega) he
      rw [hc, List.length_cons] at this
      omega
    exact beq_eq_false_iff_ne.mpr hne

theorem length_eq (h : Rep size d cells l) (hs : 0 < size) : d.length = .ok l.length := by
  have hc := h.cap_lt hs
  have hf := h.front_lt
  have hb := h.back_lt
  unfold Deque.length
  rw [h.cells_eq]
  refine congrArg Except.ok ?_
  have hn : sizeT (d.back - d.front + d.cap) = d.back + d.cap - d.front := by
    rw [← sizeT_natCast (n := d.back + d.cap - d.front) (by omega)]
    congr 1
    omega
  rw [hn, h.back_eq, sub_slot hf h.length_lt]

/-- An index that a loop computes. -/
theorem loop_index (h : Rep size d cells l) (hs : 0 < size) {i : ℕ} (hi : i < l.length) :
    sizeT (d.front + i) % d.cap = slot d.cap d.front i := by
  have hc := h.cap_lt hs
  have hf := h.front_lt
  have hl := h.length_lt
  unfold slot
  rw [← sizeT_natCast (n := d.front + i) (by omega)]
  rfl

theorem load_slot (h : Rep size d cells l) {i : ℕ} {a : α} (hi : l[i]? = some a) :
    load cells (slot d.cap d.front i) = .ok a := by
  unfold load
  rw [h.holds i a hi]

theorem applyLoop_eq (h : Rep size d cells l) (hs : 0 < size) : ∀ {n i : ℕ}, i + n = l.length →
    applyLoop cells d.front d.cap n i = .ok (l.drop i)
  | 0, i, hi => by
    unfold applyLoop
    rw [List.drop_eq_nil_of_le (by omega)]
  | n + 1, i, hi => by
    have hlt : i < l.length := by omega
    unfold applyLoop
    rw [h.loop_index hs hlt, h.load_slot (List.getElem?_eq_getElem hlt),
      List.drop_eq_getElem_cons hlt]
    simp only [bind, Except.bind]
    rw [h.applyLoop_eq hs (by omega)]
    rfl

/-- **`apply` visits the elements from front to back.** -/
theorem apply_eq (h : Rep size d cells l) (hs : 0 < size) : d.apply = .ok l := by
  unfold Deque.apply
  rw [h.cells_eq, h.length_eq hs]
  exact h.applyLoop_eq hs (Nat.zero_add _)

/-- The destructor gets every element once. -/
theorem destroy_eq (h : Rep size d cells l) (hs : 0 < size) :
    d.destroy = .ok (if d.destructor then l else [], d.cleared) := by
  unfold Deque.destroy
  rw [h.data]
  cases hd : d.destructor with
  | true =>
    simp only [if_true, h.apply_eq hs]
    rfl
  | false => rfl

/-- A copy loop writes the sequence to the first cells of the new block. -/
theorem copyLoop_spec (h : Rep size d cells l) (hs : 0 < size) : ∀ {n i : ℕ}
    {data : List (Option α)}, i + n = l.length → l.length ≤ data.length →
    (∀ (j : ℕ) (a : α), j < i → l[j]? = some a → data[j]? = some (some a)) →
    ∃ data', copyLoop cells d.front d.cap n i data = .ok data' ∧ data'.length = data.length ∧
      ∀ (j : ℕ) (a : α), l[j]? = some a → data'[j]? = some (some a)
  | 0, i, data, hi, hlen, hdone => ⟨data, rfl, rfl, fun j a hj => hdone j a (by
      obtain ⟨hjl, -⟩ := List.getElem?_eq_some_iff.mp hj
      omega) hj⟩
  | n + 1, i, data, hi, hlen, hdone => by
    have hlt : i < l.length := by omega
    have hai : l[i]? = some l[i] := List.getElem?_eq_getElem hlt
    have hstore : store data i l[i] = .ok (data.set i (some l[i])) := if_pos (by omega)
    unfold copyLoop
    simp only [h.loop_index hs hlt, h.load_slot hai, hstore, bind, Except.bind]
    have hnext : ∀ (j : ℕ) (a : α), j < i + 1 → l[j]? = some a →
        (data.set i (some l[i]))[j]? = some (some a) := by
      intro j a hj hja
      by_cases hij : i = j
      · subst hij
        rw [List.getElem?_set_self (by omega)]
        exact congrArg some (hai.symm.trans hja)
      · rw [List.getElem?_set_ne hij]
        exact hdone j a (by omega) hja
    have hni : i + 1 + n = l.length := by omega
    obtain ⟨data', h1, h2, h3⟩ := h.copyLoop_spec hs hni (by rwa [List.length_set]) hnext
    exact ⟨data', h1, by rw [h2, List.length_set], h3⟩

/-! ### Growth and realignment -/

/-- The queue after its elements are copied to the start of a larger block. -/
theorem of_copy (d : Deque α) {data : List (Option α)} {cap : ℕ} (hcap : l.length < cap)
    (hlen : data.length = cap) (hb : cap * size < 2 ^ 63)
    (hdata : ∀ (j : ℕ) (a : α), l[j]? = some a → data[j]? = some (some a)) :
    Rep size { d with data := some data, cap := cap, front := 0, back := l.length } data l where
  data := rfl
  front_lt := Nat.zero_lt_of_lt hcap
  back_eq := by
    unfold slot
    rw [Nat.zero_add, Nat.mod_eq_of_lt hcap]
  length_lt := hcap
  holds := Holds.of_prefix hcap.le hdata
  room := .inr hlen
  bytes := .inr hb

/-- **Before a write there is a cell for it**, and one that stays free. -/
theorem onPush_spec (h : Rep size d cells l) (hs : 0 < size)
    (hg : d.full → Served α size granted (2 * d.cap)) :
    ∃ d' cells', d.onPush size granted = .ok d' ∧ Rep size d' cells' l ∧ cells'.length = d'.cap ∧
      l.length + 1 < d'.cap := by
  have hl := h.length_lt
  have hc := h.cap_lt hs
  unfold Deque.onPush
  split
  · next hfull =>
    have he := (h.full_iff hs).mp hfull
    obtain ⟨halloc, hb⟩ := (hg hfull).alloc_eq hs
    have hcap : sizeT (2 * d.cap) = 2 * d.cap := by exact_mod_cast sizeT_natCast (by omega)
    have hlen : l.length ≤ (List.replicate (2 * d.cap) (none : Option α)).length := by
      rw [List.length_replicate]
      omega
    obtain ⟨data, h1, h2, h3⟩ := h.copyLoop_spec hs (Nat.zero_add _) hlen (fun j a hj => by omega)
    rw [List.length_replicate] at h2
    rw [h.cells_eq]
    simp only [bind, Except.bind, hcap, halloc]
    rw [show d.cap - 1 = l.length by omega, h1]
    exact ⟨_, _, rfl, of_copy d (by omega) h2 hb h3, h2, by simp only; omega⟩
  · next hfull =>
    have hne : l.length + 1 ≠ d.cap := fun he => hfull ((h.full_iff hs).mpr he)
    refine ⟨d, cells, rfl, h, ?_, by omega⟩
    rcases h.room with h1 | h1
    · omega
    · exact h1

theorem reallign_spec (h : Rep size d cells l) (hs : 0 < size)
    (hg : (alloc α size granted d.cap).isSome) :
    ∃ d' cells', d.reallign size granted = .ok d' ∧ Rep size d' cells' l ∧ d'.front = 0 ∧
      d'.cleared = d.cleared := by
  have hl := h.length_lt
  have hf := h.front_lt
  unfold Deque.reallign
  rw [h.cells_eq]
  simp only [bind, Except.bind]
  split
  · next hne =>
    have hb : d.cap * size < 2 ^ 63 := by
      rcases h.bytes with h1 | h1
      · omega
      · exact h1
    obtain ⟨halloc, -⟩ := Served.alloc_eq (α := α) hs ⟨by omega, hg⟩
    have hlen : l.length ≤ (List.replicate d.cap (none : Option α)).length := by
      rw [List.length_replicate]
      omega
    obtain ⟨data, h1, h2, h3⟩ := h.copyLoop_spec hs (Nat.zero_add _) hlen (fun j a hj => by omega)
    rw [List.length_replicate] at h2
    simp only [h.length_eq hs, halloc, h1]
    exact ⟨_, data, rfl, of_copy d (by omega) h2 hb h3, rfl, rfl⟩
  · next hz => exact ⟨d, cells, rfl, h, not_not.mp hz, rfl⟩

/-- **`as_array` gives the sequence and its length.** -/
theorem asArray_spec (h : Rep size d cells l) (hs : 0 < size)
    (hg : (alloc α size granted d.cap).isSome) :
    ∃ array, d.asArray size granted = .ok (array, l.length, d.cleared) ∧
      ∀ (j : ℕ) (a : α), l[j]? = some a → array[j]? = some (some a) := by
  obtain ⟨d', array, h1, h2, h3, h4⟩ := h.reallign_spec hs hg
  have hl := h2.length_lt
  unfold Deque.asArray
  rw [h.cells_eq, h1]
  simp only [bind, Except.bind]
  rw [h2.cells_eq, h2.length_eq hs, ← h4]
  refine ⟨array, rfl, fun j a hj => ?_⟩
  obtain ⟨hjl, -⟩ := List.getElem?_eq_some_iff.mp hj
  have := h2.holds j a hj
  rwa [h3, slot_eq h2.cap_pos (by omega), if_pos (by omega), Nat.zero_add] at this

/-! ### The two ends -/

theorem length_cells (h : Rep size d cells l) (hl : 0 < l.length) : cells.length = d.cap := by
  have := h.length_lt
  rcases h.room with h1 | h1
  · omega
  · exact h1

theorem pushFront_spec (h : Rep size d cells l) (hs : 0 < size) (a : α)
    (hg : d.full → Served α size granted (2 * d.cap)) :
    ∃ d' cells', d.pushFront size granted a = .ok d' ∧ Rep size d' cells' (a :: l) := by
  obtain ⟨d', cells', h1, h2, h3, h4⟩ := h.onPush_spec hs hg
  have hlt : slot d'.cap d'.front (d'.cap - 1) < d'.cap := slot_lt h2.cap_pos
  have hstore : store cells' (slot d'.cap d'.front (d'.cap - 1)) a =
      .ok (cells'.set (slot d'.cap d'.front (d'.cap - 1)) (some a)) := if_pos (by omega)
  unfold Deque.pushFront
  rw [h.cells_eq, h1]
  simp only [bind, Except.bind]
  simp only [h2.cells_eq, h2.before_eq hs h2.front_lt, hstore]
  refine ⟨_, _, rfl, rfl, hlt, ?_, ?_, ?_, ?_, h2.bytes⟩
  · rw [List.length_cons, slot_prev_succ h2.front_lt]
    exact h2.back_eq
  · rw [List.length_cons]
    exact h4
  · exact h2.holds.push_front a h2.front_lt h3 h4
  · exact .inr (by rw [List.length_set]; exact h3)

theorem pushBack_spec (h : Rep size d cells l) (hs : 0 < size) (a : α)
    (hg : d.full → Served α size granted (2 * d.cap)) :
    ∃ d' cells', d.pushBack size granted a = .ok d' ∧ Rep size d' cells' (l ++ [a]) := by
  obtain ⟨d', cells', h1, h2, h3, h4⟩ := h.onPush_spec hs hg
  have hlt := h2.back_lt
  have hstore : store cells' d'.back a = .ok (cells'.set d'.back (some a)) := if_pos (by omega)
  unfold Deque.pushBack
  rw [h.cells_eq, h1]
  simp only [bind, Except.bind]
  simp only [h2.cells_eq, hstore]
  refine ⟨_, _, rfl, rfl, h2.front_lt, ?_, ?_, ?_, ?_, h2.bytes⟩
  · rw [List.length_append, List.length_singleton]
    exact h2.after_back hs
  · rw [List.length_append, List.length_singleton]
    exact h4
  · rw [h2.back_eq]
    exact h2.holds.push_back a h2.front_lt h3 h2.length_lt
  · exact .inr (by rw [List.length_set]; exact h3)

/-- With an element in the queue, both guards pass. -/
theorem onPop_ok (h : Rep size d cells l) (hl : 0 < l.length) : d.onPop = .ok () := by
  unfold Deque.onPop
  rw [h.isEmpty_eq]
  cases l with
  | nil => exact absurd hl (lt_irrefl _)
  | cons a t => rfl

theorem assertNonempty_ok (h : Rep size d cells l) (hl : 0 < l.length) :
    d.assertNonempty = .ok () := by
  unfold Deque.assertNonempty
  rw [h.isEmpty_eq]
  cases l with
  | nil => exact absurd hl (lt_irrefl _)
  | cons a t => rfl

theorem load_front {a : α} (h : Rep size d cells (a :: l)) : load cells d.front = .ok a := by
  have := h.load_slot (i := 0) (a := a) rfl
  rwa [slot_zero h.front_lt] at this

/-- The cell of the last element. -/
theorem before_snoc {a : α} (h : Rep size d cells (l ++ [a])) (hs : 0 < size) :
    d.before d.back = slot d.cap d.front l.length := by
  have hlen : (l ++ [a]).length = l.length + 1 := List.length_append
  rw [h.before_back hs (by omega), hlen, Nat.add_sub_cancel]

theorem load_back {a : α} (h : Rep size d cells (l ++ [a])) (hs : 0 < size) :
    load cells (d.before d.back) = .ok a := by
  rw [h.before_snoc hs]
  exact h.load_slot List.getElem?_concat_length

theorem popFront_spec {a : α} (h : Rep size d cells (a :: l)) (hs : 0 < size) :
    ∃ d', d.popFront = .ok (a, d') ∧ Rep size d' cells l := by
  have hl := h.length_lt
  rw [List.length_cons] at hl
  unfold Deque.popFront
  rw [h.cells_eq, h.onPop_ok (Nat.zero_lt_succ _)]
  simp only [bind, Except.bind, h.load_front]
  refine ⟨_, rfl, h.data, ?_, ?_, ?_, ?_, h.room, h.bytes⟩
  · rw [h.after_eq hs h.front_lt]
    exact slot_lt h.cap_pos
  · rw [h.after_eq hs h.front_lt, slot_slot, Nat.add_comm]
    exact h.back_eq
  · simp only
    omega
  · rw [h.after_eq hs h.front_lt]
    exact h.holds.tail

theorem popBack_spec {a : α} (h : Rep size d cells (l ++ [a])) (hs : 0 < size) :
    ∃ d', d.popBack = .ok (a, d') ∧ Rep size d' cells l := by
  have hlen : (l ++ [a]).length = l.length + 1 := List.length_append
  have hl := h.length_lt
  unfold Deque.popBack
  rw [h.cells_eq, h.onPop_ok (by omega)]
  simp only [bind, Except.bind, h.load_back hs]
  refine ⟨_, rfl, h.data, h.front_lt, h.before_snoc hs, ?_, h.holds.dropLast, h.room, h.bytes⟩
  simp only
  omega

theorem peekFront_eq {a : α} (h : Rep size d cells (a :: l)) : d.peekFront = .ok a := by
  unfold Deque.peekFront
  rw [h.cells_eq, h.assertNonempty_ok (Nat.zero_lt_succ _)]
  exact h.load_front

theorem peekBack_eq {a : α} (h : Rep size d cells (l ++ [a])) (hs : 0 < size) :
    d.peekBack = .ok a := by
  have hlen : (l ++ [a]).length = l.length + 1 := List.length_append
  unfold Deque.peekBack
  rw [h.cells_eq, h.assertNonempty_ok (by omega)]
  exact h.load_back hs

/-- An element is overwritten in its place. -/
theorem of_set (h : Rep size d cells l) {n : ℕ} (hn : n < l.length) (b : α) :
    ∃ cells', store cells (slot d.cap d.front n) b = .ok cells' ∧
      Rep size { d with data := some cells' } cells' (l.set n b) := by
  have hc := h.length_cells (Nat.zero_lt_of_lt hn)
  have hlt : slot d.cap d.front n < d.cap := slot_lt h.cap_pos
  refine ⟨_, if_pos (by omega), rfl, h.front_lt, ?_, ?_, ?_, ?_, h.bytes⟩
  · rw [List.length_set]
    exact h.back_eq
  · rw [List.length_set]
    exact h.length_lt
  · exact h.holds.set b h.front_lt hc h.length_lt.le hn
  · exact .inr (by rw [List.length_set]; exact hc)

theorem updateFront_spec {a : α} (h : Rep size d cells (a :: l)) (b : α) :
    ∃ d' cells', d.updateFront b = .ok d' ∧ Rep size d' cells' (b :: l) := by
  obtain ⟨cells', h1, h2⟩ := h.of_set (n := 0) (Nat.zero_lt_succ _) b
  rw [slot_zero h.front_lt] at h1
  unfold Deque.updateFront
  rw [h.cells_eq, h.assertNonempty_ok (Nat.zero_lt_succ _)]
  simp only [bind, Except.bind, h1]
  exact ⟨_, cells', rfl, h2⟩

theorem updateBack_spec {a : α} (h : Rep size d cells (l ++ [a])) (hs : 0 < size) (b : α) :
    ∃ d' cells', d.updateBack b = .ok d' ∧ Rep size d' cells' (l ++ [b]) := by
  have hlen : (l ++ [a]).length = l.length + 1 := List.length_append
  obtain ⟨cells', h1, h2⟩ := h.of_set (n := l.length) (by omega) b
  rw [List.set_append_right _ _ le_rfl, Nat.sub_self, List.set_cons_zero] at h2
  rw [← h.before_snoc hs] at h1
  unfold Deque.updateBack
  rw [h.cells_eq, h.assertNonempty_ok (by omega)]
  simp only [bind, Except.bind, h1]
  exact ⟨_, cells', rfl, h2⟩

theorem empty_spec (h : Rep size d cells l) : ∃ d', d.empty = .ok d' ∧ Rep size d' cells [] := by
  have hc := h.cap_pos
  unfold Deque.empty
  rw [h.cells_eq]
  exact ⟨_, rfl, h.data, hc, (slot_zero hc).symm, hc, Holds.nil, h.room, h.bytes⟩

/-! ### Whole runs -/

/-- **One call**: the queue answers what the sequence answers. -/
theorem step_rep (h : Rep size d cells l) (hs : 0 < size) {op : Op α} {r : Reply α} {l' : List α}
    (hg : op.pushes → d.full → Served α size granted (2 * d.cap)) (hseq : seqStep op l = some (r, l')) :
    ∃ d' cells', step size granted op d = .ok (r, d') ∧ Rep size d' cells' l' := by
  cases op with
  | pushFront a =>
    obtain ⟨rfl, rfl⟩ := Prod.mk.inj (Option.some.inj hseq)
    obtain ⟨d', cells', h1, h2⟩ := h.pushFront_spec hs a (hg rfl)
    exact ⟨d', cells', congrArg (Except.map _) h1, h2⟩
  | pushBack a =>
    obtain ⟨rfl, rfl⟩ := Prod.mk.inj (Option.some.inj hseq)
    obtain ⟨d', cells', h1, h2⟩ := h.pushBack_spec hs a (hg rfl)
    exact ⟨d', cells', congrArg (Except.map _) h1, h2⟩
  | popFront =>
    obtain _ | ⟨a, t⟩ := l
    · cases hseq
    · obtain ⟨rfl, rfl⟩ := Prod.mk.inj (Option.some.inj hseq)
      obtain ⟨d', h1, h2⟩ := h.popFront_spec hs
      exact ⟨d', cells, congrArg (Except.map _) h1, h2⟩
  | peekFront =>
    obtain _ | ⟨a, t⟩ := l
    · cases hseq
    · obtain ⟨rfl, rfl⟩ := Prod.mk.inj (Option.some.inj hseq)
      exact ⟨d, cells, congrArg (Except.map _) h.peekFront_eq, h⟩
  | updateFront b =>
    obtain _ | ⟨a, t⟩ := l
    · cases hseq
    · obtain ⟨rfl, rfl⟩ := Prod.mk.inj (Option.some.inj hseq)
      obtain ⟨d', cells', h1, h2⟩ := h.updateFront_spec b
      exact ⟨d', cells', congrArg (Except.map _) h1, h2⟩
  | popBack =>
    obtain rfl | ⟨t, a, rfl⟩ := l.eq_nil_or_concat'
    · cases hseq
    · simp only [seqStep, List.getLast?_concat, List.dropLast_concat, Option.map_some] at hseq
      obtain ⟨rfl, rfl⟩ := Prod.mk.inj (Option.some.inj hseq)
      obtain ⟨d', h1, h2⟩ := h.popBack_spec hs
      exact ⟨d', cells, congrArg (Except.map _) h1, h2⟩
  | peekBack =>
    obtain rfl | ⟨t, a, rfl⟩ := l.eq_nil_or_concat'
    · cases hseq
    · simp only [seqStep, List.getLast?_concat, Option.map_some] at hseq
      obtain ⟨rfl, rfl⟩ := Prod.mk.inj (Option.some.inj hseq)
      exact ⟨d, cells, congrArg (Except.map _) (h.peekBack_eq hs), h⟩
  | updateBack b =>
    obtain rfl | ⟨t, a, rfl⟩ := l.eq_nil_or_concat'
    · cases hseq
    · simp only [seqStep, List.getLast?_concat, List.dropLast_concat, Option.map_some] at hseq
      obtain ⟨rfl, rfl⟩ := Prod.mk.inj (Option.some.inj hseq)
      obtain ⟨d', cells', h1, h2⟩ := h.updateBack_spec hs b
      exact ⟨d', cells', congrArg (Except.map _) h1, h2⟩
  | empty =>
    obtain ⟨rfl, rfl⟩ := Prod.mk.inj (Option.some.inj hseq)
    obtain ⟨d', h1, h2⟩ := h.empty_spec
    exact ⟨d', cells, congrArg (Except.map _) h1, h2⟩
  | isEmpty =>
    obtain ⟨rfl, rfl⟩ := Prod.mk.inj (Option.some.inj hseq)
    exact ⟨d, cells, congrArg (Except.map _) h.isEmpty_eq, h⟩
  | length =>
    obtain ⟨rfl, rfl⟩ := Prod.mk.inj (Option.some.inj hseq)
    exact ⟨d, cells, congrArg (Except.map _) (h.length_eq hs), h⟩
  | apply =>
    obtain ⟨rfl, rfl⟩ := Prod.mk.inj (Option.some.inj hseq)
    exact ⟨d, cells, congrArg (Except.map _) (h.apply_eq hs), h⟩

/-- A call that needs an element of an empty queue ends the process, and none reads a cell. -/
theorem step_refused (h : Rep size d cells l) {op : Op α} (hseq : seqStep op l = none) :
    step size granted op d = .error .emptyPop ∨ step size granted op d = .error .assertion := by
  obtain _ | ⟨a, t⟩ := l
  · have hpop : d.onPop = .error .emptyPop := by
      unfold Deque.onPop
      rw [h.isEmpty_eq]
      rfl
    have hassert : d.assertNonempty = .error .assertion := by
      unfold Deque.assertNonempty
      rw [h.isEmpty_eq]
      rfl
    cases op <;> cases hseq <;>
      simp only [step, Deque.popFront, Deque.popBack, Deque.peekFront, Deque.peekBack,
        Deque.updateFront, Deque.updateBack, h.cells_eq, hpop, hassert, bind, Except.bind, Except.map,
        true_or, or_true]
  · obtain ⟨b, hb⟩ : ∃ b, (a :: t).getLast? = some b := ⟨_, List.getLast?_eq_some_getLast (by simp)⟩
    cases op <;> simp [seqStep, hb] at hseq

/-- **A run**, from any queue that represents a sequence. -/
theorem run_rep (hs : 0 < size) : ∀ {ops : List (Op α × Bool)} {d : Deque α}
    {cells : List (Option α)} {l l' : List α} {rs : List (Reply α)}, Rep size d cells l →
    AllServed size ops d → seqRun ops l = some (rs, l') →
    ∃ d' cells', run size ops d = .ok (rs, d') ∧ Rep size d' cells' l'
  | [], d, cells, l, l', rs, h, _, hseq => by
    obtain ⟨rfl, rfl⟩ := Prod.mk.inj (Option.some.inj hseq)
    exact ⟨d, cells, rfl, h⟩
  | (op, granted) :: ops, d, cells, l, l', rs, h, hg, hseq => by
    obtain ⟨⟨r, l₁⟩, hstep, hrest⟩ := Option.bind_eq_some_iff.mp hseq
    obtain ⟨⟨rs', l₂⟩, hrun, hret⟩ := Option.bind_eq_some_iff.mp hrest
    obtain ⟨rfl, rfl⟩ := Prod.mk.inj (Option.some.inj hret)
    obtain ⟨d₁, cells₁, h1, h2⟩ := h.step_rep hs hg.1 hstep
    have hg' := hg.2
    rw [h1] at hg'
    obtain ⟨d', cells', h3, h4⟩ := run_rep hs h2 hg' hrun
    refine ⟨d', cells', ?_, h4⟩
    unfold run
    rw [h1]
    simp only [bind, Except.bind, h3]
    rfl

end Rep

/-- A new queue represents the empty sequence, with a destructor or without. -/
theorem newDeque_rep {size initCap : ℕ} {granted : Bool} {d : Deque α} (hs : 0 < size)
    (hb : initCap * size < 2 ^ 64) (h : newDeque α size granted initCap = .ok d ∨
      newDestructable α size granted initCap = .ok d) : ∃ cells, Rep size d cells [] := by
  have hgranted : (alloc α size granted initCap).isSome := by
    rcases h with h | h <;> cases ha : alloc α size granted initCap with
    | none => simp [newDestructable, newDeque, ha, bind, Except.bind] at h
    | some cells => rfl
  obtain ⟨ha, hb'⟩ := Served.alloc_eq hs ⟨hb, hgranted⟩
  have hnew : newDeque α size granted initCap =
      .ok ⟨some (List.replicate initCap none), if 0 < initCap then initCap else 1, 0, 0, false⟩ := by
    unfold newDeque
    rw [ha]
  have hrep : ∀ b, Rep size
      ⟨some (List.replicate initCap (none : Option α)), if 0 < initCap then initCap else 1, 0, 0, b⟩
      (List.replicate initCap none) [] := by
    intro b
    have hcap : 0 < if 0 < initCap then initCap else 1 := by split <;> omega
    refine ⟨rfl, hcap, (slot_zero hcap).symm, hcap, Holds.nil, ?_, ?_⟩ <;> by_cases h0 : 0 < initCap
    · exact .inr (by simp only [List.length_replicate, if_pos h0])
    · exact .inl (if_neg h0)
    · exact .inr (by simp only [if_pos h0]; exact hb')
    · exact .inl (if_neg h0)
  rcases h with h | h
  · rw [hnew] at h
    exact ⟨_, Except.ok.inj h ▸ hrep false⟩
  · unfold newDestructable at h
    rw [hnew] at h
    exact ⟨_, Except.ok.inj h ▸ hrep true⟩

/-- **The queue is a sequence.** For every capacity it is made with and every list of calls that take
nothing from an empty sequence, the replies are those of the sequence; then `front`, `back` and the
number of elements are below `cap`, and `as_array` gives the elements and their number. -/
theorem sequence {size initCap : ℕ} {granted : Bool} {d₀ : Deque α} (hs : 0 < size)
    (hb : initCap * size < 2 ^ 64) (hnew : newDeque α size granted initCap = .ok d₀ ∨
      newDestructable α size granted initCap = .ok d₀) {ops : List (Op α × Bool)}
    {rs : List (Reply α)} {l : List α} (hg : AllServed size ops d₀) (hseq : seqRun ops [] = some (rs, l)) :
    ∃ d, run size ops d₀ = .ok (rs, d) ∧ d.front < d.cap ∧ d.back < d.cap ∧ l.length < d.cap ∧
      d.length = .ok l.length ∧ d.isEmpty = .ok l.isEmpty ∧ d.apply = .ok l ∧
      ∀ g, (alloc α size g d.cap).isSome → ∃ array,
        d.asArray size g = .ok (array, l.length, d.cleared) ∧ array.take l.length = l.map some := by
  obtain ⟨cells₀, h₀⟩ := newDeque_rep hs hb hnew
  obtain ⟨d, cells, h1, h2⟩ := h₀.run_rep hs hg hseq
  refine ⟨d, h1, h2.front_lt, h2.back_lt, h2.length_lt, h2.length_eq hs, h2.isEmpty_eq,
    h2.apply_eq hs, fun g hg => ?_⟩
  obtain ⟨array, h3, h4⟩ := h2.asArray_spec hs hg
  exact ⟨array, h3, take_eq_map h4⟩

/-- A queue of capacity 0 that grows twice and is read at both ends. -/
theorem sequence_two : ∃ d : Deque ℕ, run 8 [(.pushBack 5, true), (.pushFront 7, true), (.popBack, false),
      (.peekFront, false)] ⟨some [], 1, 0, 0, false⟩ =
        .ok ([.done, .done, .element 5, .element 7], d) ∧ d.front < d.cap ∧ d.back < d.cap ∧
      d.length = .ok 1 := by
  have hnew : newDeque ℕ 8 true 0 = .ok ⟨some [], 1, 0, 0, false⟩ := by decide
  have hserved : AllServed 8 [(.pushBack 5, true), (.pushFront 7, true), (.popBack, false),
      (.peekFront, false)] (⟨some [], 1, 0, 0, false⟩ : Deque ℕ) := by decide
  have hseq : seqRun [(.pushBack 5, true), (.pushFront 7, true), (.popBack, false),
      (.peekFront, false)] [] = some ([.done, .done, .element 5, .element 7], [7]) := by decide
  obtain ⟨d, h1, h2, h3, -, h4, -⟩ := sequence (by decide) (by decide) (.inl hnew) hserved hseq
  exact ⟨d, h1, h2, h3, h4⟩

end Eecs678.Quash.DequeRefines
