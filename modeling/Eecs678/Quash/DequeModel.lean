import Mathlib.Algebra.Order.Ring.Int
import Mathlib.Algebra.Order.Ring.Nat

/-!
# The double-ended queue

`project1/quash/src/deque.h`. `IMPLEMENT_DEQUE` and `IMPLEMENT_DEQUE_MEMORY_POOL` generate the same
functions up to where the memory comes from, whether it is given back, and how the process ends when
there is none, so there is one definition for both. `size` is `sizeof(type)`, `granted` the answer of
the allocator to the request the call may make.

An allocated block is a list of cells, `none` where nothing has been written yet; `NULL` is `none`.
Numbers of type `size_t` are natural numbers, reduced by `sizeT` where they are computed. A step that
ends the process or that the C code has no defined result for is a `Fault`.
-/

namespace Eecs678.Quash.DequeModel

inductive Fault
  /-- `"ERROR: Failed to allocate struct_name contents"`, then `exit(-1)` or `abort()`. -/
  | noMemory
  /-- `"ERROR: Cannot pop from of struct_name while it is empty"`, then `abort()`. -/
  | emptyPop
  /-- A failed `assert`. -/
  | assertion
  /-- An index outside the block. -/
  | bounds
  /-- A cell that is read before it is written. -/
  | uninitialised
deriving DecidableEq, Repr

/-- The generated `struct_name`; of `destructor` whether there is one. -/
structure Deque (α : Type) where
  data : Option (List (Option α))
  cap : ℕ
  front : ℕ
  back : ℕ
  destructor : Bool
deriving DecidableEq, Repr

/-! ### Numbers and memory -/

/-- A computed `size_t`. -/
def sizeT (x : ℤ) : ℕ := (x % 2 ^ 64).toNat

/-- `malloc(n * sizeof(type))` and `memory_pool_alloc(n * sizeof(type))`: no block has more than
`PTRDIFF_MAX` bytes. -/
def alloc (α : Type) (size : ℕ) (granted : Bool) (n : ℕ) : Option (List (Option α)) :=
  let bytes := sizeT (n * size)
  if granted ∧ bytes < 2 ^ 63 then some (List.replicate (bytes / size) none) else none

variable {α : Type}

/-- `data[i]`, read. -/
def load (cells : List (Option α)) (i : ℕ) : Except Fault α :=
  match cells[i]? with
  | none => .error .bounds
  | some none => .error .uninitialised
  | some (some a) => .ok a

/-- `data[i] = a`. -/
def store (cells : List (Option α)) (i : ℕ) (a : α) : Except Fault (List (Option α)) :=
  if i < cells.length then .ok (cells.set i (some a)) else .error .bounds

/-- `for (i = 0; i < n; ++i) data[i] = old_data[(front + i) % cap]`, with `n` rounds left. -/
def copyLoop (old : List (Option α)) (front cap : ℕ) :
    ℕ → ℕ → List (Option α) → Except Fault (List (Option α))
  | 0, _, data => .ok data
  | n + 1, i, data => do
    let a ← load old (sizeT (front + i) % cap)
    let data ← store data i a
    copyLoop old front cap n (i + 1) data

/-- The arguments `func` is called with in `for (i = 0; i < n; ++i) func(data[(front + i) % cap])`. -/
def applyLoop (cells : List (Option α)) (front cap : ℕ) : ℕ → ℕ → Except Fault (List α)
  | 0, _ => .ok []
  | n + 1, i => do
    let a ← load cells (sizeT (front + i) % cap)
    let as ← applyLoop cells front cap n (i + 1)
    return a :: as

/-! ### Making and clearing -/

/-- `new_struct_name`. -/
def newDeque (α : Type) (size : ℕ) (granted : Bool) (initCap : ℕ) : Except Fault (Deque α) :=
  match alloc α size granted initCap with
  | none => .error .noMemory
  | some cells => .ok ⟨some cells, if 0 < initCap then initCap else 1, 0, 0, false⟩

/-- `new_destructable_struct_name`, with a destructor that is not `NULL`. -/
def newDestructable (α : Type) (size : ℕ) (granted : Bool) (initCap : ℕ) :
    Except Fault (Deque α) := do
  let ret ← newDeque α size granted initCap
  return { ret with destructor := true }

namespace Deque

/-- `assert(deq->data != NULL)`. -/
def cells (d : Deque α) : Except Fault (List (Option α)) :=
  match d.data with
  | none => .error .assertion
  | some cells => .ok cells

/-- The structure without its contents, as `destroy` and `as_array` leave it. -/
def cleared (d : Deque α) : Deque α := { d with data := none, cap := 0, front := 0, back := 0 }

/-- `empty_struct_name`. -/
def empty (d : Deque α) : Except Fault (Deque α) := do
  let _ ← d.cells
  return { d with front := 0, back := 0 }

/-- `is_empty_struct_name`. -/
def isEmpty (d : Deque α) : Except Fault Bool := do
  let _ ← d.cells
  return d.front == d.back

/-- `length_struct_name`. -/
def length (d : Deque α) : Except Fault ℕ := do
  let _ ← d.cells
  return sizeT (d.back - d.front + d.cap) % d.cap

/-- `apply_struct_name`: the elements the function is called with, in order. -/
def apply (d : Deque α) : Except Fault (List α) := do
  let cells ← d.cells
  let len ← d.length
  applyLoop cells d.front d.cap len 0

/-- `destroy_struct_name`, with the elements the destructor is called with. -/
def destroy (d : Deque α) : Except Fault (List α × Deque α) :=
  match d.data with
  | none => .ok ([], d)
  | some _ => do
    let visited ← if d.destructor then d.apply else pure []
    return (visited, d.cleared)

/-- `__reallign_struct_name`. -/
def reallign (size : ℕ) (granted : Bool) (d : Deque α) : Except Fault (Deque α) := do
  let oldData ← d.cells
  if d.front ≠ 0 then
    let len ← d.length
    match alloc α size granted d.cap with
    | none => .error .noMemory
    | some data => do
      let data ← copyLoop oldData d.front d.cap len 0 data
      return { d with data := some data, front := 0, back := len }
  else return d

/-- `as_array_struct_name`: the array, `*len`, and the structure left behind. -/
def asArray (size : ℕ) (granted : Bool) (d : Deque α) :
    Except Fault (List (Option α) × ℕ × Deque α) := do
  let _ ← d.cells
  let d ← d.reallign size granted
  let ret ← d.cells
  let len ← d.length
  return (ret, len, d.cleared)

/-! ### Both ends -/

/-- The test of `__on_push_struct_name`: one cell is always kept free. -/
def full (d : Deque α) : Prop := d.front = sizeT (d.back + 1) % d.cap

instance (d : Deque α) : Decidable d.full := inferInstanceAs (Decidable (_ = _))

/-- `__on_push_struct_name`. -/
def onPush (size : ℕ) (granted : Bool) (d : Deque α) : Except Fault (Deque α) :=
  if d.full then do
    let oldData ← d.cells
    let cap := sizeT (2 * d.cap)
    match alloc α size granted cap with
    | none => .error .noMemory
    | some data => do
      let data ← copyLoop oldData d.front d.cap (d.cap - 1) 0 data
      return { d with data := some data, cap := cap, front := 0, back := d.cap - 1 }
  else .ok d

/-- `__on_pop_struct_name`. -/
def onPop (d : Deque α) : Except Fault Unit := do
  if ← d.isEmpty then .error .emptyPop else .ok ()

/-- `assert(!is_empty_struct_name(deq))`. -/
def assertNonempty (d : Deque α) : Except Fault Unit := do
  if ← d.isEmpty then .error .assertion else .ok ()

/-- `(deq->front + deq->cap - 1) % deq->cap` and the same of `back`. -/
def before (d : Deque α) (i : ℕ) : ℕ := sizeT (i + d.cap - 1) % d.cap

/-- `(deq->back + 1) % deq->cap` and the same of `front`. -/
def after (d : Deque α) (i : ℕ) : ℕ := sizeT (i + 1) % d.cap

/-- `push_front_struct_name`. -/
def pushFront (size : ℕ) (granted : Bool) (element : α) (d : Deque α) : Except Fault (Deque α) := do
  let _ ← d.cells
  let d ← d.onPush size granted
  let data ← store (← d.cells) (d.before d.front) element
  return { d with data := some data, front := d.before d.front }

/-- `push_back_struct_name`. -/
def pushBack (size : ℕ) (granted : Bool) (element : α) (d : Deque α) : Except Fault (Deque α) := do
  let _ ← d.cells
  let d ← d.onPush size granted
  let data ← store (← d.cells) d.back element
  return { d with data := some data, back := d.after d.back }

/-- `pop_front_struct_name`. -/
def popFront (d : Deque α) : Except Fault (α × Deque α) := do
  let data ← d.cells
  d.onPop
  let a ← load data d.front
  return (a, { d with front := d.after d.front })

/-- `pop_back_struct_name`. -/
def popBack (d : Deque α) : Except Fault (α × Deque α) := do
  let data ← d.cells
  d.onPop
  let a ← load data (d.before d.back)
  return (a, { d with back := d.before d.back })

/-- `peek_front_struct_name`. -/
def peekFront (d : Deque α) : Except Fault α := do
  let data ← d.cells
  d.assertNonempty
  load data d.front

/-- `peek_back_struct_name`. -/
def peekBack (d : Deque α) : Except Fault α := do
  let data ← d.cells
  d.assertNonempty
  load data (d.before d.back)

/-- `update_front_struct_name`. -/
def updateFront (element : α) (d : Deque α) : Except Fault (Deque α) := do
  let data ← d.cells
  d.assertNonempty
  let data ← store data d.front element
  return { d with data := some data }

/-- `update_back_struct_name`. -/
def updateBack (element : α) (d : Deque α) : Except Fault (Deque α) := do
  let data ← d.cells
  d.assertNonempty
  let data ← store data (d.before d.back) element
  return { d with data := some data }

end Deque

end Eecs678.Quash.DequeModel
