import Eecs678.Lib.LinkedList
import Mathlib.Algebra.Order.Ring.Int

/-!
# The priority queue in memory

`libpriqueue.c` with its nodes and pointers. `new` is the address that `malloc` returns. A loop or a
recursion along the list is a recursion on the number of rounds it can still make; the result is `none`
when these run out, and when a pointer that is no node is read.
-/

namespace Eecs678.Scheduler.Nodes

open Eecs678.Lib.LinkedList

variable {α : Type}

/-- `priqueue_t`, and the memory of the nodes; the comparer is an argument where it is used. -/
structure PriqueueT (α : Type) where
  top : Option ℕ
  mem : Mem ℕ α

/-- `priqueue_init`, with the memory as it is then. -/
def priqueueInit (mem : Mem ℕ α) : PriqueueT α := ⟨none, mem⟩

/-- `node_at`. -/
def nodeAt (mem : Mem ℕ α) : ℕ → Option ℕ → ℤ → Option (Option ℕ)
  | 0, _, _ => none
  | _ + 1, none, _ => some none
  | n + 1, some node, index =>
    if index < 0 then some none
    else if index = 0 then some (some node)
    else do
      let x ← mem node
      nodeAt mem n x.next (index - 1)

/-- `list_size`. -/
def listSize (mem : Mem ℕ α) : ℕ → Option ℕ → Option ℤ
  | 0, _ => none
  | _ + 1, none => some 0
  | n + 1, some node => do
    let x ← mem node
    let size ← listSize mem n x.next
    return 1 + size

/-- The loop of `priqueue_offer` and what comes after it. -/
def offerLoop (comparer : α → α → ℤ) (new : ℕ) (ptr : α) (q : PriqueueT α) :
    ℕ → ℤ → Option ℕ → Option ℕ → Option (ℤ × PriqueueT α)
  | 0, _, _, _ => none
  | _ + 1, i, prev, none => do
    let mem := newNode new ptr none q.mem
    let prev ← prev
    return (i, { q with mem := setNext prev (some new) mem })
  | n + 1, i, prev, some target => do
    let x ← q.mem target
    if comparer ptr x.item < 0 then
      let mem := newNode new ptr (some target) q.mem
      if i = 0 then return (i, ⟨some new, mem⟩)
      else do
        let prev ← prev
        return (i, { q with mem := setNext prev (some new) mem })
    else offerLoop comparer new ptr q n (i + 1) (some target) x.next

/-- `priqueue_offer`. -/
def priqueueOffer (comparer : α → α → ℤ) (n new : ℕ) (ptr : α) (q : PriqueueT α) :
    Option (ℤ × PriqueueT α) :=
  match q.top with
  | none => some (0, ⟨some new, newNode new ptr none q.mem⟩)
  | some top => offerLoop comparer new ptr q n 0 none (some top)

/-- `priqueue_at`. -/
def priqueueAt (n : ℕ) (q : PriqueueT α) (index : ℤ) : Option (Option α) := do
  let node ← match q.top with
    | none => some none
    | some top => nodeAt q.mem n (some top) index
  match node with
  | none => some none
  | some node => do
    let x ← q.mem node
    return some x.item

/-- `priqueue_peek`. -/
def priqueuePeek (n : ℕ) (q : PriqueueT α) : Option (Option α) := priqueueAt n q 0

/-- `destroy_node`: its item. -/
def destroyNode (node : ℕ) (q : PriqueueT α) : Option (α × PriqueueT α) := do
  let x ← q.mem node
  return (x.item, { q with mem := free node q.mem })

/-- `priqueue_remove_at`. -/
def priqueueRemoveAt (n : ℕ) (q : PriqueueT α) (index : ℤ) : Option (Option α × PriqueueT α) :=
  match q.top with
  | none => some (none, q)
  | some top =>
    if index < 0 then some (none, q)
    else if index = 0 then do
      let x ← q.mem top
      let (item, q) ← destroyNode top { q with top := x.next }
      return (some item, q)
    else do
      let prev ← nodeAt q.mem n (some top) (index - 1)
      match prev with
      | none => some (none, q)
      | some prev => do
        let x ← q.mem prev
        match x.next with
        | none => some (none, q)
        | some remove => do
          let y ← q.mem remove
          let (item, q) ← destroyNode remove { q with mem := setNext prev y.next q.mem }
          return (some item, q)

/-- `priqueue_poll`. -/
def priqueuePoll (n : ℕ) (q : PriqueueT α) : Option (Option α × PriqueueT α) := priqueueRemoveAt n q 0

/-- The loop of `priqueue_remove`. -/
def removeLoop [DecidableEq α] (ptr : α) :
    ℕ → ℤ → Option ℕ → Option ℕ → PriqueueT α → Option (ℤ × PriqueueT α)
  | 0, _, _, _, _ => none
  | _ + 1, removed, _, none, q => some (removed, q)
  | n + 1, removed, prev, some target, q => do
    let x ← q.mem target
    if x.item = ptr then
      let q := if some target = q.top then { q with top := x.next } else q
      let q := match prev with
        | some prev => { q with mem := setNext prev x.next q.mem }
        | none => q
      let (_, q) ← destroyNode target q
      removeLoop ptr n (removed + 1) prev x.next q
    else removeLoop ptr n removed (some target) x.next q

/-- `priqueue_remove`. -/
def priqueueRemove [DecidableEq α] (n : ℕ) (ptr : α) (q : PriqueueT α) : Option (ℤ × PriqueueT α) :=
  removeLoop ptr n 0 none q.top q

/-- `priqueue_size`. -/
def priqueueSize (n : ℕ) (q : PriqueueT α) : Option ℤ := listSize q.mem n q.top

/-! ### Calls -/

/-- A call of one of the functions. -/
inductive Op (α : Type)
  | offer (ptr : α)
  | poll
  | peek
  | at (index : ℤ)
  | removeAt (index : ℤ)
  | remove (ptr : α)
  | size
deriving DecidableEq, Repr

/-- What a call returns. -/
inductive Reply (α : Type)
  | int (i : ℤ)
  | ptr (x : Option α)
deriving DecidableEq, Repr

/-- One call, in which `malloc` returns `new`. -/
def call [DecidableEq α] (comparer : α → α → ℤ) (n new : ℕ) (op : Op α) (q : PriqueueT α) :
    Option (Reply α × PriqueueT α) :=
  match op with
  | .offer ptr => (priqueueOffer comparer n new ptr q).map fun r => (.int r.1, r.2)
  | .poll => (priqueuePoll n q).map fun r => (.ptr r.1, r.2)
  | .peek => (priqueuePeek n q).map fun r => (.ptr r, q)
  | .at index => (priqueueAt n q index).map fun r => (.ptr r, q)
  | .removeAt index => (priqueueRemoveAt n q index).map fun r => (.ptr r.1, r.2)
  | .remove ptr => (priqueueRemove n ptr q).map fun r => (.int r.1, r.2)
  | .size => (priqueueSize n q).map fun r => (.int r, q)

end Eecs678.Scheduler.Nodes
