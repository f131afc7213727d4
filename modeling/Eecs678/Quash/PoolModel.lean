import Eecs678.Lib.Spans
import Eecs678.Quash.DequeModel

/-!
# The memory pool

`project1/quash/src/parsing/memory_pool.c`. A pointer is its address, `NULL` is 0. `Memory` is what
`malloc` does: `answers` has the address that each call for a pool gets, and `granted` whether the deque
gets the block it asks for. An answer that `malloc` cannot give, because the block would meet an earlier
one or end beyond the addresses, stands for a failure as `NULL` does.

The loops are recursions on a number of rounds, and `Halt.rounds` is a loop that needs more.
-/

namespace Eecs678.Quash.PoolModel

open Eecs678.Lib.Spans Eecs678.Quash.DequeModel

/-- `MemoryPool`. -/
structure MemoryPool where
  pool : ℕ
  size : ℕ
  next : ℕ
deriving DecidableEq, Repr

/-- `sizeof(MemoryPool)`. -/
def poolBytes : ℕ := 24

inductive Halt
  /-- `"ERROR: Unable to allocate more memory to the memory pool.\n"`, then `exit(-1)`. -/
  | exit
  /-- A failed `assert` of `memory_pool_alloc`. -/
  | assertion
  /-- `2 << n` does not fit in an `int`. -/
  | shift
  /-- A loop goes on for more rounds than it is given. -/
  | rounds
  | deque (fault : Fault)
deriving DecidableEq, Repr

/-- What `malloc` does at its calls for pools and for the deque. -/
structure Memory where
  answers : ℕ → ℕ
  granted : ℕ → Bool

/-- `pool_deq`, the blocks allocated for pools, and the numbers of calls made. -/
structure Pools where
  poolDeq : Deque MemoryPool
  blocks : List Span
  calls : ℕ
  pushes : ℕ
deriving DecidableEq, Repr

/-- A block that `malloc` can give: not `NULL`, with its end among the addresses, apart from all others. -/
def Fresh (b : Span) (blocks : List Span) : Prop :=
  0 < b.base ∧ b.stop < 2 ^ 64 ∧ ∀ b' ∈ blocks, Apart b b'

instance (b : Span) (blocks : List Span) : Decidable (Fresh b blocks) :=
  inferInstanceAs (Decidable (_ ∧ _ ∧ _))

variable (mem : Memory)

/-- `malloc(size)`. -/
def malloc (size : ℕ) (s : Pools) : ℕ × Pools :=
  let b : Span := ⟨mem.answers s.calls, size⟩
  if Fresh b s.blocks then (b.base, { s with calls := s.calls + 1, blocks := b :: s.blocks })
  else (0, { s with calls := s.calls + 1 })

/-- `__initialize_memory_pool`. -/
def initializePool (size : ℕ) (s : Pools) : MemoryPool × Pools :=
  if size = 0 then (⟨0, 0, 0⟩, s)
  else
    let (base, s) := malloc mem size s
    if base = 0 then (⟨0, 0, 0⟩, s) else (⟨base, size, base⟩, s)

/-- The loop of `__low_memory_initialize_memory_pool`. -/
def lowMemoryLoop (requiredSize : ℕ) : ℕ → ℕ → Pools → Except Halt (MemoryPool × Pools)
  | 0, _, _ => .error .rounds
  | n + 1, failedRequestedSize, s =>
    if failedRequestedSize ≤ requiredSize then .error .exit
    else
      let half := failedRequestedSize / 2
      let request := if half < requiredSize then requiredSize else half
      let (ret, s) := initializePool mem request s
      if ret.pool ≠ 0 then .ok (ret, s) else lowMemoryLoop requiredSize n request s

/-- `__low_memory_initialize_memory_pool`. -/
def lowMemoryInitializePool (requiredSize failedRequestedSize : ℕ) (s : Pools) :
    Except Halt (MemoryPool × Pools) :=
  lowMemoryLoop mem requiredSize 65 failedRequestedSize s

/-- A pool of the size, or a smaller one when memory runs low. -/
def obtainPool (requiredSize size : ℕ) (s : Pools) : Except Halt (MemoryPool × Pools) :=
  let (pool, s) := initializePool mem size s
  if pool.pool = 0 then lowMemoryInitializePool mem requiredSize size s else .ok (pool, s)

/-- The result of a function of the deque. -/
def lift {β : Type} : Except Fault β → Except Halt β
  | .ok b => .ok b
  | .error e => .error (.deque e)

/-- `push_back_MemoryPoolDeque(&pool_deq, pool)`. -/
def pushPool (pool : MemoryPool) (s : Pools) : Except Halt Pools := do
  let d ← lift (s.poolDeq.pushBack poolBytes (mem.granted s.pushes) pool)
  return { s with poolDeq := d, pushes := s.pushes + 1 }

/-- `initialize_memory_pool`, at the start of the program. -/
def initializeMemoryPool (size : ℕ) : Except Halt Pools := do
  let size := if size = 0 then 1 else size
  let d ← lift (newDestructable MemoryPool poolBytes (mem.granted 0) 10)
  let (pool, s) ← obtainPool mem 1 size ⟨d, [], 0, 1⟩
  pushPool mem pool s

/-- `2 << n`. -/
def twoShifted (n : ℕ) : Except Halt ℕ := if n < 30 then .ok (2 * 2 ^ n) else .error .shift

/-- The pool that a round of the loop of `memory_pool_alloc` makes. -/
def nextPool (size newPoolSize : ℕ) (s : Pools) : Except Halt (MemoryPool × Pools) :=
  if newPoolSize < size then .ok (initializePool mem 0 s) else obtainPool mem size newPoolSize s

/-- The loop of `memory_pool_alloc`. -/
def allocLoop (size initSize : ℕ) : ℕ → MemoryPool → Pools → Except Halt (MemoryPool × Pools)
  | 0, _, _ => .error .rounds
  | n + 1, pool, s =>
    if pool.size < sizeT (pool.next - pool.pool + size) then do
      let length ← lift s.poolDeq.length
      let factor ← twoShifted (sizeT (length - 1))
      let (pool, s) ← nextPool mem size (sizeT (initSize * factor)) s
      let s ← pushPool mem pool s
      allocLoop size initSize n pool s
    else .ok (pool, s)

/-- `memory_pool_alloc`. -/
def memoryPoolAlloc (size : ℕ) (s : Pools) : Except Halt (ℕ × Pools) := do
  if ← lift s.poolDeq.isEmpty then .error .assertion
  let pool ← lift s.poolDeq.peekBack
  let first ← lift s.poolDeq.peekFront
  if pool.pool = 0 ∨ pool.size = 0 ∨ pool.next = 0 then .error .assertion
  let (pool, s) ← allocLoop mem size first.size 31 pool s
  let back ← lift s.poolDeq.peekBack
  if pool.next ≠ back.next then .error .assertion
  let d ← lift (s.poolDeq.updateBack { pool with next := sizeT (pool.next + size) })
  return (pool.next, { s with poolDeq := d })

end Eecs678.Quash.PoolModel
