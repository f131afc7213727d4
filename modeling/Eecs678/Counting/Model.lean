import Eecs678.Lib.Interleaving
import Mathlib.Algebra.Order.Ring.Int
import Mathlib.Data.Fintype.Basic
import Mathlib.Logic.Function.Basic

/-!
# Threads that count

What `lab5/ptcount_mutex.c` and `ptcount_atomic.c` share: `inc_count`, up to what a round of its loop does
to `count`, which is a parameter. `n` is `NUM_THREADS`, and a thread is its `tid`. A step is one step of
one thread between two accesses of shared memory. An `int` is its value.
-/

namespace Eecs678.Counting.Model

variable {n : ℕ} {B : Type}

/-- The sum of two `int`s, modulo `2 ^ 32`. -/
def add (x y : ℤ) : ℤ := Int.bmod (x + y) (2 ^ 32)

/-! ### States -/

/-- `thread_args`; all threads get the same ones but for the `tid`. -/
structure ThreadArgs where
  inc : ℤ
  loop : ℤ
deriving DecidableEq, Repr

/-- `count`, and the thread that has locked `count_mutex`. -/
structure Shared (n : ℕ) where
  count : ℤ
  countMutex : Option (Fin n)
deriving DecidableEq, Repr

/-- Where a thread is in `inc_count`; `B` are the places in the part of the loop that is a parameter. -/
inductive Pc (B : Type)
  /-- At `i < my_args->loop`. -/
  | test
  /-- In the part that counts in `count`. -/
  | body (b : B)
  /-- At `loc = loc + my_args->inc`. -/
  | local
  /-- After `pthread_exit`. -/
  | exited
deriving DecidableEq, Repr

structure Thread (B : Type) where
  pc : Pc B
  i : ℤ
  loc : ℤ
deriving DecidableEq, Repr

structure State (B : Type) (n : ℕ) where
  threads : Fin n → Thread B
  shared : Shared n

/-- When `main` has created the threads. -/
def start (B : Type) (n : ℕ) : State B n where
  threads := fun _ => ⟨.test, 0, 0⟩
  shared := ⟨0, none⟩

/-! ### Steps -/

/-- The part of the loop that counts in `count`: where it begins, and the next step from a place of it,
unless the thread waits, with the place after it, if it is not the last one. -/
structure Body (B : Type) (n : ℕ) where
  first : B
  step : ThreadArgs → Fin n → B → Shared n → Option (Option B × Shared n)

/-- The place after a step of the body. -/
def after : Option B → Pc B
  | some b => .body b
  | none => .local

/-- The next step of a thread in `inc_count`, if it has one. -/
def incCount (body : Body B n) (args : ThreadArgs) (p : Fin n) (s : State B n) : Option (State B n) :=
  let me := s.threads p
  let put (me : Thread B) (shared : Shared n) : State B n := ⟨Function.update s.threads p me, shared⟩
  match me.pc with
  | .test =>
    if me.i < args.loop then some (put { me with pc := .body body.first } s.shared)
    else some (put { me with pc := .exited } s.shared)
  | .body b => do
    let (b, shared) ← body.step args p b s.shared
    return put { me with pc := after b } shared
  | .local => some (put ⟨.test, me.i + 1, add me.loc args.inc⟩ s.shared)
  | .exited => none

/-- The states of the runs, with any interleaving of the threads. -/
def Reachable (body : Body B n) (args : ThreadArgs) : State B n → Prop :=
  Lib.Interleaving.Reachable (incCount body args) (start B n)

/-! ### The two bodies -/

/-- Where a thread is in the body of `ptcount_mutex.c`. -/
inductive Place
  /-- At `pthread_mutex_lock`. -/
  | lock
  /-- Where `count` is read. -/
  | read
  /-- Where it is written, with the value that was read. -/
  | write (value : ℤ)
  /-- At `pthread_mutex_unlock`. -/
  | unlock
deriving DecidableEq, Repr

/-- `count = count + my_args->inc` between the lock and the unlock. -/
def mutex (n : ℕ) : Body Place n where
  first := .lock
  step args p b s := match b with
    | .lock => if s.countMutex = none then some (some .read, { s with countMutex := some p }) else none
    | .read => some (some (.write s.count), s)
    | .write value => some (some .unlock, { s with count := add value args.inc })
    | .unlock => some (none, { s with countMutex := none })

/-- `__sync_fetch_and_add(&count, my_args->inc)`. -/
def atomic (n : ℕ) : Body Unit n where
  first := ()
  step args _ _ s := some (none, { s with count := add s.count args.inc })

end Eecs678.Counting.Model
