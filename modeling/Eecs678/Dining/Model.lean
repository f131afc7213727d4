import Mathlib.Data.Fintype.Basic
import Mathlib.Logic.Function.Basic
import Mathlib.Logic.Relation

/-!
# The dining philosophers

What `lab6/pthreads_dp/dp_asymmetric.c` and `dp_waiter.c` share: the table, `set_table`, and `dp_thread`
up to the code that takes the chopsticks, which is a parameter. `n` is `NUM_PHILS`, and a philosopher is
its `id`. A step is one step of one thread between two accesses of shared memory, or the reset of a
progress count in `main`, all before `main` sets `Stop`.
-/

namespace Eecs678.Dining.Model

variable {n : ℕ}

/-! ### Neighbours -/

/-- `left_phil`. -/
def leftPhil (p : Fin n) : Fin n :=
  ⟨if p.val = n - 1 then 0 else p.val + 1, by have := p.isLt; split <;> omega⟩

/-- `left_chop`. -/
def leftChop (p : Fin n) : Fin n := p

/-- `right_chop`. -/
def rightChop (p : Fin n) : Fin n :=
  ⟨if p.val = 0 then n - 1 else p.val - 1, by have := p.isLt; split <;> omega⟩

/-! ### States -/

/-- Where a thread is in `dp_thread`. -/
inductive Pc (n : ℕ)
  /-- At `while (!Stop)`. -/
  | loop
  /-- In the loop of `think_one_thought`, with the rounds left and `eat_rnd`. -/
  | think (left eatRnd : ℕ)
  /-- At the `pthread_mutex_lock` of the first of these chopsticks. -/
  | grab (chops : List (Fin n)) (eatRnd : ℕ)
  /-- In the loop of `eat_one_mouthful`, with the rounds left. -/
  | eat (left : ℕ)
  /-- At `pthread_mutex_unlock(right_chop(me))`. -/
  | releaseRight
  /-- At `pthread_mutex_unlock(left_chop(me))`. -/
  | releaseLeft
  /-- At the update of the progress. -/
  | progress
deriving DecidableEq, Repr

structure Philosopher (n : ℕ) where
  pc : Pc n
  prog : ℤ
  progTotal : ℤ

/-- `Diners`, and the thread that has locked each of `chopstick`. -/
structure Table (n : ℕ) where
  diners : Fin n → Philosopher n
  chopstick : Fin n → Option (Fin n)

/-- `set_table`. -/
def setTable (n : ℕ) : Table n where
  diners := fun _ => ⟨.loop, 0, 0⟩
  chopstick := fun _ => none

/-- What a step gets from outside: two results of `rand()`, and what is read at
`available_chopsticks[NUM_CHOPS]`. -/
structure Answer where
  rand1 : ℕ
  rand2 : ℕ
  available : ℤ

namespace Table

/-- The thread of `p` goes on to `pc`. -/
def goto (p : Fin n) (pc : Pc n) (t : Table n) : Table n :=
  { t with diners := Function.update t.diners p { t.diners p with pc := pc } }

/-- `pthread_mutex_lock`, once it returns. -/
def lock (p chop : Fin n) (t : Table n) : Table n :=
  { t with chopstick := Function.update t.chopstick chop (some p) }

/-- `pthread_mutex_unlock`. -/
def unlock (chop : Fin n) (t : Table n) : Table n :=
  { t with chopstick := Function.update t.chopstick chop none }

/-- `me->prog++` and `me->prog_total++`. -/
def update (p : Fin n) (t : Table n) : Table n :=
  { t with
    diners := Function.update t.diners p
      { t.diners p with prog := (t.diners p).prog + 1, progTotal := (t.diners p).progTotal + 1 } }

/-- `Diners[i].prog = 0` in `main`. -/
def reset (p : Fin n) (t : Table n) : Table n :=
  { t with diners := Function.update t.diners p { t.diners p with prog := 0 } }

end Table

/-! ### Steps -/

/-- The next step of the thread of `p`, unless it waits for a chopstick; `take` gives the chopsticks
that the thread locks, in order. -/
def dpThread (take : Fin n → ℤ → List (Fin n)) (p : Fin n) (a : Answer) (t : Table n) :
    Option (Table n) :=
  match (t.diners p).pc with
  | .loop => some (t.goto p (.think (a.rand1 % 1000) (a.rand2 % 100)))
  | .think (left + 1) eatRnd => some (t.goto p (.think left eatRnd))
  | .think 0 eatRnd => some (t.goto p (.grab (take p a.available) eatRnd))
  | .grab (chop :: chops) eatRnd =>
    if t.chopstick chop = none then some ((t.lock p chop).goto p (.grab chops eatRnd)) else none
  | .grab [] eatRnd => some (t.goto p (.eat eatRnd))
  | .eat (left + 1) => some (t.goto p (.eat left))
  | .eat 0 => some (t.goto p .releaseRight)
  | .releaseRight => some ((t.unlock (rightChop p)).goto p .releaseLeft)
  | .releaseLeft => some ((t.unlock (leftChop p)).goto p .progress)
  | .progress => some ((t.update p).goto p .loop)

/-- One step of the program, in which every answer that a thread gets is as `P` says. -/
inductive Step (take : Fin n → ℤ → List (Fin n)) (P : Answer → Prop) : Table n → Table n → Prop
  | thread {t t' : Table n} (p : Fin n) (a : Answer) (ha : P a) (h : dpThread take p a t = some t') :
      Step take P t t'
  | reset {t : Table n} (p : Fin n) : Step take P t (t.reset p)

/-- The states of the runs whose answers are as `P` says. -/
def Reachable (take : Fin n → ℤ → List (Fin n)) (P : Answer → Prop) (t : Table n) : Prop :=
  Relation.ReflTransGen (Step take P) (setTable n) t

/-- The chopstick that the philosopher is about to lock. -/
def wants (t : Table n) (p : Fin n) : Option (Fin n) :=
  match (t.diners p).pc with
  | .grab (chop :: _) _ => some chop
  | _ => none

/-- The philosopher is between the code that takes the chopsticks and the code that releases them. -/
def Eating (t : Table n) (p : Fin n) : Prop :=
  match (t.diners p).pc with
  | .grab [] _ => True
  | .eat _ => True
  | .releaseRight => True
  | _ => False

/-- The chopstick that the next step of the philosopher unlocks. -/
def unlocks (t : Table n) (p : Fin n) : Option (Fin n) :=
  match (t.diners p).pc with
  | .releaseRight => some (rightChop p)
  | .releaseLeft => some (leftChop p)
  | _ => none

end Eecs678.Dining.Model
