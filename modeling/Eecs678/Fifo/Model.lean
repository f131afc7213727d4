import Eecs678.Lib.Interleaving
import Eecs678.Lib.Scanf
import Eecs678.Lib.Stdio

/-!
# A producer and a consumer

`lab4/lab4_base/fifo_producer.c` and `fifo_consumer.c`, after both have opened the FIFO. The FIFO is the
bytes that were written and not yet read. A step is one call of `fgets`, `write` or `close` in the
producer, or one round of the consumer's loop; how many bytes a `read` gives is part of the action.
-/

namespace Eecs678.Fifo.Model

open Eecs678.Lib.Scanf Eecs678.Lib.Stdio

/-- `MAX_LENGTH`. -/
def maxLength : ℕ := 1000

/-! ### The producer -/

/-- Where the producer is. -/
inductive ProducerPc
  /-- At a call of `fgets`. -/
  | fetch
  /-- At `while (!feof(stdin))`, with what `feof` gives. -/
  | test (eof : Bool)
  /-- After `close(fd)`. -/
  | closed
deriving DecidableEq, Repr

structure Producer where
  pc : ProducerPc
  str : List Char
  stdin : Stream
deriving DecidableEq, Repr

/-- The next step of the producer: its state, and what it writes. -/
def Producer.next (p : Producer) : Option (Producer × List Char) :=
  match p.pc with
  | .fetch =>
    let ((str, eof), stdin) := fgets p.str p.stdin
    some (⟨.test eof, str, stdin⟩, [])
  | .test false => some ({ p with pc := .fetch }, cString p.str)
  | .test true => some ({ p with pc := .closed }, [])
  | .closed => none

/-! ### The consumer -/

/-- Where the consumer is. -/
inductive ConsumerPc
  /-- At a call of `read`. -/
  | read
  /-- After `close(fd)`. -/
  | closed
  /-- After a store outside of `str`. -/
  | undefined
deriving DecidableEq, Repr

/-- The consumer, with what it has printed for each `read`. -/
structure Consumer where
  pc : ConsumerPc
  str : List Char
  printed : List (ℕ × List Char)
deriving DecidableEq, Repr

/-- The bytes that are printed after the headers. -/
def Consumer.text (c : Consumer) : List Char := (c.printed.map Prod.snd).flatten

/-- A round of the loop, when `read` has given these bytes. -/
def Consumer.receive (data : List Char) (c : Consumer) : Consumer :=
  let num := data.length
  let str := data ++ c.str.drop num
  if num < maxLength then
    let str := str.set num '\x00'
    ⟨if num > 0 then .read else .closed, str, c.printed ++ [(num, cString str)]⟩
  else { c with pc := .undefined, str := str }

/-! ### Both -/

structure State where
  producer : Producer
  fifo : List Char
  consumer : Consumer
deriving DecidableEq, Repr

/-- The state in which both have opened the FIFO; the arrays have anything in them. -/
def start (text str str' : List Char) : State where
  producer := ⟨.fetch, str, calls maxLength text⟩
  fifo := []
  consumer := ⟨.read, str', []⟩

inductive Action
  | producer
  /-- A `read` that gives `num` bytes. -/
  | read (num : ℕ)
deriving DecidableEq, Repr

/-- The bytes that `read` can give: some of those in the FIFO, at most `MAX_LENGTH`, or none after the
end. -/
def Readable (num : ℕ) (s : State) : Prop :=
  if num = 0 then s.fifo = [] ∧ s.producer.pc = .closed else num ≤ maxLength ∧ num ≤ s.fifo.length

instance (num : ℕ) (s : State) : Decidable (Readable num s) := by
  unfold Readable
  infer_instance

def step : Action → State → Option State
  | .producer, s => do
    let (producer, data) ← s.producer.next
    return { s with producer := producer, fifo := s.fifo ++ data }
  | .read num, s =>
    if s.consumer.pc = .read ∧ Readable num s then
      some { s with fifo := s.fifo.drop num, consumer := s.consumer.receive (s.fifo.take num) }
    else none

end Eecs678.Fifo.Model
