import Mathlib.Data.Int.Notation
import Mathlib.Data.List.Basic

/-!
# Two programs that copy a file

`lab9/mmio/read_write.c` and `memmap.c`, after the files are open. A file that is open for writing is its
bytes and its offset, and a `write` is complete.
-/

namespace Eecs678.Copy.Model

structure File where
  bytes : List UInt8
  offset : ℕ
deriving DecidableEq, Repr

/-- A file just after `open` with `O_TRUNC`. -/
def truncated : File := ⟨[], 0⟩

/-- `write`: the bytes at the offset are replaced, and a gap after the end is filled with zeros. -/
def write (file : File) (data : List UInt8) : File where
  bytes := file.bytes.take file.offset ++ List.replicate (file.offset - file.bytes.length) 0 ++ data ++
    file.bytes.drop (file.offset + data.length)
  offset := file.offset + data.length

/-- `lseek` with `SEEK_SET`: an offset before the start is refused. -/
def lseek (file : File) (offset : ℤ) : Option File :=
  if 0 ≤ offset then some { file with offset := offset.toNat } else none

/-! ### `read_write.c` -/

/-- What `read` does to the buffer `src`, when it has read `data`. -/
def readInto (data src : List UInt8) : List UInt8 := data ++ src.drop data.length

/-- The loop; `reads` is what its calls of `read` give, before the call that gives 0. All of the buffer
is written, whatever was read. -/
def copyLoop : List (List UInt8) → List UInt8 → File → File
  | [], _, fdout => fdout
  | data :: reads, src, fdout =>
    let src := readInto data src
    copyLoop reads src (write fdout src)

/-- `main` of `read_write.c`; `src` is what the buffer has when it is allocated. -/
def readWrite (reads : List (List UInt8)) (src : List UInt8) : File := copyLoop reads src truncated

/-! ### `memmap.c` -/

/-- `memcpy` of `src` to the start of a file that is mapped. -/
def memcpy (file : File) (src : List UInt8) : File :=
  { file with bytes := src ++ file.bytes.drop src.length }

/-- `main` of `memmap.c`, unless it exits with an error: the output is made as long as the input, and then
overwritten. -/
def memmap (input : List UInt8) : Option File := do
  let fdout ← lseek truncated (input.length - 1)
  let fdout := write fdout [0]
  return memcpy fdout input

end Eecs678.Copy.Model
