import Eecs678.AddrMap.Model
import Eecs678.Lib.Scanf
import Eecs678.Lib.Stdio

/-!
# The input of the address mapper

`main` of `lab8/VM_addr_map.c` with the file that it reads: the three lines with the sizes, and the loop
that reads the addresses. The standard input is the list of what its calls of `fgets` give.
-/

namespace Eecs678.AddrMap.Input

open Eecs678.Lib.Scanf Eecs678.Lib.Stdio Eecs678.AddrMap.Model

/-- `MAXSTR`. -/
def maxStr : ℕ := 1000

/-- Why there is no result: `exit(-1)` at one of the first lines, or something that C does not define. -/
inductive Failure
  | unexpectedLine (line : ℕ)
  | undefined
deriving DecidableEq, Repr

/-- `sscanf` for the size of one of the first lines, with its test. -/
def scanSize (format : String) (line : List Char) : Option ℕ :=
  match sscanf format line with
  | [_, size] => some (toUnsigned size)
  | _ => none

/-- `sscanf(line, "0x%x", &logical_addr)`: what `logical_addr` has after it. -/
def scanAddr (line : List Char) (logicalAddr : ℕ) : ℕ :=
  ((sscanf "0x%x" line).head?.map toUnsigned).getD logicalAddr

/-- The loop, with `line` and `feof` after the last call of `fgets`. -/
def readLoop : Stream → List Char → Bool → ℕ → Vm → Option (List Block × Vm)
  | [], line, eof, logicalAddr, vm => do
    if eof then return ([], vm)
    let (block, vm) ← translate (scanAddr line logicalAddr) vm
    -- `fgets` gives `NULL`, and `feof` ends the loop
    return ([block], vm)
  | (next, nextEof) :: stdin, line, eof, logicalAddr, vm => do
    if eof then return ([], vm)
    let logicalAddr := scanAddr line logicalAddr
    let (block, vm) ← translate logicalAddr vm
    let (blocks, vm) ← readLoop stdin next nextEof logicalAddr vm
    return (block :: blocks, vm)

/-- The result of a part that C may not define. -/
def defined {α : Type} : Option α → Except Failure α
  | some a => .ok a
  | none => .error .undefined

/-- The size of one of the first lines, which is read into `line`. -/
def readSize (n : ℕ) (format : String) (line : List Char) : Except Failure ℕ :=
  match scanSize format line with
  | some size => .ok size
  | none => .error (.unexpectedLine n)

/-- `main`; `line` and `logicalAddr` are what the variables have at its start. -/
def mapper (line : List Char) (logicalAddr : ℕ) (stdin : Stream) : Except Failure (List Block × Vm) := do
  let ((line, _), stdin) := fgets line stdin
  let logSize ← readSize 1 "Logical address space size: %d^%d" line
  let ((line, _), stdin) := fgets line stdin
  let phySize ← readSize 2 "Physical address space size: %d^%d" line
  let ((line, _), stdin) := fgets line stdin
  let pageSize ← readSize 3 "Page size: %d^%d" line
  let vm ← defined (setUp ⟨logSize, phySize, pageSize⟩)
  let ((line, eof), stdin) := fgets line stdin
  defined (readLoop stdin line eof logicalAddr vm)

end Eecs678.AddrMap.Input
