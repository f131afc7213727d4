import Mathlib.Algebra.Order.Ring.Int
import Mathlib.Data.Nat.Bitwise

/-!
# The address mapper

`lab8/VM_addr_map.c`: the set-up and the translation loop of `main`, from the three sizes and the
addresses that `sscanf` has read. An `unsigned int` is a natural number below `2 ^ 32`, the arrays are
lists of the values of their `int`s. The result is `none` when a shift count is 32 or more, or an array
is used outside its bounds; both are undefined in C.
-/

namespace Eecs678.AddrMap.Model

/-! ### Arithmetic -/

/-- `x << n`. -/
def shl (x n : ℕ) : Option ℕ := if n < 32 then some ((x <<< n) % 2 ^ 32) else none

/-- `x >> n`. -/
def shr (x n : ℕ) : Option ℕ := if n < 32 then some (x >>> n) else none

/-- `x - y`. -/
def sub (x y : ℕ) : ℕ := (x + 2 ^ 32 - y) % 2 ^ 32

/-- An `unsigned int` stored in an `int`. -/
def toInt (x : ℕ) : ℤ := Int.bmod x (2 ^ 32)

/-- An `int` stored in an `unsigned int`. -/
def toUnsigned (x : ℤ) : ℕ := (x % 2 ^ 32).toNat

/-! ### Set-up -/

/-- What the first three lines give. -/
structure Header where
  logSize : ℕ
  phySize : ℕ
  pageSize : ℕ
deriving DecidableEq, Repr

/-- The variables of `main` that the loop keeps. -/
structure Vm where
  pageSize : ℕ
  numFrames : ℕ
  pageTable : List ℤ
  memMap : List ℤ
deriving DecidableEq, Repr

/-- `main` before the loop. -/
def setUp (h : Header) : Option Vm := do
  let numPages ← shl 1 (sub h.logSize h.pageSize)
  let numFrames ← shl 1 (sub h.phySize h.pageSize)
  return ⟨h.pageSize, numFrames, List.replicate numPages (-1), List.replicate numFrames 0⟩

/-! ### The loop -/

/-- What is printed for one address. -/
structure Block where
  logicalAddr : ℕ
  pageNum : ℕ
  pageFault : Bool
  frameNum : ℕ
  physicalAddr : ℕ
deriving DecidableEq, Repr

/-- The search for a free frame, from `frameNum` on: `numFrames` when there is none. -/
def firstFree : List ℤ → ℕ → ℕ
  | [], frameNum => frameNum
  | m :: memMap, frameNum => if m = 0 then frameNum else firstFree memMap (frameNum + 1)

/-- `array[i] = x`. -/
def store (array : List ℤ) (i : ℕ) (x : ℤ) : Option (List ℤ) :=
  if i < array.length then some (array.set i x) else none

/-- The page table, and the frame, when the page has none yet. -/
def pageFault (pageNum : ℕ) (vm : Vm) : Option (ℕ × Vm) := do
  let frameNum := firstFree vm.memMap 0
  let pageTable ← store vm.pageTable pageNum (toInt frameNum)
  let memMap ← store vm.memMap frameNum 1
  return (frameNum, { vm with pageTable := pageTable, memMap := memMap })

/-- One round of the loop. -/
def translate (logicalAddr : ℕ) (vm : Vm) : Option (Block × Vm) := do
  let offsetMask := sub (← shl 1 vm.pageSize) 1
  let offset := logicalAddr &&& offsetMask
  let pageNum ← shr logicalAddr vm.pageSize
  let entry ← vm.pageTable[pageNum]?
  let (frameNum, vm) ← if entry = -1 then pageFault pageNum vm else some (toUnsigned entry, vm)
  let base ← shl frameNum vm.pageSize
  return (⟨logicalAddr, pageNum, entry = -1, frameNum, base ||| offset⟩, vm)

/-- The loop. -/
def translateAll : List ℕ → Vm → Option (List Block × Vm)
  | [], vm => some ([], vm)
  | logicalAddr :: addrs, vm => do
    let (block, vm) ← translate logicalAddr vm
    let (blocks, vm) ← translateAll addrs vm
    return (block :: blocks, vm)

/-- `main`, on a header and the addresses after it. -/
def main (h : Header) (addrs : List ℕ) : Option (List Block × Vm) := do
  let vm ← setUp h
  translateAll addrs vm

end Eecs678.AddrMap.Model
