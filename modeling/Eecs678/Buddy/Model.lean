import Eecs678.Lib.Dyadic

/-!
# The buddy allocator

`project2/buddy/buddy.c`. An address is written as its offset into `g_memory`, `NULL` as `none`. A
free list is the list of the page numbers met when `next` is followed from `free_area[o]`, so
`list_add` puts a page in front and `list_del_init` takes it out of the list it is on; `Buddy.Pointers` has
the pointers. The loops are recursions on the number of rounds they can still make.

A step the C code has no defined result for is a `Fault`: a shift of an `int` by 31 places or more,
an index outside `g_pages`, an index outside the part of `free_area` that `buddy_init` sets up.
-/

namespace Eecs678.Buddy.Model

open Eecs678.Lib.Dyadic

/-- `MIN_ORDER`. -/
def minOrder : ℕ := 12

/-- `MAX_ORDER`. -/
def maxOrder : ℕ := 20

/-- `PAGE_SIZE`. -/
def pageSize : ℕ := 2 ^ minOrder

/-- The number of entries of `g_pages`. -/
def nPages : ℕ := 2 ^ maxOrder / pageSize

/-- `PAGE_TO_ADDR`. -/
def pageToAddr (pageIdx : ℕ) : ℕ := pageIdx * pageSize

/-- `ADDR_TO_PAGE`. -/
def addrToPage (addr : ℕ) : ℕ := addr / pageSize

/-- `BUDDY_ADDR`: the offset with bit `o` flipped. -/
def buddyAddr (addr o : ℕ) : ℕ := buddyOff addr o

inductive Fault
  | shift
  | page
  | area
deriving DecidableEq, Repr

/-- `page_t`, without its list node. -/
structure PageT where
  order : ℕ
  free : Bool
deriving DecidableEq, Repr

/-- The globals `free_area` and `g_pages`. -/
structure Allocator where
  freeArea : ℕ → List ℕ
  gPages : ℕ → PageT

/-! ### Single accesses -/

/-- `&g_pages[i]` is an entry. -/
def checkPage (i : ℕ) : Except Fault Unit := if i < nPages then .ok () else .error .page

/-- `&free_area[o]` is an initialised list head. -/
def checkArea (o : ℕ) : Except Fault Unit :=
  if minOrder ≤ o ∧ o ≤ maxOrder then .ok () else .error .area

def setPage (i : ℕ) (p : PageT) (s : Allocator) : Allocator :=
  { s with gPages := Function.update s.gPages i p }

def setFree (i : ℕ) (b : Bool) (s : Allocator) : Allocator := setPage i { s.gPages i with free := b } s

def setOrder (i o : ℕ) (s : Allocator) : Allocator := setPage i { s.gPages i with order := o } s

/-- `list_add(&g_pages[i].list, &free_area[o])`. -/
def listAdd (i o : ℕ) (s : Allocator) : Except Fault Allocator := do
  checkArea o
  return { s with freeArea := Function.update s.freeArea o (i :: s.freeArea o) }

/-- `list_del_init(&g_pages[i].list)`. -/
def listDelInit (i : ℕ) (s : Allocator) : Allocator := { s with freeArea := fun o => (s.freeArea o).erase i }

/-! ### The functions -/

/-- `buddy_init`. -/
def buddyInit : Allocator where
  freeArea := Function.update (fun _ => []) maxOrder [0]
  gPages := Function.update (fun _ => ⟨0, false⟩) 0 ⟨maxOrder, true⟩

/-- `while ((1 << order) < size) order++`; `n` rounds are left before `1` is shifted by 31 places. -/
def orderLoop (size : ℤ) : ℕ → ℕ → Except Fault ℕ
  | 0, _ => .error .shift
  | n + 1, order => if (2 : ℤ) ^ order < size then orderLoop size n (order + 1) else .ok order

/-- The order `buddy_alloc` chooses for a request. -/
def requestOrder (size : ℤ) : Except Fault ℕ := orderLoop size (31 - minOrder) minOrder

/-- `while (found_order <= MAX_ORDER && list_empty(..)) found_order++`; `n` orders are left. -/
def foundLoop (s : Allocator) : ℕ → ℕ → ℕ
  | 0, found => found
  | n + 1, found => if (s.freeArea found).isEmpty then foundLoop s n (found + 1) else found

/-- `while (found_order > order)`, with `n = found_order - order`. -/
def splitLoop (pageIdx order : ℕ) : ℕ → Allocator → Except Fault Allocator
  | 0, s => .ok s
  | n + 1, s => do
    let found := order + n
    let buddyIdx := addrToPage (buddyAddr (pageToAddr pageIdx) found)
    checkPage buddyIdx
    let s ← listAdd buddyIdx found (setPage buddyIdx ⟨found, true⟩ s)
    splitLoop pageIdx order n (setOrder pageIdx found s)

/-- `buddy_alloc`. -/
def buddyAlloc (size : ℤ) (s : Allocator) : Except Fault (Option ℕ × Allocator) :=
  if size ≤ 0 then .ok (none, s) else do
    let order ← requestOrder size
    if maxOrder < order then return (none, s)
    else
      let found := foundLoop s (maxOrder + 1 - order) order
      if maxOrder < found then return (none, s)
      else
        match s.freeArea found with
        | [] => .error .area
        | pageIdx :: _ =>
          let s ← splitLoop pageIdx order (found - order)
            (setFree pageIdx false (listDelInit pageIdx s))
          return (some (pageToAddr pageIdx), setPage pageIdx ⟨order, false⟩ s)

/-- The coalescing loop `while (order < MAX_ORDER)`, with `n = MAX_ORDER - order`. Returns the page
and the order of the block in hand. -/
def coalesceLoop : ℕ → ℕ → ℕ → ℕ → Allocator → Except Fault (ℕ × ℕ × Allocator)
  | 0, _, pageIdx, order, s => .ok (pageIdx, order, s)
  | n + 1, addr, pageIdx, order, s => do
    let bAddr := buddyAddr addr order
    let buddyIdx := addrToPage bAddr
    checkPage buddyIdx
    if !(s.gPages buddyIdx).free || (s.gPages buddyIdx).order != order then
      return (pageIdx, order, s)
    else
      let s := setFree buddyIdx false (listDelInit buddyIdx s)
      -- the merged block starts at the lower address; the other page keeps its old metadata
      let (addr, pageIdx) := if bAddr < addr then (bAddr, buddyIdx) else (addr, pageIdx)
      coalesceLoop n addr pageIdx (order + 1) (setPage pageIdx ⟨order + 1, true⟩ s)

/-- `buddy_free`. -/
def buddyFree (addr : ℕ) (s : Allocator) : Except Fault Allocator := do
  let pageIdx := addrToPage addr
  checkPage pageIdx
  let order := (s.gPages pageIdx).order
  let (pageIdx, order, s) ←
    coalesceLoop (maxOrder - order) addr pageIdx order (setFree pageIdx true s)
  listAdd pageIdx order s

/-- `buddy_dump`: for each order the length of its free list, and the block size in K. -/
def buddyDump (s : Allocator) : List (ℕ × ℕ) :=
  (List.range' minOrder (maxOrder + 1 - minOrder)).map fun o =>
    ((s.freeArea o).length, 2 ^ o / 1024)

/-! ### Runs -/

/-- The allocator after some calls, with the blocks handed out and not freed since: their address
and the order chosen when they were allocated. Only such blocks are freed. -/
inductive Reach : Allocator → List Blk → Prop
  | init : Reach buddyInit []
  | refused {s s' : Allocator} {live : List Blk} {size : ℤ} (h : Reach s live)
      (hs : buddyAlloc size s = .ok (none, s')) : Reach s' live
  | alloc {s s' : Allocator} {live : List Blk} {size : ℤ} {order addr : ℕ} (h : Reach s live)
      (ho : requestOrder size = .ok order) (hs : buddyAlloc size s = .ok (some addr, s')) :
      Reach s' (⟨addr, order⟩ :: live)
  | free {s s' : Allocator} {live : List Blk} {b : Blk} (h : Reach s live) (hb : b ∈ live)
      (hs : buddyFree b.off s = .ok s') : Reach s' (live.erase b)

/-- The blocks on the free lists. -/
def freeBlocks (s : Allocator) : List Blk :=
  (List.range' minOrder (maxOrder + 1 - minOrder)).flatMap fun o =>
    (s.freeArea o).map fun i => ⟨pageToAddr i, o⟩

end Eecs678.Buddy.Model
