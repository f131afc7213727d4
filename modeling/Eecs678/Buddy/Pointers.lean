import Eecs678.Buddy.ListHead
import Eecs678.Buddy.Model

/-!
# The buddy allocator in memory

`buddy.c` once more, with the list nodes of `free_area` and of `g_pages` and their pointers in place of the
lists of `Buddy.Model`; the result is `none` where the C code has no defined one. `Memory.calls` are the
calls of `list_add` and of `list_del_init`, each with the links that it found.
-/

namespace Eecs678.Buddy.Pointers

open Eecs678.Lib.LinkedRing Eecs678.Lib.Dyadic Eecs678.Buddy.ListHead Eecs678.Buddy.Model

/-- The list nodes: `free_area[o]` and `g_pages[i].list`. -/
inductive Node
  | area (o : ℕ)
  | page (i : ℕ)
deriving DecidableEq, Repr

/-- `list_add(&g_pages[i].list, &free_area[o])`, or `list_del_init(&g_pages[i].list)` where the block is one
of order `o`. -/
inductive Call
  | add (found : Links Node) (i o : ℕ)
  | del (found : Links Node) (i o : ℕ)

/-- The globals `free_area` and `g_pages`. -/
structure Memory where
  links : Links Node
  gPages : ℕ → PageT
  calls : List Call

/-! ### Single accesses -/

def setPage (i : ℕ) (p : PageT) (m : Memory) : Memory :=
  { m with gPages := Function.update m.gPages i p }

def setFree (i : ℕ) (b : Bool) (m : Memory) : Memory := setPage i { m.gPages i with free := b } m

def setOrder (i o : ℕ) (m : Memory) : Memory := setPage i { m.gPages i with order := o } m

/-- `list_add(&g_pages[i].list, &free_area[o])`. -/
def addPage (i o : ℕ) (m : Memory) : Option Memory := do
  guard (o ≤ maxOrder)
  let links ← ListHead.listAdd (.page i) (.area o) m.links
  return { m with links := links, calls := .add m.links i o :: m.calls }

/-- `list_del_init(&g_pages[i].list)`, for a block of order `o`. -/
def delPage (i o : ℕ) (m : Memory) : Option Memory := do
  let links ← ListHead.listDelInit (.page i) m.links
  return { m with links := links, calls := .del m.links i o :: m.calls }

/-! ### The functions -/

/-- `buddy_init`, whatever the pointers are before. -/
def buddyInit (links : Links Node) : Option Memory :=
  let links := (List.range nPages).foldl (fun l i => initListHead (.page i) l) links
  let links := (List.range' minOrder (maxOrder + 1 - minOrder)).foldl
    (fun l o => initListHead (.area o) l) links
  addPage 0 maxOrder ⟨links, Function.update (fun _ => ⟨0, false⟩) 0 ⟨maxOrder, true⟩, []⟩

/-- `while (found_order <= MAX_ORDER && list_empty(..)) found_order++`; `n` orders are left. -/
def foundLoop (m : Memory) : ℕ → ℕ → ℕ
  | 0, found => found
  | n + 1, found => if listEmpty (.area found) m.links then foundLoop m n (found + 1) else found

/-- `while (found_order > order)`, with `n = found_order - order`. -/
def splitLoop (pageIdx order : ℕ) : ℕ → Memory → Option Memory
  | 0, m => some m
  | n + 1, m => do
    let found := order + n
    let buddyIdx := addrToPage (buddyAddr (pageToAddr pageIdx) found)
    guard (buddyIdx < nPages)
    let m ← addPage buddyIdx found (setPage buddyIdx ⟨found, true⟩ m)
    splitLoop pageIdx order n (setOrder pageIdx found m)

/-- `buddy_alloc`. -/
def buddyAlloc (size : ℤ) (m : Memory) : Option (Option ℕ × Memory) :=
  if size ≤ 0 then some (none, m) else do
    let order ← (requestOrder size).toOption
    if maxOrder < order then return (none, m)
    else
      let found := foundLoop m (maxOrder + 1 - order) order
      if maxOrder < found then return (none, m)
      else
        match m.links.next (.area found) with
        | some (.page pageIdx) => do
          let m ← delPage pageIdx found m
          let m ← splitLoop pageIdx order (found - order) (setFree pageIdx false m)
          return (some (pageToAddr pageIdx), setPage pageIdx ⟨order, false⟩ m)
        -- `list_entry` of a pointer that is not one to the node of a page
        | _ => none

/-- The coalescing loop `while (order < MAX_ORDER)`, with `n = MAX_ORDER - order`. Returns the page
and the order of the block in hand. -/
def coalesceLoop : ℕ → ℕ → ℕ → ℕ → Memory → Option (ℕ × ℕ × Memory)
  | 0, _, pageIdx, order, m => some (pageIdx, order, m)
  | n + 1, addr, pageIdx, order, m => do
    let bAddr := buddyAddr addr order
    let buddyIdx := addrToPage bAddr
    guard (buddyIdx < nPages)
    if !(m.gPages buddyIdx).free || (m.gPages buddyIdx).order != order then
      return (pageIdx, order, m)
    else
      let m ← delPage buddyIdx order m
      let m := setFree buddyIdx false m
      let (addr, pageIdx) := if bAddr < addr then (bAddr, buddyIdx) else (addr, pageIdx)
      coalesceLoop n addr pageIdx (order + 1) (setPage pageIdx ⟨order + 1, true⟩ m)

/-- `buddy_free`. -/
def buddyFree (addr : ℕ) (m : Memory) : Option Memory := do
  let pageIdx := addrToPage addr
  guard (pageIdx < nPages)
  let order := (m.gPages pageIdx).order
  let (pageIdx, order, m) ←
    coalesceLoop (maxOrder - order) addr pageIdx order (setFree pageIdx true m)
  addPage pageIdx order m

/-- `buddy_dump`: for each order how far the traversal counts, and the block size in K; each traversal has
`n` comparisons. -/
def buddyDump (n : ℕ) (m : Memory) : Option (List (ℕ × ℕ)) :=
  (List.range' minOrder (maxOrder + 1 - minOrder)).mapM fun o => do
    let nodes ← listForEach (.area o) m.links n (m.links.next (.area o))
    return (nodes.length, 2 ^ o / 1024)

/-! ### Runs -/

/-- The memory after `buddy_init` and some calls, with the blocks handed out and not freed since: their
address and the order chosen when they were allocated. Only such blocks are freed. -/
inductive Reach : Memory → List Blk → Prop
  | init {links : Links Node} {m : Memory} (hs : buddyInit links = some m) : Reach m []
  | refused {m m' : Memory} {live : List Blk} {size : ℤ} (h : Reach m live)
      (hs : buddyAlloc size m = some (none, m')) : Reach m' live
  | alloc {m m' : Memory} {live : List Blk} {size : ℤ} {order addr : ℕ} (h : Reach m live)
      (ho : requestOrder size = .ok order) (hs : buddyAlloc size m = some (some addr, m')) :
      Reach m' (⟨addr, order⟩ :: live)
  | free {m m' : Memory} {live : List Blk} {b : Blk} (h : Reach m live) (hb : b ∈ live)
      (hs : buddyFree b.off m = some m') : Reach m' (live.erase b)

end Eecs678.Buddy.Pointers
