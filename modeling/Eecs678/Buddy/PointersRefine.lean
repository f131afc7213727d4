import Eecs678.Buddy.FreeRings
import Eecs678.Buddy.Requests

/-!
# The allocator in memory refines the one with lists

A memory and an allocator belong together (`Refines`) if the rings of the one are the lists of the other. Each
access, each loop and each function keeps that: what `list_del_init` is called for is on the ring of its order
because the metadata of the first page of a block is right (`Inv.buddy_free`), and what `list_add` is called
for is the page of the block in hand, which is on no ring (`Inv.hand_page`). `free_lists` is what it says of
every memory that can be reached.
-/

namespace Eecs678.Buddy.PointersRefine

open Eecs678.Lib.LinkedRing Eecs678.Lib.Dyadic Eecs678.Buddy.ListHead Eecs678.Buddy.Model
open Eecs678.Buddy.Invariant Eecs678.Buddy.Partition Eecs678.Buddy.Requests Eecs678.Buddy.Pointers
open Eecs678.Buddy.Canonical (mem_area_iff)
open Eecs678.Buddy.FreeRings

/-- The rings are the lists, and every call so far was proper. -/
structure Refines (m : Memory) (s : Allocator) : Prop where
  rings : Rings m.links s.freeArea
  pages : m.gPages = s.gPages
  calls : ∀ c ∈ m.calls, Proper c

variable {m m' : Memory} {s s' : Allocator} {hand live : List Blk} {i o : ℕ}

/-! ### Single accesses -/

theorem page_lt {a : ℕ} (h : a < 2 ^ maxOrder) : addrToPage a < nPages := by
  have hok := checkPage_ok h
  unfold checkPage at hok
  by_contra hlt
  rw [if_neg hlt] at hok
  cases hok

namespace Refines

theorem setPage (h : Refines m s) (i : ℕ) (p : PageT) :
    Refines (Pointers.setPage i p m) (Model.setPage i p s) := by
  refine ⟨h.rings, ?_, h.calls⟩
  rw [Pointers.setPage, Model.setPage, h.pages]

theorem setFree (h : Refines m s) (i : ℕ) (b : Bool) :
    Refines (Pointers.setFree i b m) (Model.setFree i b s) := by
  rw [Pointers.setFree, Model.setFree, h.pages]
  exact h.setPage i _

theorem setOrder (h : Refines m s) (i o : ℕ) :
    Refines (Pointers.setOrder i o m) (Model.setOrder i o s) := by
  rw [Pointers.setOrder, Model.setOrder, h.pages]
  exact h.setPage i _

/-- **A page that is on no ring is added.** -/
theorem add (h : Refines m s) (hi : i < nPages) (hfree : ∀ o', i ∉ s.freeArea o')
    (hs : Model.listAdd i o s = .ok s') : ∃ m', addPage i o m = some m' ∧ Refines m' s' := by
  unfold Model.listAdd checkArea at hs
  split_ifs at hs with ho
  · simp only [bind, Except.bind, pure, Except.pure, Except.ok.injEq] at hs
    subst hs
    obtain ⟨after, hadd, hrings⟩ := h.rings.add ho hi hfree
    refine ⟨⟨after, m.gPages, .add m.links i o :: m.calls⟩, ?_, hrings, h.pages, fun c hc => ?_⟩
    · simp [addPage, guard, ho.2, hadd]
    · rcases List.mem_cons.mp hc with rfl | hc
      · exact ⟨_, _, h.rings, hfree, hadd, hrings⟩
      · exact h.calls c hc
  · simp [bind, Except.bind] at hs

/-- **A page is taken off its ring.** -/
theorem del (h : Refines m s) (hi : i ∈ s.freeArea o) :
    ∃ m', delPage i o m = some m' ∧ Refines m' (Model.listDelInit i s) := by
  obtain ⟨after, hdel, hrings⟩ := h.rings.del hi
  have herase : Function.update s.freeArea o ((s.freeArea o).erase i) =
      fun o' => (s.freeArea o').erase i := by
    funext o'
    by_cases he : o' = o
    · rw [he, Function.update_self]
    · rw [Function.update_of_ne he, List.erase_of_not_mem fun hm => he (h.rings.apart o' o i hm hi)]
  refine ⟨⟨after, m.gPages, .del m.links i o :: m.calls⟩, ?_, ?_, h.pages, fun c hc => ?_⟩
  · simp [delPage, hdel]
  · rw [herase] at hrings
    exact hrings
  · rcases List.mem_cons.mp hc with rfl | hc
    · exact ⟨_, _, h.rings, hi, hdel, hrings⟩
    · exact h.calls c hc

end Refines

/-! ### `buddy_alloc` -/

theorem foundLoop_eq (h : Refines m s) : ∀ (n k : ℕ), minOrder ≤ k → k + n ≤ maxOrder + 1 →
    Pointers.foundLoop m n k = Model.foundLoop s n k
  | 0, _, _, _ => rfl
  | n + 1, k, hk, hn => by
    have hempty : listEmpty (.area k) m.links = (s.freeArea k).isEmpty := by
      rw [Bool.eq_iff_iff, h.rings.empty_iff ⟨hk, by omega⟩, List.isEmpty_iff]
    rw [Pointers.foundLoop, Model.foundLoop, hempty, foundLoop_eq h n (k + 1) (by omega) (by omega)]

/-- The search ends at the first ring that is not empty. -/
theorem foundLoop_found (h : Refines m s) {found : ℕ} (hmin : minOrder ≤ o) (h1 : o ≤ found)
    (h2 : found ≤ maxOrder) (hne : s.freeArea found ≠ [])
    (hbelow : ∀ j, o ≤ j → j < found → s.freeArea j = []) :
    Pointers.foundLoop m (maxOrder + 1 - o) o = found := by
  rw [foundLoop_eq h _ _ hmin (by omega)]
  obtain ⟨hle, -, hfound, hfirst⟩ := foundLoop_spec s (maxOrder + 1 - o) o
  rcases Nat.lt_trichotomy (Model.foundLoop s (maxOrder + 1 - o) o) found with hlt | heq | hgt
  · exact absurd (hbelow _ hle hlt) (hfound (by omega))
  · exact heq
  · exact absurd (hfirst found h1 hgt) hne

theorem foundLoop_none (h : Refines m s) (hmin : minOrder ≤ o) (hmax : o ≤ maxOrder)
    (hall : ∀ j, o ≤ j → s.freeArea j = []) :
    maxOrder < Pointers.foundLoop m (maxOrder + 1 - o) o := by
  rw [foundLoop_eq h _ _ hmin (by omega)]
  obtain ⟨hle, -, hfound, -⟩ := foundLoop_spec s (maxOrder + 1 - o) o
  by_contra hlt
  exact hfound (by omega) (hall _ hle)

/-- **The splitting loop** puts right halves on the rings, which are on none. -/
theorem splitLoop_refines (ho : minOrder ≤ o) : ∀ (n : ℕ) {m : Memory} {s : Allocator},
    Inv s [⟨pageToAddr i, o + n⟩] live → Refines m s → ∃ s' m', Model.splitLoop i o n s = .ok s' ∧
      Pointers.splitLoop i o n m = some m' ∧ Refines m' s'
  | 0, m, s, _, h => ⟨s, m, rfl, rfl, h⟩
  | n + 1, m, s, hinv, h => by
    obtain ⟨hlt, hfree⟩ := hinv.right_half (k := o + n) (by omega)
    obtain ⟨s₁, hcut, hinv₁⟩ := hinv.cut (k := o + n) (by omega)
    rw [checkPage_ok hlt] at hcut
    change Model.listAdd _ _ _ = _ at hcut
    obtain ⟨m₁, hadd, h₁⟩ := (h.setPage _ ⟨o + n, true⟩).add (page_lt hlt) hfree hcut
    obtain ⟨s', m', hs', hm', h'⟩ :=
      splitLoop_refines ho n (hinv₁.setHandOrder (o + n)) (h₁.setOrder i (o + n))
    refine ⟨s', m', ?_, ?_, h'⟩
    · unfold Model.splitLoop
      simp only [checkPage_ok hlt, bind, Except.bind, hcut]
      exact hs'
    · unfold Pointers.splitLoop
      simp only [guard, if_pos (page_lt hlt), bind, Option.bind, pure, hadd]
      exact hm'

/-- **`buddy_alloc`**, once the order is chosen. -/
theorem alloc_refines {size : ℤ} (hinv : Inv s [] live) (h : Refines m s) (hpos : 0 < size)
    (ho : requestOrder size = .ok o) : ∃ r s' m', Model.buddyAlloc size s = .ok (r, s') ∧
      Pointers.buddyAlloc size m = some (r, m') ∧ Refines m' s' := by
  have hmin : minOrder ≤ o := (orderLoop_spec ho).1
  rcases alloc_spec hinv hpos ho with ⟨hs, hall⟩ |
    ⟨found, i, rest, s₁, h1, h2, hfound, hbelow, hsplit, -, hs⟩
  · refine ⟨none, s, m, hs, ?_, h⟩
    rw [Pointers.buddyAlloc, if_neg (not_le.mpr hpos), ho, Except.toOption, Option.bind_eq_bind,
      Option.bind_some]
    by_cases hmax : maxOrder < o
    · rw [if_pos hmax]
      rfl
    · rw [if_neg hmax]
      simp only [pure, if_pos (foundLoop_none h hmin (not_lt.mp hmax) hall)]
  · have hi : i ∈ s.freeArea found := hfound ▸ List.mem_cons_self ..
    have hnext := (h.rings.ring found ⟨hmin.trans h1, h2⟩).next_head
    rw [hfound, List.map_cons, List.headD_cons] at hnext
    obtain ⟨m₁, hdel, hm₁⟩ := h.del hi
    have hinv₁ : Inv (Model.setFree i false (Model.listDelInit i s)) [⟨pageToAddr i, o + (found - o)⟩]
        live := by
      rw [Nat.add_sub_cancel' h1]
      exact (hinv.take hi).setHandFree false
    obtain ⟨s₂, m₂, hs₂, hm₂, href⟩ := splitLoop_refines hmin (found - o) hinv₁ (hm₁.setFree i false)
    rw [hsplit, Except.ok.injEq] at hs₂
    subst hs₂
    refine ⟨_, _, _, hs, ?_, href.setPage i ⟨o, false⟩⟩
    rw [Pointers.buddyAlloc, if_neg (not_le.mpr hpos), ho, Except.toOption, Option.bind_eq_bind,
      Option.bind_some, if_neg (not_lt.mpr (h1.trans h2)),
      foundLoop_found h hmin h1 h2 (hfound ▸ List.cons_ne_nil i rest) hbelow]
    simp only [if_neg (not_lt.mpr h2), hnext, hdel, hm₂, bind, Option.bind, pure]

theorem alloc_nonpos {size : ℤ} (h : size ≤ 0) : Pointers.buddyAlloc size m = some (none, m) :=
  if_pos h

/-- A request that has a result is not positive or has an order. -/
theorem order_of_result {size : ℤ} {x : Option ℕ × Memory} (hs : Pointers.buddyAlloc size m = some x)
    (hpos : 0 < size) : ∃ o, requestOrder size = .ok o := by
  cases ho : requestOrder size with
  | ok o => exact ⟨o, rfl⟩
  | error e =>
    unfold Pointers.buddyAlloc at hs
    rw [if_neg (not_le.mpr hpos), ho] at hs
    cases hs

/-! ### `buddy_free` -/

/-- The coalescing loop stops at a block whose buddy is on no ring of its order. -/
theorem coalesce_stop {a k : ℕ} (hinv : Inv s [⟨a, k⟩] live) (h : Refines m s) (hk : k < maxOrder)
    (hfree : addrToPage (buddyAddr a k) ∉ s.freeArea k) (n : ℕ) :
    Pointers.coalesceLoop (n + 1) a (addrToPage a) k m = some (addrToPage a, k, m) := by
  have hnot := mt (hinv.buddy_free rfl hk).mp hfree
  unfold Pointers.coalesceLoop
  simp only [guard, if_pos (page_lt (buddyAddr_lt hinv hk)), bind, Option.bind, pure, h.pages]
  rw [if_pos (by
    by_contra hc
    refine hnot ?_
    simpa using hc)]

/-- **The coalescing loop takes the buddy off its ring**, and goes on with the next order. -/
theorem coalesce_merge {a k : ℕ} (hinv : Inv s [⟨a, k⟩] live) (h : Refines m s) (hk : k < maxOrder)
    (hfree : addrToPage (buddyAddr a k) ∈ s.freeArea k) (n : ℕ) : ∃ m', Refines m' (merged a k s) ∧
      Pointers.coalesceLoop (n + 1) a (addrToPage a) k m = Pointers.coalesceLoop n
        (min a (buddyAddr a k)) (addrToPage (min a (buddyAddr a k))) (k + 1) m' := by
  obtain ⟨m₁, hdel, hm₁⟩ := h.del hfree
  refine ⟨_, (hm₁.setFree (addrToPage (buddyAddr a k)) false).setPage
    (addrToPage (min a (buddyAddr a k))) ⟨k + 1, true⟩, ?_⟩
  rw [Pointers.coalesceLoop]
  simp only [guard, if_pos (page_lt (buddyAddr_lt hinv hk)), bind, Option.bind, pure, h.pages]
  rw [hinv.free_page _ _ hfree, if_neg (by simp), hdel]
  simp only [lower_page]

theorem coalesceLoop_refines : ∀ (n : ℕ) {a k : ℕ} {m : Memory} {s : Allocator}, n = maxOrder - k →
    Inv s [⟨a, k⟩] live → Refines m s → ∃ i k' s' m',
      Model.coalesceLoop n a (addrToPage a) k s = .ok (i, k', s') ∧
        Pointers.coalesceLoop n a (addrToPage a) k m = some (i, k', m') ∧ Refines m' s'
  | 0, a, k, m, s, _, _, h => ⟨_, _, s, m, rfl, rfl, h⟩
  | n + 1, a, k, m, s, hn, hinv, h => by
    have hk : k < maxOrder := by omega
    by_cases hfree : addrToPage (buddyAddr a k) ∈ s.freeArea k
    · obtain ⟨m₁, h₁, hm₁⟩ := coalesce_merge hinv h hk hfree n
      rw [Partition.coalesce_merge hinv hk hfree, hm₁]
      exact coalesceLoop_refines n (by omega) (merged_inv hinv hfree) h₁
    · exact ⟨_, _, s, m, Partition.coalesce_stop hinv hk hfree n, coalesce_stop hinv h hk hfree n, h⟩

/-- **`buddy_free`** of a live block. -/
theorem free_refines {b : Blk} (hinv : Inv s [] live) (h : Refines m s) (hb : b ∈ live) :
    ∃ s' m', Model.buddyFree b.off s = .ok s' ∧ Pointers.buddyFree b.off m = some m' ∧
      Refines m' s' := by
  obtain ⟨hr, -, i, k, s₁, s', hloop, hinv₁, hadd, hs, -⟩ := free_spec hinv hb
  have hlt := hinv.tiles.off_lt (b := b) (by simp [hb])
  obtain ⟨i', k', s₂, m₁, hs₂, hm₁, href⟩ :=
    coalesceLoop_refines _ rfl hr (h.setFree (addrToPage b.off) true)
  rw [hloop, Except.ok.injEq, Prod.mk.injEq, Prod.mk.injEq] at hs₂
  obtain ⟨rfl, rfl, rfl⟩ := hs₂
  have hhand := hinv₁.hand_page.1
  have hi := page_lt (hinv₁.tiles.off_lt (b := ⟨pageToAddr i, k⟩) (by simp))
  rw [addrToPage_pageToAddr] at hhand hi
  obtain ⟨m', hm', href'⟩ := href.add hi hhand hadd
  refine ⟨s', m', hs, ?_, href'⟩
  unfold Pointers.buddyFree
  simp only [guard, if_pos (page_lt hlt), bind, Option.bind, pure, h.pages, hinv.live_page b hb, hm₁]
  exact hm'

/-! ### Every reachable memory -/

theorem init_refines (links : Links Node) :
    ∃ m, Pointers.buddyInit links = some m ∧ Refines m Model.buddyInit :=
  Refines.add (s := ⟨fun _ => [], Function.update (fun _ => ⟨0, false⟩) 0 ⟨maxOrder, true⟩⟩)
    ⟨init_rings links, rfl, nofun⟩ (by decide) (fun _ => List.not_mem_nil) rfl

/-- **Each run of the allocator in memory** is one of the allocator with lists. -/
theorem reach_refines (h : Pointers.Reach m live) : ∃ s, Model.Reach s live ∧ Refines m s := by
  induction h with
  | init hs =>
    obtain ⟨m, hm, href⟩ := init_refines _
    rw [hm, Option.some.injEq] at hs
    exact ⟨_, .init, hs ▸ href⟩
  | @refused m m' live size _ hs ih =>
    obtain ⟨s, hreach, href⟩ := ih
    by_cases hpos : 0 < size
    · obtain ⟨o, ho⟩ := order_of_result hs hpos
      obtain ⟨r, s', m₁, hs', hm₁, href'⟩ := alloc_refines (reach_inv hreach) href hpos ho
      rw [hm₁, Option.some.injEq, Prod.mk.injEq] at hs
      obtain ⟨rfl, rfl⟩ := hs
      exact ⟨s', .refused hreach hs', href'⟩
    · rw [alloc_nonpos (not_lt.mp hpos), Option.some.injEq, Prod.mk.injEq] at hs
      exact ⟨s, hreach, hs.2 ▸ href⟩
  | @alloc m m' live size o a _ ho hs ih =>
    obtain ⟨s, hreach, href⟩ := ih
    have hpos : 0 < size := by
      by_contra hle
      rw [alloc_nonpos (not_lt.mp hle)] at hs
      simp at hs
    obtain ⟨r, s', m₁, hs', hm₁, href'⟩ := alloc_refines (reach_inv hreach) href hpos ho
    rw [hm₁, Option.some.injEq, Prod.mk.injEq] at hs
    obtain ⟨rfl, rfl⟩ := hs
    exact ⟨s', .alloc hreach ho hs', href'⟩
  | @free m m' live b _ hb hs ih =>
    obtain ⟨s, hreach, href⟩ := ih
    obtain ⟨s', m₁, hs', hm₁, href'⟩ := free_refines (reach_inv hreach) href hb
    rw [hm₁, Option.some.injEq] at hs
    exact ⟨s', .free hreach hb hs', hs ▸ href'⟩

theorem dump_eq {lists : ℕ → List ℕ} (h : Rings m.links lists) {n : ℕ} (hn : nPages < n) :
    Pointers.buddyDump n m = some ((List.range' minOrder (maxOrder + 1 - minOrder)).map fun o =>
      ((lists o).length, 2 ^ o / 1024)) := by
  have hall : ∀ l : List ℕ, (∀ o ∈ l, Order o) → (l.mapM fun o => do
      let nodes ← listForEach (.area o) m.links n (m.links.next (.area o))
      return (nodes.length, 2 ^ o / 1024)) = some (l.map fun o => ((lists o).length, 2 ^ o / 1024)) := by
    intro l hl
    induction l with
    | nil => rfl
    | cons o l ih =>
      rw [List.mapM_cons, h.forEach (hl o (List.mem_cons_self ..)) hn,
        ih fun o' ho' => hl o' (List.mem_cons_of_mem o ho')]
      simp
  exact hall _ fun o ho => mem_orders.mp ho

/-- **The free lists are well-formed rings** in every memory that can be reached: the nine rings have the
free blocks of their orders, and the other pages point to themselves; a list is empty if and only if no block
of its order is free; every call of `list_add` was for a page on no ring and every call of `list_del_init`
took a page off the ring of its order and did nothing else; the traversals of `buddy_dump` end; and the next
call of `buddy_alloc` or `buddy_free` has a result, but for a shift that is too large. -/
theorem free_lists (h : Pointers.Reach m live) : ∃ lists, Rings m.links lists ∧
    (∀ o i, i ∈ lists o ↔ FreeBlock live ⟨pageToAddr i, o⟩) ∧
    (∀ o, Order o → (listEmpty (.area o) m.links = true ↔ ∀ b, FreeBlock live b → b.order ≠ o)) ∧
    (∀ c ∈ m.calls, Proper c) ∧
    (∀ n, nPages < n → Pointers.buddyDump n m = some
      ((List.range' minOrder (maxOrder + 1 - minOrder)).map fun o => ((lists o).length, 2 ^ o / 1024))) ∧
    (∀ size, Pointers.buddyAlloc size m = none → requestOrder size = .error .shift) ∧
    ∀ b ∈ live, ∃ m', Pointers.buddyFree b.off m = some m' := by
  obtain ⟨s, hreach, href⟩ := reach_refines h
  have hinv := reach_inv hreach
  refine ⟨s.freeArea, href.rings, fun o i => ?_, fun o ho => ?_, href.calls,
    fun n hn => dump_eq href.rings hn, fun size hnone => ?_, fun b hb => ?_⟩
  · rw [mem_area_iff hinv, mem_freeBlocks_iff hinv]
  · rw [href.rings.empty_iff ho]
    constructor
    · rintro hnil b hb rfl
      obtain ⟨-, i, hi, -⟩ := mem_freeBlocks.mp ((mem_freeBlocks_iff hinv).mpr hb)
      rw [hnil] at hi
      simp at hi
    · intro hno
      refine List.eq_nil_iff_forall_not_mem.mpr fun i hi => ?_
      exact hno _ ((mem_freeBlocks_iff hinv).mp (hinv.mem_free hi)) rfl
  · have hpos : 0 < size := by
      by_contra hle
      rw [alloc_nonpos (not_lt.mp hle)] at hnone
      cases hnone
    cases ho : requestOrder size with
    | error e => rw [orderLoop_error ho]
    | ok o =>
      obtain ⟨r, s', m', -, hm', -⟩ := alloc_refines hinv href hpos ho
      rw [hm'] at hnone
      cases hnone
  · obtain ⟨s', m', -, hm', -⟩ := free_refines hinv href hb
    exact ⟨m', hm'⟩

/-- One page is allocated, all pointers being `NULL` before. -/
theorem free_lists_alloc : ∃ m₀ m, Pointers.buddyInit ⟨fun _ => none, fun _ => none⟩ = some m₀ ∧
    Pointers.buddyAlloc 4096 m₀ = some (some 0, m) ∧ (∃ lists, Rings m.links lists) ∧
      ∀ c ∈ m.calls, Proper c := by
  obtain ⟨m₀, h₀, href⟩ := init_refines ⟨fun _ => none, fun _ => none⟩
  have ho : requestOrder 4096 = .ok 12 := rfl
  obtain ⟨r, s, m, hs, hm, -⟩ := alloc_refines init_inv href (by decide) ho
  obtain rfl : some 0 = r := congrArg (fun x => (x.toOption.bind Prod.fst)) hs
  obtain ⟨lists, hrings, -, -, hcalls, -⟩ := free_lists (.alloc (.init h₀) ho hm)
  exact ⟨m₀, m, h₀, hm, ⟨lists, hrings⟩, hcalls⟩

end Eecs678.Buddy.PointersRefine
