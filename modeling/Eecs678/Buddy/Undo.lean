import Eecs678.Buddy.Partition

/-!
# A free right after an allocation undoes it

A split puts the right half in front of the list of its order (`splitLoop_area`); the coalescing loop
takes these halves away again, the smallest first (`coalesceLoop_right`), and stops at the order of the
block that was split, because the buddy of that block is not free. So `free_alloc`: all lists are as
they were before.
-/

namespace Eecs678.Buddy.Undo

open Eecs678.Lib.Dyadic Eecs678.Buddy.Model Eecs678.Buddy.Invariant Eecs678.Buddy.Partition

theorem splitLoop_area {i order : ℕ} : ∀ (n : ℕ) {s s' : Allocator}, minOrder ≤ order →
    order + n ≤ maxOrder + 1 → splitLoop i order n s = .ok s' → ∀ j, s'.freeArea j =
      if order ≤ j ∧ j < order + n then addrToPage (buddyAddr (pageToAddr i) j) :: s.freeArea j
      else s.freeArea j
  | 0, s, s', _, _, h, j => by
    rw [splitLoop, Except.ok.injEq] at h
    rw [if_neg (by omega), h]
  | n + 1, s, s', ho, hn, h, j => by
    unfold splitLoop at h
    simp only [bind, Except.bind] at h
    split at h
    · simp at h
    rw [listAdd_ok _ _ (by omega) (by omega)] at h
    rw [splitLoop_area n ho (by omega) h j]
    simp only [setOrder, freeArea_setPage, Function.update_apply]
    by_cases hj : j = order + n
    · subst hj
      rw [if_neg (by omega), if_pos rfl, if_pos (by omega)]
    · rw [if_neg hj]
      split_ifs with h1 h2 h2
      · rfl
      · omega
      · omega
      · rfl

theorem min_buddyAddr {a k : ℕ} (h : 2 ^ (k + 1) ∣ a) : min a (buddyAddr a k) = a := by
  rw [show buddyAddr a k = a + 2 ^ k from buddyOff_of_dvd h]
  exact min_eq_left (Nat.le_add_right ..)

theorem merged_area {s : Allocator} {live : List Blk} {a k : ℕ} (h : Inv s [⟨a, k⟩] live)
    (hd : (s.freeArea k).head? = some (addrToPage (buddyAddr a k))) (j : ℕ) :
    (merged a k s).freeArea j = if j = k then (s.freeArea k).tail else s.freeArea j := by
  obtain ⟨t, ht⟩ := List.head?_eq_some_iff.mp hd
  have hmem : addrToPage (buddyAddr a k) ∈ s.freeArea k := by rw [ht]; exact List.mem_cons_self ..
  split_ifs with hj
  · have harea : (merged a k s).freeArea j = (s.freeArea j).erase (addrToPage (buddyAddr a k)) := rfl
    rw [harea, hj, ht, List.erase_cons_head, List.tail_cons]
  · exact merged_area_ne h hmem hj

/-- **The coalescing loop takes the right halves away**, if each is in front of its list. -/
theorem coalesceLoop_right {live : List Blk} {a n : ℕ} : ∀ (m : ℕ) {k : ℕ} {s : Allocator},
    Inv s [⟨a, k⟩] live → 2 ^ (k + m) ∣ a → k + m ≤ maxOrder →
      (∀ j, k ≤ j → j < k + m → (s.freeArea j).head? = some (addrToPage (buddyAddr a j))) →
        ∃ s', coalesceLoop (m + n) a (addrToPage a) k s =
            coalesceLoop n a (addrToPage a) (k + m) s' ∧ Inv s' [⟨a, k + m⟩] live ∧
          ∀ j, s'.freeArea j = if k ≤ j ∧ j < k + m then (s.freeArea j).tail else s.freeArea j
  | 0, k, s, h, _, _, _ =>
    ⟨s, by rw [Nat.zero_add]; rfl, h, fun j => by rw [if_neg (by omega)]⟩
  | m + 1, k, s, h, hal, hmax, hd => by
    have hk := hd k le_rfl (by omega)
    have hmin : min a (buddyAddr a k) = a :=
      min_buddyAddr (dvd_trans (pow_dvd_pow 2 (by omega)) hal)
    have hfree : addrToPage (buddyAddr a k) ∈ s.freeArea k := List.mem_of_mem_head? hk
    have hinv := merged_inv h hfree
    rw [hmin] at hinv
    have harea := merged_area h hk
    obtain ⟨s', h1, h2, h3⟩ := coalesceLoop_right m (n := n) hinv
      (by rwa [show k + 1 + m = k + (m + 1) by omega]) (by omega) fun j hj hjm => by
        rw [harea, if_neg (by omega)]
        exact hd j (by omega) (by omega)
    rw [show k + 1 + m = k + (m + 1) by omega] at h1 h2 h3
    refine ⟨s', ?_, h2, fun j => ?_⟩
    · rw [show m + 1 + n = m + n + 1 by omega, coalesce_merge h (by omega) hfree, hmin]
      exact h1
    · rw [h3, harea]
      by_cases hj : j = k
      · rw [if_pos hj, if_neg (by omega), if_pos (by omega), hj]
      · rw [if_neg hj]
        by_cases hr : k + 1 ≤ j ∧ j < k + (m + 1)
        · rw [if_pos hr, if_pos (by omega)]
        · rw [if_neg hr, if_neg (by omega)]

section

variable {s s₁ : Allocator} {live : List Blk} {i o m : ℕ} {rest : List ℕ}

/-- The lists after the first block of order `o + m` is split down to order `o`. -/
theorem split_area (h : Inv s [] live) (hmin : minOrder ≤ o) (hmax : o + m ≤ maxOrder)
    (hil : s.freeArea (o + m) = i :: rest)
    (hsplit : splitLoop i o m (setFree i false (listDelInit i s)) = .ok s₁) (j : ℕ) :
    s₁.freeArea j = if o ≤ j ∧ j < o + m then
      addrToPage (buddyAddr (pageToAddr i) j) :: s.freeArea j
      else if j = o + m then rest else s.freeArea j := by
  have hi : i ∈ s.freeArea (o + m) := by rw [hil]; exact List.mem_cons_self ..
  have hdel : (setFree i false (listDelInit i s)).freeArea j =
      if j = o + m then rest else s.freeArea j := by
    change (s.freeArea j).erase i = _
    split_ifs with hj
    · rw [hj, hil, List.erase_cons_head]
    · exact List.erase_of_not_mem fun hij => hj (h.area_unique hi hij)
  rw [splitLoop_area m hmin (by omega) hsplit j, hdel]
  split_ifs with h3 h4
  · omega
  · rfl
  · rfl
  · rfl

/-- **The merges undo the splits**: the coalescing loop ends at order `o + m`, with the lists of before,
but for the block in hand. -/
theorem coalesce_back (h : Inv s [] live) (hmin : minOrder ≤ o) (hmax : o + m ≤ maxOrder)
    (hil : s.freeArea (o + m) = i :: rest) (h₁ : Inv s₁ [⟨pageToAddr i, o⟩] live)
    (harea : ∀ j, s₁.freeArea j = if o ≤ j ∧ j < o + m then
      addrToPage (buddyAddr (pageToAddr i) j) :: s.freeArea j
      else if j = o + m then rest else s.freeArea j) :
    ∃ s₂, coalesceLoop (maxOrder - o) (pageToAddr i) i o s₁ = .ok (i, o + m, s₂) ∧
      ∀ j, s₂.freeArea j = if j = o + m then rest else s.freeArea j := by
  have hi : i ∈ s.freeArea (o + m) := by rw [hil]; exact List.mem_cons_self ..
  have hal : 2 ^ (o + m) ∣ pageToAddr i :=
    h.tiles.aligned ⟨pageToAddr i, o + m⟩ (List.mem_append_left _ (h.mem_free hi))
  obtain ⟨s₂, hloop, h₂, harea₂⟩ := coalesceLoop_right m (n := maxOrder - (o + m)) h₁ hal hmax
    fun j h3 h4 => by rw [harea, if_pos ⟨h3, h4⟩, List.head?_cons]
  have hback : ∀ j, s₂.freeArea j = if j = o + m then rest else s.freeArea j := fun j => by
    rw [harea₂, harea]
    split_ifs with h3 h4
    · omega
    · rfl
    · rfl
    · rfl
  rw [show m + (maxOrder - (o + m)) = maxOrder - o by omega, addrToPage_pageToAddr] at hloop
  refine ⟨s₂, hloop.trans ?_, hback⟩
  by_cases hlast : o + m = maxOrder
  · rw [hlast, Nat.sub_self]
    rfl
  · -- the buddy of the block that was split is not free, before and after
    have hbud : addrToPage (buddyAddr (pageToAddr i) (o + m)) ∉ s₂.freeArea (o + m) := fun hb => by
      rw [hback, if_pos rfl] at hb
      have hmem := h.mem_free (show _ ∈ s.freeArea (o + m) by
        rw [hil]; exact List.mem_cons_of_mem _ hb)
      have he : pageToAddr (addrToPage (buddyAddr (pageToAddr i) (o + m))) =
          buddyAddr (pageToAddr i) (o + m) := pageToAddr_addrToPage (buddyOff_dvd hal) (by omega)
      rw [he] at hmem
      exact h.noBuddy _ (h.mem_free hi) (by simp only; omega) hmem
    have hstop := coalesce_stop h₂ (by omega) hbud (maxOrder - (o + m) - 1)
    rwa [show maxOrder - (o + m) - 1 + 1 = maxOrder - (o + m) by omega, addrToPage_pageToAddr]
      at hstop

end

/-- **A free right after an allocation undoes it.** When a reachable allocator hands out a block, then
freeing that block at once succeeds and leaves on every free list the pages that were there before the
allocation, in the same order. -/
theorem free_alloc {s s' : Allocator} {live : List Blk} {size : ℤ} {a : ℕ} (h : Reach s live)
    (hs : buddyAlloc size s = .ok (some a, s')) :
    ∃ s'', buddyFree a s' = .ok s'' ∧ ∀ o, s''.freeArea o = s.freeArea o := by
  have hinv := reach_inv h
  obtain ⟨hpos, o, ho⟩ := order_of_alloc hs
  rcases alloc_spec hinv hpos ho with ⟨he, -⟩ | ⟨found, i, rest, s₁, h1, h2, hil, -, hsplit, hinv₁, he⟩
  · rw [he] at hs; simp at hs
  rw [he, Except.ok.injEq, Prod.mk.injEq, Option.some.injEq] at hs
  obtain ⟨rfl, rfl⟩ := hs
  obtain ⟨m, rfl⟩ := Nat.exists_eq_add_of_le h1
  rw [Nat.add_sub_cancel_left] at hsplit
  have hmin : minOrder ≤ o := (orderLoop_spec ho).1
  have hinv₂ : Inv (setFree i true (setPage i ⟨o, false⟩ s₁)) [⟨pageToAddr i, o⟩] live := by
    have h3 := (hinv₁.setHandPage ⟨o, false⟩).setHandPage ⟨o, true⟩
    rwa [setFree, gPages_setPage, if_pos rfl]
  have harea := split_area hinv hmin h2 hil hsplit
  obtain ⟨s₂, hloop, hback⟩ := coalesce_back hinv hmin h2 hil hinv₂ harea
  refine ⟨{ s₂ with freeArea := Function.update s₂.freeArea (o + m) (i :: s₂.freeArea (o + m)) }, ?_,
    fun j => ?_⟩
  · have hcheck := checkPage_ok (hinv₁.tiles.off_lt (b := ⟨pageToAddr i, o⟩) (by simp))
    rw [addrToPage_pageToAddr] at hcheck
    unfold buddyFree
    simp only [addrToPage_pageToAddr, hcheck, bind, Except.bind, gPages_setPage, if_true, hloop]
    exact listAdd_ok i s₂ (Nat.le_add_right_of_le hmin) h2
  · simp only [Function.update_apply, hback, if_true]
    split_ifs with hj
    · rw [hj, hil]
    · rfl

theorem free_alloc_init : ∃ s' s'' : Allocator, buddyAlloc 5000 buddyInit = .ok (some 0, s') ∧
    buddyFree 0 s' = .ok s'' ∧ ∀ o, s''.freeArea o = buddyInit.freeArea o := by
  obtain ⟨s', h⟩ : ∃ s', buddyAlloc 5000 buddyInit = .ok (some 0, s') := ⟨_, rfl⟩
  obtain ⟨s'', h1, h2⟩ := free_alloc .init h
  exact ⟨s', s'', h, h1, h2⟩

end Eecs678.Buddy.Undo
