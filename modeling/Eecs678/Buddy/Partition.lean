import Eecs678.Buddy.Invariant

/-!
# The blocks of a reachable allocator partition the memory

One lemma says what each loop of `buddy.c` does, one what each function does, and `reach_inv` that
the invariant holds of every reachable allocator; `partition` reads the partition off it.
-/

namespace Eecs678.Buddy.Partition

open Eecs678.Lib.Dyadic Eecs678.Buddy.Model Eecs678.Buddy.Invariant

/-! ### The orders the loops of `buddy_alloc` choose -/

theorem orderLoop_spec {size : ℤ} : ∀ {n k o : ℕ}, orderLoop size n k = .ok o →
    k ≤ o ∧ o < k + n ∧ size ≤ 2 ^ o ∧ ∀ j, k ≤ j → j < o → (2 : ℤ) ^ j < size
  | 0, k, o, h => by simp [orderLoop] at h
  | n + 1, k, o, h => by
    unfold orderLoop at h
    split_ifs at h with hlt
    · obtain ⟨h1, h2, h3, h4⟩ := orderLoop_spec h
      refine ⟨by omega, by omega, h3, fun j hj hjo => ?_⟩
      rcases Nat.eq_or_lt_of_le hj with rfl | hj
      · exact hlt
      · exact h4 j hj hjo
    · simp only [Except.ok.injEq] at h
      subst h
      exact ⟨le_rfl, by omega, not_lt.mp hlt, fun j hj hjo => by omega⟩

theorem orderLoop_error {size : ℤ} : ∀ {n k : ℕ} {e : Fault}, orderLoop size n k = .error e → e = .shift
  | 0, _, _, h => (Except.error.inj h).symm
  | n + 1, k, e, h => by
    unfold orderLoop at h
    split_ifs at h
    exact orderLoop_error h

theorem orderLoop_ok {size : ℤ} : ∀ {n k o : ℕ}, k ≤ o → o < k + n → size ≤ 2 ^ o →
    ∃ r, orderLoop size n k = .ok r
  | 0, k, o, h1, h2, _ => by omega
  | n + 1, k, o, h1, h2, h3 => by
    unfold orderLoop
    split_ifs with hlt
    · have hne : k ≠ o := by rintro rfl; omega
      exact orderLoop_ok (o := o) (by omega) (by omega) h3
    · exact ⟨k, rfl⟩

/-- A request of at most `2 ^ 30` bytes shifts by at most 30 places. -/
theorem requestOrder_ok {size : ℤ} (h : size ≤ 2 ^ 30) : ∃ o, requestOrder size = .ok o :=
  orderLoop_ok (o := 30) (by decide) (by decide) h

theorem foundLoop_spec (s : Allocator) : ∀ (n k : ℕ), k ≤ foundLoop s n k ∧
    foundLoop s n k ≤ k + n ∧ (foundLoop s n k < k + n → s.freeArea (foundLoop s n k) ≠ []) ∧
      ∀ j, k ≤ j → j < foundLoop s n k → s.freeArea j = []
  | 0, k => ⟨le_rfl, le_rfl, fun h => absurd h (lt_irrefl _), fun j h1 h2 => absurd h2 (by
      unfold foundLoop; omega)⟩
  | n + 1, k => by
    unfold foundLoop
    split_ifs with he
    · obtain ⟨h1, h2, h3, h4⟩ := foundLoop_spec s n (k + 1)
      refine ⟨by omega, by omega, fun h => h3 (by omega), fun j hj hjo => ?_⟩
      rcases Nat.eq_or_lt_of_le hj with rfl | hj
      · exact List.isEmpty_iff.mp he
      · exact h4 j hj hjo
    · exact ⟨le_rfl, by omega, fun _ h => he (by rw [h]; rfl), fun j h1 h2 => by omega⟩

/-! ### `buddy_alloc` -/

theorem splitLoop_inv {i order : ℕ} {live : List Blk} (ho : minOrder ≤ order) :
    ∀ (n : ℕ) {s : Allocator}, Inv s [⟨pageToAddr i, order + n⟩] live →
      ∃ s', splitLoop i order n s = .ok s' ∧ Inv s' [⟨pageToAddr i, order⟩] live
  | 0, s, h => ⟨s, rfl, h⟩
  | n + 1, s, h => by
    obtain ⟨s1, h1, hinv⟩ := h.cut (k := order + n) (by omega)
    obtain ⟨s', hs', hfin⟩ := splitLoop_inv ho n (hinv.setHandOrder (order + n))
    refine ⟨s', ?_, hfin⟩
    unfold splitLoop
    simp only [bind, Except.bind] at h1 ⊢
    split at h1
    · simp at h1
    · rw [h1]; exact hs'

/-- No list holds a block of a larger order than the memory. -/
theorem area_empty {s : Allocator} {hand live : List Blk} (h : Inv s hand live) {j : ℕ}
    (hj : maxOrder < j) : s.freeArea j = [] :=
  List.eq_nil_iff_forall_not_mem.mpr fun i hi => absurd (h.area j i hi).2 (not_le.mpr hj)

/-- **`buddy_alloc` step by step**, once the order is chosen: all lists from that order on are empty and
it refuses, or it takes the first block of the first list that is not and splits it. -/
theorem alloc_spec {s : Allocator} {live : List Blk} {size : ℤ} {o : ℕ} (h : Inv s [] live)
    (hpos : 0 < size) (ho : requestOrder size = .ok o) :
    (buddyAlloc size s = .ok (none, s) ∧ ∀ j, o ≤ j → s.freeArea j = []) ∨
      ∃ found i rest s₁, o ≤ found ∧ found ≤ maxOrder ∧ s.freeArea found = i :: rest ∧
        (∀ j, o ≤ j → j < found → s.freeArea j = []) ∧
        splitLoop i o (found - o) (setFree i false (listDelInit i s)) = .ok s₁ ∧
        Inv s₁ [⟨pageToAddr i, o⟩] live ∧
        buddyAlloc size s = .ok (some (pageToAddr i), setPage i ⟨o, false⟩ s₁) := by
  have hmin : minOrder ≤ o := (orderLoop_spec ho).1
  unfold buddyAlloc
  rw [if_neg (not_le.mpr hpos), ho]
  simp only [bind, Except.bind]
  by_cases hmax : maxOrder < o
  · left
    rw [if_pos hmax]
    exact ⟨rfl, fun j hj => area_empty h (hmax.trans_le hj)⟩
  rw [if_neg hmax]
  obtain ⟨h1, h2, h3, h4⟩ := foundLoop_spec s (maxOrder + 1 - o) o
  generalize foundLoop s (maxOrder + 1 - o) o = found at *
  by_cases hf : maxOrder < found
  · left
    rw [if_pos hf]
    refine ⟨rfl, fun j hj => ?_⟩
    rcases Nat.lt_or_ge j found with hlt | hge
    · exact h4 j hj hlt
    · exact area_empty h (hf.trans_le hge)
  rw [if_neg hf]
  right
  obtain ⟨i, rest, hil⟩ := List.exists_cons_of_ne_nil (h3 (by omega))
  have hi : i ∈ s.freeArea found := by rw [hil]; simp
  have ht : Inv (setFree i false (listDelInit i s)) [⟨pageToAddr i, o + (found - o)⟩] live := by
    rw [Nat.add_sub_cancel' h1]
    exact (h.take hi).setHandFree false
  obtain ⟨s₁, hs₁, hinv⟩ := splitLoop_inv hmin _ ht
  refine ⟨found, i, rest, s₁, h1, not_lt.mp hf, hil, h4, hs₁, hinv, ?_⟩
  rw [hil]
  simp only [hs₁]
  rfl

/-- **What `buddy_alloc` does** to an allocator with the invariant, once the order is chosen: it
refuses and changes nothing, or it hands out a block of that order. -/
theorem alloc_inv {s : Allocator} {live : List Blk} {size : ℤ} {o : ℕ} (h : Inv s [] live)
    (hpos : 0 < size) (ho : requestOrder size = .ok o) :
    buddyAlloc size s = .ok (none, s) ∨
      ∃ a s', buddyAlloc size s = .ok (some a, s') ∧ Inv s' [] (⟨a, o⟩ :: live) := by
  rcases alloc_spec h hpos ho with ⟨h1, -⟩ | ⟨found, i, rest, s₁, -, -, -, -, -, hinv, h1⟩
  · exact Or.inl h1
  · refine Or.inr ⟨_, _, h1, ?_⟩
    exact (hinv.setHandPage ⟨o, false⟩).give (by rw [addrToPage_pageToAddr, gPages_setPage, if_pos rfl])

theorem alloc_nonpos {s : Allocator} {size : ℤ} (h : size ≤ 0) :
    buddyAlloc size s = .ok (none, s) := by
  unfold buddyAlloc; rw [if_pos h]

/-- A request that gets a block is positive and has an order. -/
theorem order_of_alloc {s s' : Allocator} {size : ℤ} {a : ℕ}
    (hs : buddyAlloc size s = .ok (some a, s')) : 0 < size ∧ ∃ o, requestOrder size = .ok o := by
  by_cases hpos : size ≤ 0
  · rw [alloc_nonpos hpos] at hs
    simp at hs
  · refine ⟨not_le.mp hpos, ?_⟩
    cases ho : requestOrder size with
    | ok o => exact ⟨o, rfl⟩
    | error e =>
      unfold buddyAlloc at hs
      simp [if_neg hpos, ho, bind, Except.bind] at hs

/-- A request that is refused changes nothing. -/
theorem alloc_none {s s' : Allocator} {live : List Blk} {size : ℤ} (h : Inv s [] live)
    (hs : buddyAlloc size s = .ok (none, s')) : s' = s := by
  by_cases hpos : size ≤ 0
  · rw [alloc_nonpos hpos, Except.ok.injEq, Prod.mk.injEq] at hs
    exact hs.2.symm
  · cases ho : requestOrder size with
    | error e =>
      unfold buddyAlloc at hs
      simp [if_neg hpos, ho, bind, Except.bind] at hs
    | ok o =>
      rcases alloc_inv h (not_le.mp hpos) ho with h1 | ⟨a, s₁, h1, -⟩
      · rw [h1, Except.ok.injEq, Prod.mk.injEq] at hs
        exact hs.2.symm
      · rw [h1] at hs; simp at hs

/-- `buddy_alloc` has a result for every request of at most `2 ^ 30` bytes. -/
theorem alloc_ok {s : Allocator} {live : List Blk} {size : ℤ} (h : Inv s [] live)
    (hs : size ≤ 2 ^ 30) : ∃ r, buddyAlloc size s = .ok r := by
  by_cases hpos : size ≤ 0
  · exact ⟨_, alloc_nonpos hpos⟩
  · obtain ⟨o, ho⟩ := requestOrder_ok hs
    rcases alloc_inv h (not_le.mp hpos) ho with h1 | ⟨a, s', h1, -⟩ <;> exact ⟨_, h1⟩

/-! ### `buddy_free` -/

/-- The allocator after the block in hand is merged with its free buddy. -/
def merged (a k : ℕ) (s : Allocator) : Allocator :=
  setPage (addrToPage (min a (buddyAddr a k))) ⟨k + 1, true⟩
    (setFree (addrToPage (buddyAddr a k)) false (listDelInit (addrToPage (buddyAddr a k)) s))

theorem merged_inv {s : Allocator} {live : List Blk} {a k : ℕ} (h : Inv s [⟨a, k⟩] live)
    (hfree : addrToPage (buddyAddr a k) ∈ s.freeArea k) :
    Inv (merged a k s) [⟨min a (buddyAddr a k), k + 1⟩] live := (h.merge hfree).setHand ⟨k + 1, true⟩

/-- A merge touches one list only. -/
theorem merged_area_ne {s : Allocator} {live : List Blk} {a k j : ℕ} (h : Inv s [⟨a, k⟩] live)
    (hfree : addrToPage (buddyAddr a k) ∈ s.freeArea k) (hj : j ≠ k) :
    (merged a k s).freeArea j = s.freeArea j :=
  List.erase_of_not_mem fun hi => hj (h.area_unique hfree hi)

theorem merged_page (a k : ℕ) (s : Allocator) :
    (merged a k s).gPages (addrToPage (min a (buddyAddr a k))) = ⟨k + 1, true⟩ := by
  rw [merged, gPages_setPage, if_pos rfl]

/-- The page of the buddy of a small block is an entry of `g_pages`. -/
theorem buddyAddr_lt {s : Allocator} {live : List Blk} {a k : ℕ} (h : Inv s [⟨a, k⟩] live)
    (hk : k < maxOrder) : buddyAddr a k < 2 ^ maxOrder :=
  buddyOff_lt hk (h.tiles.off_lt (b := ⟨a, k⟩) (by simp))

/-- **The coalescing loop stops** at a block whose buddy is not free. -/
theorem coalesce_stop {s : Allocator} {live : List Blk} {a k : ℕ} (h : Inv s [⟨a, k⟩] live)
    (hk : k < maxOrder) (hfree : addrToPage (buddyAddr a k) ∉ s.freeArea k) (n : ℕ) :
    coalesceLoop (n + 1) a (addrToPage a) k s = .ok (addrToPage a, k, s) := by
  have hnot := mt (h.buddy_free rfl hk).mp hfree
  unfold coalesceLoop
  simp only [checkPage_ok (buddyAddr_lt h hk), bind, Except.bind]
  rw [if_pos (by
    by_contra hc
    refine hnot ?_
    simpa using hc)]
  rfl

/-- The merged block and its page are those of the lower address. -/
theorem lower_page (a k : ℕ) : (if buddyAddr a k < a then (buddyAddr a k, addrToPage (buddyAddr a k))
    else (a, addrToPage a)) = (min a (buddyAddr a k), addrToPage (min a (buddyAddr a k))) := by
  split_ifs with hba
  · rw [min_eq_right hba.le]
  · rw [min_eq_left (not_lt.mp hba)]

/-- **The coalescing loop merges** a block with its free buddy, and goes on with the next order. -/
theorem coalesce_merge {s : Allocator} {live : List Blk} {a k : ℕ} (h : Inv s [⟨a, k⟩] live)
    (hk : k < maxOrder) (hfree : addrToPage (buddyAddr a k) ∈ s.freeArea k) (n : ℕ) :
    coalesceLoop (n + 1) a (addrToPage a) k s =
      coalesceLoop n (min a (buddyAddr a k)) (addrToPage (min a (buddyAddr a k))) (k + 1)
        (merged a k s) := by
  rw [coalesceLoop]
  simp only [checkPage_ok (buddyAddr_lt h hk), bind, Except.bind]
  rw [h.free_page _ _ hfree, if_neg (by simp), lower_page]
  rfl

/-- The coalescing loop ends with a block whose page says what it is and whose buddy is not free. -/
theorem coalesceLoop_inv {live : List Blk} : ∀ (n : ℕ) {a k : ℕ} {s : Allocator},
    n = maxOrder - k → Inv s [⟨a, k⟩] live → s.gPages (addrToPage a) = ⟨k, true⟩ →
      ∃ i k' s', coalesceLoop n a (addrToPage a) k s = .ok (i, k', s') ∧
        Inv s' [⟨pageToAddr i, k'⟩] live ∧ s'.gPages i = ⟨k', true⟩ ∧
        (k' < maxOrder → (⟨pageToAddr i, k'⟩ : Blk).buddy ∉ freeBlocks s')
  | 0, a, k, s, hn, h, hp => by
    have ha : pageToAddr (addrToPage a) = a :=
      pageToAddr_addrToPage (h.tiles.aligned ⟨a, k⟩ (by simp)) (h.order_ge ⟨a, k⟩ (by simp))
    exact ⟨_, _, _, rfl, by rwa [ha], hp, fun hk => by omega⟩
  | n + 1, a, k, s, hn, h, hp => by
    have hk : k < maxOrder := by omega
    by_cases hfree : addrToPage (buddyAddr a k) ∈ s.freeArea k
    · rw [coalesce_merge h hk hfree]
      exact coalesceLoop_inv n (by omega) (merged_inv h hfree) (merged_page a k s)
    · have ha : pageToAddr (addrToPage a) = a :=
        pageToAddr_addrToPage (h.tiles.aligned ⟨a, k⟩ (by simp)) (h.order_ge ⟨a, k⟩ (by simp))
      refine ⟨_, _, _, coalesce_stop h hk hfree n, by rwa [ha], hp, fun _ hbud => hfree ?_⟩
      rw [ha] at hbud
      obtain ⟨-, i, hi, he⟩ := mem_freeBlocks.mp hbud
      have he' : buddyAddr a k = pageToAddr i := he
      rwa [he', addrToPage_pageToAddr]

/-- **`buddy_free` step by step**: the coalescing loop starts with the live block in hand, and the block
it ends with is put on its list. -/
theorem free_spec {s : Allocator} {live : List Blk} {b : Blk} (h : Inv s [] live) (hb : b ∈ live) :
    Inv (setFree (addrToPage b.off) true s) [b] (live.erase b) ∧
      (setFree (addrToPage b.off) true s).gPages (addrToPage b.off) = ⟨b.order, true⟩ ∧
      ∃ i k s₁ s', coalesceLoop (maxOrder - b.order) b.off (addrToPage b.off) b.order
          (setFree (addrToPage b.off) true s) = .ok (i, k, s₁) ∧
        Inv s₁ [⟨pageToAddr i, k⟩] (live.erase b) ∧ listAdd i k s₁ = .ok s' ∧
        buddyFree b.off s = .ok s' ∧ Inv s' [] (live.erase b) := by
  have hp := h.live_page b hb
  have hr := (h.takeLive hb).setHand ⟨b.order, true⟩
  have hlt := h.tiles.off_lt (b := b) (by simp [hb])
  have hset : setFree (addrToPage b.off) true s = setPage (addrToPage b.off) ⟨b.order, true⟩ s := by
    rw [setFree, hp]
  have hpage : (setPage (addrToPage b.off) ⟨b.order, true⟩ s).gPages (addrToPage b.off) =
      ⟨b.order, true⟩ := by rw [gPages_setPage, if_pos rfl]
  rw [hset]
  obtain ⟨i, k, s₁, h1, hinv, hp₁, hn⟩ := coalesceLoop_inv (maxOrder - b.order) rfl hr hpage
  obtain ⟨s', hs', -, hfin⟩ := hinv.put hp₁ hn
  refine ⟨hr, hpage, i, k, s₁, s', h1, hinv, hs', ?_, hfin⟩
  unfold buddyFree
  simp only [checkPage_ok hlt, bind, Except.bind, hp, hset, h1]
  exact hs'

/-- **What `buddy_free` does** with a live block. -/
theorem free_inv {s : Allocator} {live : List Blk} {b : Blk} (h : Inv s [] live) (hb : b ∈ live) :
    ∃ s', buddyFree b.off s = .ok s' ∧ Inv s' [] (live.erase b) := by
  obtain ⟨-, -, i, k, s₁, s', -, -, -, h1, h2⟩ := free_spec h hb
  exact ⟨s', h1, h2⟩

/-! ### Every reachable allocator -/

theorem init_inv : Inv buddyInit [] [] where
  tiles := by
    have : freeBlocks buddyInit ++ ([] ++ []) = [⟨0, maxOrder⟩] := by decide
    rw [this]; exact tiles_whole maxOrder
  order_ge := by simp
  area o i hi := by
    by_cases ho : o = maxOrder
    · subst ho; decide
    · simp [buddyInit, Function.update_of_ne ho] at hi
  free_page o i hi := by
    by_cases ho : o = maxOrder
    · subst ho
      simp only [buddyInit, Function.update_self, List.mem_singleton] at hi ⊢
      rw [hi, Function.update_self]
    · simp [buddyInit, Function.update_of_ne ho] at hi
  live_page := by simp
  noBuddy := by decide

theorem reach_inv {s : Allocator} {live : List Blk} (h : Reach s live) : Inv s [] live := by
  induction h with
  | init => exact init_inv
  | refused _ hs ih =>
    rw [alloc_none ih hs]
    exact ih
  | @alloc s s' live size o a _ ho hs ih =>
    rcases alloc_inv ih (order_of_alloc hs).1 ho with h1 | ⟨a', s1, h1, hinv⟩
    · rw [h1] at hs; simp at hs
    · rw [h1] at hs
      simp only [Except.ok.injEq, Prod.mk.injEq, Option.some.injEq] at hs
      obtain ⟨rfl, rfl⟩ := hs
      exact hinv
  | free _ hb hs ih =>
    obtain ⟨s1, h1, hinv⟩ := free_inv ih hb
    rw [h1] at hs
    simp only [Except.ok.injEq] at hs
    exact hs ▸ hinv

/-- The bytes of the blocks on the free lists, from the counts that `buddy_dump` prints. -/
def dumpBytes (s : Allocator) : ℕ := ((buddyDump s).map fun c => c.1 * (c.2 * 1024)).sum

theorem dumpBytes_eq (s : Allocator) :
    dumpBytes s = ((freeBlocks s).map fun b => 2 ^ b.order).sum := by
  unfold dumpBytes buddyDump freeBlocks
  rw [List.map_map, List.map_flatMap, List.flatMap_def, List.sum_flatten, List.map_map]
  congr 1
  refine List.map_congr_left fun o ho => ?_
  have hdv : 1024 ∣ 2 ^ o := by
    rw [show (1024 : ℕ) = 2 ^ 10 by norm_num]
    exact pow_dvd_pow 2 (by have := (mem_orders.mp ho).1; simp only [minOrder] at this; omega)
  simp only [Function.comp_apply, List.map_map, Nat.div_mul_cancel hdv]
  simp [Function.comp_def]

/-- **The free blocks and the live blocks partition `g_memory`.** In every reachable allocator they
are pairwise disjoint, each lies inside at a multiple of its own size, no page is twice on the free
lists, together they cover every byte, the counts of `buddy_dump` and the live blocks weigh up to
`2 ^ 20`; and every further call, a request of up to `2 ^ 30` bytes or a free of a live block, stays
inside `g_pages`. -/
theorem partition {s : Allocator} {live : List Blk} (h : Reach s live) :
    (freeBlocks s ++ live).Pairwise Apart ∧
      (∀ b ∈ freeBlocks s ++ live, 2 ^ b.order ∣ b.off ∧ b.off + 2 ^ b.order ≤ 2 ^ maxOrder) ∧
      ((List.range' minOrder (maxOrder + 1 - minOrder)).flatMap s.freeArea).Nodup ∧
      (∀ x < 2 ^ maxOrder, ∃ b ∈ freeBlocks s ++ live, x ∈ b) ∧
      dumpBytes s = 2 ^ maxOrder - (live.map fun b => 2 ^ b.order).sum ∧
      (live.map fun b => 2 ^ b.order).sum ≤ 2 ^ maxOrder ∧
      (∀ size : ℤ, size ≤ 2 ^ 30 → ∃ r, buddyAlloc size s = .ok r) ∧
      ∀ b ∈ live, ∃ s', buddyFree b.off s = .ok s' := by
  have hinv := reach_inv h
  have ht := hinv.tiles
  rw [List.nil_append] at ht
  have hsum := ht.sum
  rw [List.map_append, List.sum_append, ← dumpBytes_eq] at hsum
  refine ⟨ht.apart, fun b hb => ⟨ht.aligned b hb, ht.inside b hb⟩, ?_, ht.cover, by omega, by omega,
    fun size hs => alloc_ok hinv hs, fun b hb => ?_⟩
  · rw [List.nodup_flatMap]
    refine ⟨fun o _ => hinv.area_nodup o, (List.nodup_range' ..).imp fun hne => ?_⟩
    rw [Function.onFun, List.disjoint_left]
    exact fun i hi hi' => hne (hinv.area_unique hi' hi)
  · obtain ⟨s', hs', -⟩ := free_inv hinv hb
    exact ⟨s', hs'⟩

/-- The partition after a request of 80K. -/
theorem partition_alloc80K : ∃ s : Allocator, buddyAlloc 81920 buddyInit = .ok (some 0, s) ∧
    (freeBlocks s ++ [(⟨0, 17⟩ : Blk)]).Pairwise Apart ∧ dumpBytes s = 2 ^ 20 - 2 ^ 17 := by
  obtain ⟨s, h⟩ : ∃ s, buddyAlloc 81920 buddyInit = .ok (some 0, s) := ⟨_, rfl⟩
  obtain ⟨h1, -, -, -, h2, -⟩ :=
    partition (.alloc .init (show requestOrder 81920 = .ok 17 from rfl) h)
  exact ⟨s, h, h1, h2⟩

end Eecs678.Buddy.Partition
