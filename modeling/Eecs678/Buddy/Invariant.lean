import Eecs678.Buddy.Model

/-!
# What stays true of the allocator

The free blocks, the live blocks and the block in hand tile `g_memory` (`Inv.tiles`). The metadata of
a page is right when the page is the first one of a free block (`Inv.free_page`) or of a live block
(`Inv.live_page`); about other pages nothing is said, because `buddy_free` leaves the old `order` and
`free` on a page it absorbs. That is enough: the page that the coalescing loop looks at is always
the first one of a block of the tiling (`Tiles.buddy_head`).

Each access of the two loops is one lemma: a block is taken from its list (`Inv.take`), the block in
hand is cut (`Inv.cut`), it is merged with its free buddy (`Inv.merge`), it is put on its list
(`Inv.put`).
-/

namespace Eecs678.Buddy.Invariant

open Eecs678.Lib.Dyadic Eecs678.Buddy.Model

/-! ### Pages and addresses -/

theorem addrToPage_pageToAddr (i : ℕ) : addrToPage (pageToAddr i) = i :=
  Nat.mul_div_cancel i (Nat.two_pow_pos minOrder)

theorem pageToAddr_inj {i j : ℕ} (h : pageToAddr i = pageToAddr j) : i = j := by
  rw [← addrToPage_pageToAddr i, h, addrToPage_pageToAddr]

/-- The address of the first page of a block of a list order. -/
theorem pageToAddr_addrToPage {a k : ℕ} (h : 2 ^ k ∣ a) (hk : minOrder ≤ k) :
    pageToAddr (addrToPage a) = a :=
  Nat.div_mul_cancel (dvd_trans (pow_dvd_pow 2 hk) h)

theorem checkPage_ok {a : ℕ} (h : a < 2 ^ maxOrder) : checkPage (addrToPage a) = .ok () := by
  have : addrToPage a < nPages := by
    have hd : 2 ^ maxOrder / pageSize * pageSize = 2 ^ maxOrder :=
      Nat.div_mul_cancel (pow_dvd_pow 2 (by decide))
    rw [addrToPage, nPages, Nat.div_lt_iff_lt_mul (show 0 < pageSize from Nat.two_pow_pos _), hd]
    exact h
  rw [checkPage, if_pos this]

theorem listAdd_ok (i : ℕ) {o : ℕ} (s : Allocator) (h1 : minOrder ≤ o) (h2 : o ≤ maxOrder) :
    listAdd i o s =
      .ok { s with freeArea := Function.update s.freeArea o (i :: s.freeArea o) } := by
  rw [listAdd, checkArea, if_pos ⟨h1, h2⟩]; rfl

/-! ### The blocks on the free lists -/

theorem mem_orders {o : ℕ} :
    o ∈ List.range' minOrder (maxOrder + 1 - minOrder) ↔ minOrder ≤ o ∧ o ≤ maxOrder := by
  simp only [List.mem_range'_1, minOrder, maxOrder]; omega

theorem mem_freeBlocks {s : Allocator} {b : Blk} : b ∈ freeBlocks s ↔
    (minOrder ≤ b.order ∧ b.order ≤ maxOrder) ∧ ∃ i ∈ s.freeArea b.order, b.off = pageToAddr i := by
  simp only [freeBlocks, List.mem_flatMap, List.mem_map, mem_orders]
  constructor
  · rintro ⟨o, ho, i, hi, rfl⟩; exact ⟨ho, i, hi, rfl⟩
  · rintro ⟨ho, i, hi, he⟩; exact ⟨b.order, ho, i, hi, by rw [← he]⟩

@[simp] theorem freeBlocks_setPage (i : ℕ) (p : PageT) (s : Allocator) :
    freeBlocks (setPage i p s) = freeBlocks s := rfl

@[simp] theorem freeArea_setPage (i : ℕ) (p : PageT) (s : Allocator) :
    (setPage i p s).freeArea = s.freeArea := rfl

theorem gPages_setPage (i : ℕ) (p : PageT) (s : Allocator) (j : ℕ) :
    (setPage i p s).gPages j = if j = i then p else s.gPages j := by
  simp only [setPage, Function.update_apply]

/-- One list gets a new member. -/
theorem flatMap_perm_cons {α β : Type} {f f' : α → List β} {a : α} {x : β}
    (hx : (f' a).Perm (x :: f a)) :
    ∀ {l : List α}, l.Nodup → a ∈ l → (∀ b ∈ l, b ≠ a → f' b = f b) →
      (l.flatMap f').Perm (x :: l.flatMap f)
  | c :: l, hnd, ha, he => by
    obtain ⟨hc, hnd⟩ := List.nodup_cons.mp hnd
    simp only [List.flatMap_cons]
    by_cases hac : c = a
    · subst hac
      have hrest : l.flatMap f' = l.flatMap f := by
        rw [List.flatMap_def, List.flatMap_def, List.map_congr_left fun b hb =>
          he b (List.mem_cons_of_mem _ hb) fun h => hc (h ▸ hb)]
      rw [hrest]
      exact hx.append_right _
    · rw [he c (List.mem_cons_self ..) hac]
      have ih := flatMap_perm_cons hx hnd ((List.mem_cons.mp ha).resolve_left (Ne.symm hac))
        fun b hb => he b (List.mem_cons_of_mem _ hb)
      exact (ih.append_left _).trans List.perm_middle

theorem freeBlocks_add {s : Allocator} (i : ℕ) {o : ℕ} (h1 : minOrder ≤ o) (h2 : o ≤ maxOrder) :
    (freeBlocks { s with freeArea := Function.update s.freeArea o (i :: s.freeArea o) }).Perm
      (⟨pageToAddr i, o⟩ :: freeBlocks s) := by
  refine flatMap_perm_cons (a := o) ?_ List.nodup_range' (mem_orders.mpr ⟨h1, h2⟩) ?_
  · simp
  · intro b _ hb
    simp [Function.update_of_ne hb]

/-! ### The invariant -/

/-- The free blocks, the blocks in hand and the live blocks tile `g_memory`; the pages of free and
of live blocks say so; no free block has its buddy free. -/
structure Inv (s : Allocator) (hand live : List Blk) : Prop where
  tiles : Tiles maxOrder (freeBlocks s ++ (hand ++ live))
  order_ge : ∀ b ∈ hand ++ live, minOrder ≤ b.order
  area : ∀ o i, i ∈ s.freeArea o → minOrder ≤ o ∧ o ≤ maxOrder
  free_page : ∀ o i, i ∈ s.freeArea o → s.gPages i = ⟨o, true⟩
  live_page : ∀ b ∈ live, s.gPages (addrToPage b.off) = ⟨b.order, false⟩
  noBuddy : ∀ b ∈ freeBlocks s, b.order < maxOrder → b.buddy ∉ freeBlocks s

namespace Inv

variable {s : Allocator} {hand live : List Blk}

theorem mem_free (h : Inv s hand live) {o i : ℕ} (hi : i ∈ s.freeArea o) :
    (⟨pageToAddr i, o⟩ : Blk) ∈ freeBlocks s :=
  mem_freeBlocks.mpr ⟨h.area o i hi, i, hi, rfl⟩

/-- A page is on one list at most. -/
theorem area_unique (h : Inv s hand live) {o o' i : ℕ} (hi : i ∈ s.freeArea o)
    (hi' : i ∈ s.freeArea o') : o' = o := by
  have := h.free_page o i hi
  rw [h.free_page o' i hi'] at this
  exact congrArg PageT.order this

/-- No page is twice on a list. -/
theorem area_nodup (h : Inv s hand live) (o : ℕ) : (s.freeArea o).Nodup := by
  by_cases ho : minOrder ≤ o ∧ o ≤ maxOrder
  · have hnd := (List.nodup_append.mp h.tiles.nodup).1
    rw [freeBlocks, List.nodup_flatMap] at hnd
    exact (hnd.1 o (mem_orders.mpr ho)).of_map _
  · have : s.freeArea o = [] := List.eq_nil_iff_forall_not_mem.mpr fun i hi => ho (h.area o i hi)
    rw [this]; exact List.nodup_nil

theorem freeBlocks_del (h : Inv s hand live) {o i : ℕ} (hi : i ∈ s.freeArea o) :
    (freeBlocks s).Perm (⟨pageToAddr i, o⟩ :: freeBlocks (listDelInit i s)) := by
  refine flatMap_perm_cons (a := o) ?_ List.nodup_range' (mem_orders.mpr (h.area o i hi)) ?_
  · exact ((List.perm_cons_erase hi).map _)
  · intro b _ hb
    rw [listDelInit]
    simp only
    rw [List.erase_of_not_mem fun hib => hb (h.area_unique hi hib)]

theorem freeBlocks_del_subset {s : Allocator} {i : ℕ} {b : Blk}
    (hb : b ∈ freeBlocks (listDelInit i s)) : b ∈ freeBlocks s := by
  obtain ⟨ho, j, hj, he⟩ := mem_freeBlocks.mp hb
  exact mem_freeBlocks.mpr ⟨ho, j, List.mem_of_mem_erase hj, he⟩

/-- Writing a page that heads no free and no live block keeps the invariant. -/
theorem setPage (h : Inv s hand live) {i : ℕ} {p : PageT} (hf : ∀ o, i ∉ s.freeArea o)
    (hl : ∀ b ∈ live, addrToPage b.off ≠ i) : Inv (Model.setPage i p s) hand live where
  tiles := h.tiles
  order_ge := h.order_ge
  area := h.area
  free_page o j hj := by
    rw [gPages_setPage, if_neg (by rintro rfl; exact hf o hj)]; exact h.free_page o j hj
  live_page b hb := by rw [gPages_setPage, if_neg (hl b hb)]; exact h.live_page b hb
  noBuddy := h.noBuddy

/-- The first page of the block in hand heads no other block. -/
theorem hand_page {b : Blk} (h : Inv s (b :: hand) live) :
    (∀ o, addrToPage b.off ∉ s.freeArea o) ∧
      ∀ c ∈ live, addrToPage c.off ≠ addrToPage b.off := by
  have hb : b ∈ freeBlocks s ++ ((b :: hand) ++ live) := by simp
  have hbo : pageToAddr (addrToPage b.off) = b.off :=
    pageToAddr_addrToPage (h.tiles.aligned b hb) (h.order_ge b (by simp))
  have hp := List.pairwise_append.mp h.tiles.apart
  have hp' := List.pairwise_cons.mp hp.2.1
  refine ⟨fun o hi => ?_, fun c hc he => ?_⟩
  · exact (hp.2.2 _ (h.mem_free hi) b (by simp)).off_ne hbo
  · have hco : pageToAddr (addrToPage c.off) = c.off :=
      pageToAddr_addrToPage (h.tiles.aligned c (by simp [hc])) (h.order_ge c (by simp [hc]))
    exact (hp'.1 c (by simp [hc])).off_ne (by rw [← hbo, ← hco, he])

/-- Writing the first page of the block in hand keeps the invariant. -/
theorem setHand {b : Blk} (h : Inv s (b :: hand) live) (p : PageT) :
    Inv (Model.setPage (addrToPage b.off) p s) (b :: hand) live :=
  h.setPage h.hand_page.1 h.hand_page.2

theorem setHandPage {i k : ℕ} (h : Inv s (⟨pageToAddr i, k⟩ :: hand) live) (p : PageT) :
    Inv (Model.setPage i p s) (⟨pageToAddr i, k⟩ :: hand) live := by
  have hset := h.setHand p
  rwa [addrToPage_pageToAddr] at hset

theorem setHandFree {i k : ℕ} (h : Inv s (⟨pageToAddr i, k⟩ :: hand) live) (b : Bool) :
    Inv (setFree i b s) (⟨pageToAddr i, k⟩ :: hand) live :=
  h.setHandPage _

theorem setHandOrder {i k : ℕ} (h : Inv s (⟨pageToAddr i, k⟩ :: hand) live) (o : ℕ) :
    Inv (setOrder i o s) (⟨pageToAddr i, k⟩ :: hand) live :=
  h.setHandPage _

/-- **A block is taken from its list.** -/
theorem take (h : Inv s hand live) {o i : ℕ} (hi : i ∈ s.freeArea o) :
    Inv (listDelInit i s) (⟨pageToAddr i, o⟩ :: hand) live where
  tiles := h.tiles.perm (((h.freeBlocks_del hi).append_right _).trans List.perm_middle.symm)
  order_ge b hb := by
    rcases List.mem_cons.mp hb with rfl | hb
    · exact (h.area o i hi).1
    · exact h.order_ge b hb
  area o' j hj := h.area o' j (List.mem_of_mem_erase hj)
  free_page o' j hj := h.free_page o' j (List.mem_of_mem_erase hj)
  live_page := h.live_page
  noBuddy b hb ho hn := h.noBuddy b (freeBlocks_del_subset hb) ho (freeBlocks_del_subset hn)

/-- **The block in hand is put on its list**, if its buddy is not free. -/
theorem put {i o : ℕ} (h : Inv s (⟨pageToAddr i, o⟩ :: hand) live) (hp : s.gPages i = ⟨o, true⟩)
    (hn : o < maxOrder → (⟨pageToAddr i, o⟩ : Blk).buddy ∉ freeBlocks s) :
    ∃ s', listAdd i o s = .ok s' ∧ s'.gPages = s.gPages ∧ Inv s' hand live := by
  have h1 : minOrder ≤ o := h.order_ge ⟨pageToAddr i, o⟩ (by simp)
  have h2 : o ≤ maxOrder := h.tiles.order_le (b := ⟨pageToAddr i, o⟩) (by simp)
  have hal : 2 ^ o ∣ pageToAddr i := h.tiles.aligned ⟨pageToAddr i, o⟩ (by simp)
  have hperm := freeBlocks_add (s := s) i h1 h2
  refine ⟨_, listAdd_ok i s h1 h2, rfl, ?_, ?_, ?_, ?_, h.live_page, ?_⟩
  · exact h.tiles.perm (List.perm_middle.trans (hperm.symm.append_right _))
  · exact fun b hb => h.order_ge b (by simp only [List.cons_append, List.mem_cons, hb, or_true])
  · intro o' j hj
    by_cases ho : o' = o
    · exact ho ▸ ⟨h1, h2⟩
    · simp only [Function.update_of_ne ho] at hj; exact h.area o' j hj
  · intro o' j hj
    by_cases ho : o' = o
    · subst ho
      simp only [Function.update_self] at hj
      rcases List.mem_cons.mp hj with rfl | hj
      · exact hp
      · exact h.free_page o' j hj
    · simp only [Function.update_of_ne ho] at hj; exact h.free_page o' j hj
  · -- two buddies on the lists would be the new block and its buddy
    intro b hb hbo hbb
    rw [hperm.mem_iff, List.mem_cons] at hb hbb
    rcases hb with rfl | hb
    · rcases hbb with hbb | hbb
      · exact buddyOff_ne hal (congrArg Blk.off hbb)
      · exact hn hbo hbb
    · rcases hbb with hbb | hbb
      · refine hn (lt_of_eq_of_lt (congrArg Blk.order hbb).symm hbo) ?_
        rw [← hbb, Blk.buddy_buddy]
        exact hb
      · exact h.noBuddy b hb hbo hbb

/-- The two halves of the block in hand are both in hand. -/
theorem halves {i k : ℕ} (h : Inv s (⟨pageToAddr i, k + 1⟩ :: hand) live) (hk : minOrder ≤ k) :
    Inv s (⟨buddyAddr (pageToAddr i) k, k⟩ :: ⟨pageToAddr i, k⟩ :: hand) live := by
  have hal : 2 ^ (k + 1) ∣ pageToAddr i := h.tiles.aligned ⟨pageToAddr i, k + 1⟩ (by simp)
  have hbe : buddyAddr (pageToAddr i) k = pageToAddr i + 2 ^ k := buddyOff_of_dvd hal
  refine ⟨?_, fun b hb => ?_, h.area, h.free_page, h.live_page, h.noBuddy⟩
  · rw [hbe]
    refine ((h.tiles.perm List.perm_middle).split.perm ?_)
    refine List.Perm.trans ?_ (List.perm_middle.symm)
    refine (List.Perm.swap _ _ _).trans (List.Perm.cons _ ?_)
    exact List.perm_middle.symm
  · rcases List.mem_cons.mp hb with rfl | hb
    · exact hk
    · rcases List.mem_cons.mp hb with rfl | hb
      · exact hk
      · exact h.order_ge b (List.mem_cons_of_mem _ hb)

/-- The page of the right half is an entry of `g_pages`, and on no list. -/
theorem right_half {i k : ℕ} (h : Inv s (⟨pageToAddr i, k + 1⟩ :: hand) live) (hk : minOrder ≤ k) :
    buddyAddr (pageToAddr i) k < 2 ^ maxOrder ∧
      ∀ o, addrToPage (buddyAddr (pageToAddr i) k) ∉ s.freeArea o :=
  ⟨(h.halves hk).tiles.off_lt (b := ⟨buddyAddr (pageToAddr i) k, k⟩) (by simp),
    (h.halves hk).hand_page.1⟩

/-- **The block in hand is cut**, and its right half put on the list of the smaller order. -/
theorem cut {i k : ℕ} (h : Inv s (⟨pageToAddr i, k + 1⟩ :: hand) live) (hk : minOrder ≤ k) :
    ∃ s', (do
        checkPage (addrToPage (buddyAddr (pageToAddr i) k))
        listAdd (addrToPage (buddyAddr (pageToAddr i) k)) k
          (Model.setPage (addrToPage (buddyAddr (pageToAddr i) k)) ⟨k, true⟩ s)) = .ok s' ∧
      Inv s' (⟨pageToAddr i, k⟩ :: hand) live := by
  have hal : 2 ^ (k + 1) ∣ pageToAddr i := h.tiles.aligned ⟨pageToAddr i, k + 1⟩ (by simp)
  have hdv : 2 ^ k ∣ pageToAddr i := dvd_trans (pow_dvd_pow 2 (Nat.le_succ k)) hal
  have hbal : 2 ^ k ∣ buddyAddr (pageToAddr i) k := buddyOff_dvd hdv
  have h2 := h.halves hk
  have hlt := (h.right_half hk).1
  set a' := buddyAddr (pageToAddr i) k
  have ha' : pageToAddr (addrToPage a') = a' := pageToAddr_addrToPage hbal hk
  have h3 := h2.setHand ⟨k, true⟩
  simp only at h3
  rw [← ha'] at h3
  simp only [addrToPage_pageToAddr] at h3
  obtain ⟨s', hs', -, hinv⟩ := h3.put (by rw [gPages_setPage, if_pos rfl]) fun _ hbud => by
    -- the other half is in hand, so it is on no list
    have hb2 : (⟨pageToAddr (addrToPage a'), k⟩ : Blk).buddy = ⟨pageToAddr i, k⟩ := by
      rw [ha', Blk.buddy]
      simp only [a', buddyAddr, buddyOff_buddyOff]
    rw [hb2] at hbud
    have hp := List.pairwise_append.mp h2.tiles.apart
    exact (hp.2.2 _ hbud ⟨pageToAddr i, k⟩ (by simp)).off_ne rfl
  exact ⟨s', by rw [checkPage_ok hlt]; exact hs', hinv⟩

/-- What the coalescing loop reads on the page of the buddy: the buddy is on its list, or not. -/
theorem buddy_free {a k : ℕ} (h : Inv s (⟨a, k⟩ :: hand) live) (hhand : hand = [])
    (hk : k < maxOrder) :
    (s.gPages (addrToPage (buddyAddr a k))).free = true ∧
        (s.gPages (addrToPage (buddyAddr a k))).order = k ↔
      addrToPage (buddyAddr a k) ∈ s.freeArea k := by
  subst hhand
  refine ⟨fun ⟨h1, h2⟩ => ?_, fun hi => by rw [h.free_page _ _ hi]; exact ⟨rfl, rfl⟩⟩
  have hal : 2 ^ k ∣ a := h.tiles.aligned ⟨a, k⟩ (by simp)
  obtain ⟨c, hc, hco, hck⟩ := h.tiles.buddy_head (b := ⟨a, k⟩) (by simp) hk
  have hpage : addrToPage (buddyAddr a k) = addrToPage c.off := by rw [hco]; rfl
  rw [hpage] at h1 h2 ⊢
  rcases List.mem_append.mp hc with hc | hc
  · obtain ⟨-, i, hi, he⟩ := mem_freeBlocks.mp hc
    rw [he, addrToPage_pageToAddr] at h1 h2 ⊢
    rw [h.free_page _ _ hi] at h2
    rwa [← h2]
  · rcases List.mem_cons.mp hc with rfl | hc
    · exact absurd hco.symm (buddyOff_ne hal)
    · rw [h.live_page c hc] at h1
      exact absurd h1 (by simp)

/-- Two buddies in hand are one block of the next order. -/
theorem join {a k : ℕ} (h : Inv s [⟨buddyAddr a k, k⟩, ⟨a, k⟩] live) :
    Inv s [⟨min a (buddyAddr a k), k + 1⟩] live := by
  have hal : 2 ^ k ∣ a := h.tiles.aligned ⟨a, k⟩ (by simp)
  have ht := h.tiles.perm List.perm_middle
  refine ⟨?_, fun b hb => ?_, h.area, h.free_page, h.live_page, h.noBuddy⟩
  · rcases buddyOff_eq hal with ⟨h1, e⟩ | ⟨h0, h1, e⟩
    · have e' : buddyAddr a k = a + 2 ^ k := e
      rw [e'] at ht ⊢
      rw [min_eq_left (by omega)]
      refine (Tiles.join (ht.perm ?_) h1).perm List.perm_middle.symm
      exact (List.Perm.cons _ List.perm_middle).trans (List.Perm.swap _ _ _)
    · have e' : buddyAddr a k = a - 2 ^ k := e
      rw [e'] at ht ⊢
      rw [min_eq_right (by omega)]
      refine (Tiles.join (l := freeBlocks s ++ live) (ht.perm ?_) h1).perm List.perm_middle.symm
      rw [show a - 2 ^ k + 2 ^ k = a by omega]
      exact List.Perm.cons _ List.perm_middle
  · rcases List.mem_cons.mp hb with rfl | hb
    · exact Nat.le_succ_of_le (h.order_ge ⟨a, k⟩ (by simp))
    · exact h.order_ge b (List.mem_append_right _ hb)

/-- **The block in hand is merged with its free buddy.** -/
theorem merge {a k : ℕ} (h : Inv s [⟨a, k⟩] live)
    (hi : addrToPage (buddyAddr a k) ∈ s.freeArea k) :
    Inv (setFree (addrToPage (buddyAddr a k)) false (listDelInit (addrToPage (buddyAddr a k)) s))
      [⟨min a (buddyAddr a k), k + 1⟩] live := by
  have hal : 2 ^ k ∣ a := h.tiles.aligned ⟨a, k⟩ (by simp)
  have hb : pageToAddr (addrToPage (buddyAddr a k)) = buddyAddr a k :=
    pageToAddr_addrToPage (buddyOff_dvd hal) (h.order_ge ⟨a, k⟩ (by simp))
  have ht := h.take hi
  rw [hb] at ht
  exact (ht.setHand _).join

/-- The block in hand is handed out. -/
theorem give {b : Blk} (h : Inv s (b :: hand) live)
    (hp : s.gPages (addrToPage b.off) = ⟨b.order, false⟩) : Inv s hand (b :: live) where
  tiles := h.tiles.perm (List.Perm.append_left _ List.perm_middle.symm)
  order_ge c hc := h.order_ge c (List.perm_middle.mem_iff.mp hc)
  area := h.area
  free_page := h.free_page
  live_page c hc := by
    rcases List.mem_cons.mp hc with rfl | hc
    · exact hp
    · exact h.live_page c hc
  noBuddy := h.noBuddy

/-- A live block is taken in hand. -/
theorem takeLive {b : Blk} (h : Inv s hand live) (hb : b ∈ live) :
    Inv s (b :: hand) (live.erase b) where
  tiles := h.tiles.perm (List.Perm.append_left _
    (((List.perm_cons_erase hb).append_left _).trans List.perm_middle))
  order_ge c hc := h.order_ge c
    ((((List.perm_cons_erase hb).append_left _).trans List.perm_middle).mem_iff.mpr hc)
  area := h.area
  free_page := h.free_page
  live_page c hc := h.live_page c (List.mem_of_mem_erase hc)
  noBuddy := h.noBuddy

end Inv

end Eecs678.Buddy.Invariant
