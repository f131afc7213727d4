import Eecs678.Buddy.Canonical

/-!
# The page metadata

`free` is meant to be 1 exactly on the first page of a free block. `buddy_alloc` keeps that, and so does
a merge with the buddy on the right: the page that is absorbed is marked. A merge with the buddy on the
left marks the page of the buddy, which stays the first page, and forgets the one of the block in hand:
it keeps `free = 1` inside the merged block (`Stale`). `faithful_of_tidy`: the metadata is faithful as
long as each free merges to the right only, and a free that does not breaks it.
-/

namespace Eecs678.Buddy.Metadata

open Eecs678.Lib.Dyadic Eecs678.Buddy.Model Eecs678.Buddy.Invariant Eecs678.Buddy.Partition
open Eecs678.Buddy.Canonical

/-- The metadata of every page is right. -/
structure Faithful (s : Allocator) (live : List Blk) : Prop where
  free_iff : ∀ p < nPages, (s.gPages p).free = true ↔ ∃ o, p ∈ s.freeArea o
  order_free : ∀ p < nPages, ∀ o, p ∈ s.freeArea o → (s.gPages p).order = o
  order_live : ∀ b ∈ live, (s.gPages (addrToPage b.off)).order = b.order

/-- A page marked as free is in hand or on a list. -/
def Clean (hand : List ℕ) (s : Allocator) : Prop :=
  ∀ p, (s.gPages p).free = true → p ∈ hand ∨ ∃ o, p ∈ s.freeArea o

/-- **The merges of a block that is freed go to the right**: when the buddies of all orders below `k` are
free, then the one of order `k` is on the right or not free. -/
def Rightward (s : Allocator) (b : Blk) : Prop :=
  ∀ k, b.order ≤ k → k < maxOrder →
    (∀ j, b.order ≤ j → j < k → addrToPage (buddyAddr b.off j) ∈ s.freeArea j) →
      b.off < buddyAddr b.off k ∨ addrToPage (buddyAddr b.off k) ∉ s.freeArea k

/-- A page marked as free inside a block, but not its first page. -/
structure Stale (p : ℕ) (b : Blk) (s : Allocator) : Prop where
  free : (s.gPages p).free = true
  mem : pageToAddr p ∈ b
  ne : pageToAddr p ≠ b.off

variable {s s' : Allocator} {live : List Blk}

/-- For the pages of free and live blocks the metadata is right anyway. -/
theorem faithful_iff (h : Inv s [] live) :
    Faithful s live ↔ ∀ p < nPages, (s.gPages p).free = true → ∃ o, p ∈ s.freeArea o := by
  constructor
  · exact fun hf p hp => (hf.free_iff p hp).mp
  · intro hf
    refine ⟨fun p hp => ⟨hf p hp, fun ⟨o, ho⟩ => ?_⟩, fun p _ o ho => ?_, fun b hb => ?_⟩
    · rw [h.free_page o p ho]
    · rw [h.free_page o p ho]
    · rw [h.live_page b hb]

theorem Clean.faithful (hc : Clean [] s) (h : Inv s [] live) : Faithful s live :=
  (faithful_iff h).mpr fun p _ hp => (hc p hp).resolve_left List.not_mem_nil

/-! ### `buddy_alloc` -/

theorem clean_init : Clean [] buddyInit := by
  intro p hp
  by_cases h0 : p = 0
  · exact Or.inr ⟨maxOrder, by rw [h0]; exact List.mem_cons_self ..⟩
  · simp [buddyInit, Function.update_of_ne h0] at hp

theorem Clean.add {hand : List ℕ} {i o : ℕ} (hc : Clean (i :: hand) s) (hs : listAdd i o s = .ok s') :
    Clean hand s' := by
  unfold listAdd checkArea at hs
  split_ifs at hs
  · simp only [bind, Except.bind, pure, Except.pure, Except.ok.injEq] at hs
    subst hs
    intro p hp
    rcases hc p hp with hm | ⟨o', ho'⟩
    · rcases List.mem_cons.mp hm with rfl | hm
      · exact Or.inr ⟨o, by simp⟩
      · exact Or.inl hm
    · refine Or.inr ⟨o', ?_⟩
      by_cases he : o' = o
      · subst he
        simp [ho']
      · simpa only [Function.update_of_ne he] using ho'
  · simp [bind, Except.bind] at hs

theorem Clean.del {hand : List ℕ} {i : ℕ} (hc : Clean hand s) :
    Clean hand (setFree i false (listDelInit i s)) := by
  intro p hp
  rw [setFree, gPages_setPage] at hp
  split_ifs at hp with hpi
  rcases hc p hp with hm | ⟨o, ho⟩
  · exact Or.inl hm
  · exact Or.inr ⟨o, (List.mem_erase_of_ne hpi).mpr ho⟩

theorem Clean.setPage {hand : List ℕ} (hc : Clean hand s) (i : ℕ) (pg : PageT) :
    Clean (i :: hand) (Model.setPage i pg s) := by
  intro p hp
  rw [gPages_setPage] at hp
  split_ifs at hp with hpi
  · exact Or.inl (hpi ▸ List.mem_cons_self ..)
  · exact (hc p hp).imp_left (List.mem_cons_of_mem _)

theorem Clean.setPage_same {hand : List ℕ} (hc : Clean hand s) {i : ℕ} {pg : PageT}
    (hpg : pg.free = true → (s.gPages i).free = true) : Clean hand (Model.setPage i pg s) := by
  intro p hp
  rw [gPages_setPage] at hp
  split_ifs at hp with hpi
  · exact hc p (hpi ▸ hpg hp)
  · exact hc p hp

theorem splitLoop_clean {i order : ℕ} : ∀ (n : ℕ) {s s' : Allocator}, Clean [] s →
    splitLoop i order n s = .ok s' → Clean [] s'
  | 0, s, s', hc, h => by
    rw [splitLoop, Except.ok.injEq] at h
    rwa [← h]
  | n + 1, s, s', hc, h => by
    unfold splitLoop at h
    simp only [bind, Except.bind] at h
    split at h
    · simp at h
    split at h
    · simp at h
    · rename_i s₁ hadd
      have hcut : Clean [] (setOrder i (order + n) s₁) :=
        ((hc.setPage _ _).add hadd).setPage_same fun hf => hf
      exact splitLoop_clean n hcut h

/-- **`buddy_alloc` keeps the metadata clean.** -/
theorem alloc_clean {size : ℤ} {r : Option ℕ} (h : Inv s [] live) (hc : Clean [] s)
    (hs : buddyAlloc size s = .ok (r, s')) : Clean [] s' := by
  by_cases hr : r = none
  · subst hr
    rw [alloc_none h hs]
    exact hc
  · obtain ⟨a, rfl⟩ := Option.ne_none_iff_exists'.mp hr
    obtain ⟨hpos, o, ho⟩ := order_of_alloc hs
    rcases alloc_spec h hpos ho with ⟨he, -⟩ | ⟨found, i, rest, s₁, -, -, -, -, hsplit, -, he⟩
    · rw [he] at hs; simp at hs
    · rw [he, Except.ok.injEq, Prod.mk.injEq] at hs
      rw [← hs.2]
      exact (splitLoop_clean _ hc.del hsplit).setPage_same (by simp)

/-! ### `buddy_free` -/

theorem merged_clean {a k : ℕ} (hmin : min a (buddyAddr a k) = a) (hc : Clean [addrToPage a] s) :
    Clean [addrToPage a] (merged a k s) := by
  intro p hp
  rw [merged, hmin] at hp
  rcases hc.del.setPage _ _ p hp with hm | hm
  · exact Or.inl (by simpa using hm)
  · exact Or.inr hm

/-- The merges after the first one. -/
theorem rightward_merged {a k : ℕ} (h : Inv s [⟨a, k⟩] live)
    (hfree : addrToPage (buddyAddr a k) ∈ s.freeArea k) (hlt : a < buddyAddr a k) :
    Rightward (merged a k s) ⟨a, k + 1⟩ ↔ Rightward s ⟨a, k⟩ := by
  constructor
  · intro hr m hkm hm hj
    rcases Nat.eq_or_lt_of_le hkm with rfl | hkm
    · exact Or.inl hlt
    · have hrm := hr m hkm hm fun j hkj hjm => by
        rw [merged_area_ne h hfree (by simp only at hkj; omega)]
        exact hj j (by simp only at hkj ⊢; omega) hjm
      rwa [merged_area_ne h hfree (by simp only at hkm; omega)] at hrm
  · intro hr m hkm hm hj
    simp only at hkm hj
    rw [merged_area_ne h hfree (by omega)]
    refine hr m (by simp only; omega) hm fun j hkj hjm => ?_
    rcases Nat.eq_or_lt_of_le hkj with rfl | hkj
    · exact hfree
    · have hjj := hj j hkj hjm
      rwa [merged_area_ne h hfree (by simp only at hkj; omega)] at hjj

/-- A block whose buddy is not free is not merged at all. -/
theorem rightward_stop {a k : ℕ} (hfree : addrToPage (buddyAddr a k) ∉ s.freeArea k) :
    Rightward s ⟨a, k⟩ := by
  intro m hkm _ hj
  rcases Nat.eq_or_lt_of_le hkm with rfl | hkm
  · exact Or.inr hfree
  · exact absurd (hj k le_rfl hkm) hfree

theorem merge_cases {a k : ℕ} (h : Inv s [⟨a, k⟩] live) :
    (a < buddyAddr a k ∧ buddyAddr a k = a + 2 ^ k ∧ min a (buddyAddr a k) = a) ∨
      (buddyAddr a k < a ∧ buddyAddr a k + 2 ^ k = a ∧ min a (buddyAddr a k) = buddyAddr a k) := by
  have hp := Nat.two_pow_pos k
  have hal : 2 ^ k ∣ a := h.tiles.aligned ⟨a, k⟩ (by simp)
  rcases buddyOff_eq hal with ⟨-, e⟩ | ⟨h0, -, e⟩
  · have e' : buddyAddr a k = a + 2 ^ k := e
    exact Or.inl ⟨by omega, e', min_eq_left (by omega)⟩
  · have e' : buddyAddr a k = a - 2 ^ k := e
    exact Or.inr ⟨by omega, by omega, min_eq_right (by omega)⟩

/-- The mark of a page that is neither the first one of the merged block nor the one of the buddy. -/
theorem merged_same {a k p : ℕ} (h : Inv s [⟨a, k⟩] live) (h1 : pageToAddr p ≠ min a (buddyAddr a k))
    (h2 : pageToAddr p ≠ buddyAddr a k) : (merged a k s).gPages p = s.gPages p := by
  have hmin : minOrder ≤ k := h.order_ge ⟨a, k⟩ (by simp)
  have hal : 2 ^ k ∣ a := h.tiles.aligned ⟨a, k⟩ (by simp)
  have hb : pageToAddr (addrToPage (buddyAddr a k)) = buddyAddr a k :=
    pageToAddr_addrToPage (buddyOff_dvd hal) hmin
  have hm : pageToAddr (addrToPage (min a (buddyAddr a k))) = min a (buddyAddr a k) := by
    rcases merge_cases h with ⟨-, -, e⟩ | ⟨-, -, e⟩
    · rw [e]; exact pageToAddr_addrToPage hal hmin
    · rw [e]; exact hb
  rw [merged, gPages_setPage, if_neg (by rintro rfl; exact h1 hm), setFree, gPages_setPage,
    if_neg (by rintro rfl; exact h2 hb)]
  rfl

/-- A page inside of the merged block that is marked free is stale. -/
theorem stale_of_merge {a k p : ℕ} (h : Inv s [⟨a, k⟩] live) (hf : (s.gPages p).free = true)
    (h1 : min a (buddyAddr a k) < pageToAddr p) (h2 : pageToAddr p < min a (buddyAddr a k) + 2 ^ (k + 1))
    (hne : pageToAddr p ≠ buddyAddr a k) :
    Stale p ⟨min a (buddyAddr a k), k + 1⟩ (merged a k s) := by
  refine ⟨?_, ⟨h1.le, h2⟩, h1.ne'⟩
  rwa [merged_same h h1.ne' hne]

/-- **A stale page stays stale** while its block is merged on. -/
theorem stale_merged {a k p : ℕ} (h : Inv s [⟨a, k⟩] live) (hst : Stale p ⟨a, k⟩ s) :
    Stale p ⟨min a (buddyAddr a k), k + 1⟩ (merged a k s) := by
  obtain ⟨hf, ⟨h1, h2⟩, hne⟩ := hst
  simp only at h1 h2 hne
  have hpow := pow_succ 2 k
  rcases merge_cases h with ⟨hlt, hb, e⟩ | ⟨hlt, hb, e⟩
  · refine stale_of_merge h hf ?_ ?_ (by omega)
    · rw [e]; omega
    · rw [e]; omega
  · refine stale_of_merge h hf ?_ ?_ (by omega)
    · rw [e]; omega
    · rw [e]; omega

/-- **A merge to the left makes a stale page**: the first one of the block in hand. -/
theorem stale_of_left {a k : ℕ} (h : Inv s [⟨a, k⟩] live) (hlt : buddyAddr a k < a)
    (hf : (s.gPages (addrToPage a)).free = true) :
    Stale (addrToPage a) ⟨min a (buddyAddr a k), k + 1⟩ (merged a k s) := by
  have ha : pageToAddr (addrToPage a) = a :=
    pageToAddr_addrToPage (h.tiles.aligned ⟨a, k⟩ (by simp)) (h.order_ge ⟨a, k⟩ (by simp))
  have hpow := pow_succ 2 k
  rcases merge_cases h with ⟨hn, -, -⟩ | ⟨-, hb, e⟩
  · omega
  · refine stale_of_merge h hf ?_ ?_ (by omega)
    · rw [e]; omega
    · rw [e]; omega

theorem coalesceLoop_stale {p : ℕ} : ∀ (n : ℕ) {a k i k' : ℕ} {s s' : Allocator}, n = maxOrder - k →
    Inv s [⟨a, k⟩] live → Stale p ⟨a, k⟩ s → coalesceLoop n a (addrToPage a) k s = .ok (i, k', s') →
      Stale p ⟨pageToAddr i, k'⟩ s'
  | 0, a, k, i, k', s, s', _, h, hst, hl => by
    rw [coalesceLoop, Except.ok.injEq, Prod.mk.injEq, Prod.mk.injEq] at hl
    obtain ⟨rfl, rfl, rfl⟩ := hl
    rwa [pageToAddr_addrToPage (h.tiles.aligned ⟨a, k⟩ (by simp)) (h.order_ge ⟨a, k⟩ (by simp))]
  | n + 1, a, k, i, k', s, s', hn, h, hst, hl => by
    by_cases hfree : addrToPage (buddyAddr a k) ∈ s.freeArea k
    · rw [coalesce_merge h (by omega) hfree] at hl
      exact coalesceLoop_stale n (by omega) (merged_inv h hfree) (stale_merged h hst) hl
    · rw [coalesce_stop h (by omega) hfree, Except.ok.injEq, Prod.mk.injEq, Prod.mk.injEq] at hl
      obtain ⟨rfl, rfl, rfl⟩ := hl
      rwa [pageToAddr_addrToPage (h.tiles.aligned ⟨a, k⟩ (by simp)) (h.order_ge ⟨a, k⟩ (by simp))]

/-- **The coalescing loop** keeps the metadata clean if it merges to the right only; otherwise the page
it starts with is stale at the end. -/
theorem coalesceLoop_clean : ∀ (n : ℕ) {a k i k' : ℕ} {s s' : Allocator}, n = maxOrder - k →
    Inv s [⟨a, k⟩] live → Clean [addrToPage a] s → s.gPages (addrToPage a) = ⟨k, true⟩ →
      coalesceLoop n a (addrToPage a) k s = .ok (i, k', s') →
        (Rightward s ⟨a, k⟩ → Clean [i] s') ∧
          (¬ Rightward s ⟨a, k⟩ → Stale (addrToPage a) ⟨pageToAddr i, k'⟩ s')
  | 0, a, k, i, k', s, s', hn, h, hc, hp, hl => by
    rw [coalesceLoop, Except.ok.injEq, Prod.mk.injEq, Prod.mk.injEq] at hl
    obtain ⟨rfl, rfl, rfl⟩ := hl
    refine ⟨fun _ => hc, fun hr => absurd (fun m hkm hm => ?_) hr⟩
    simp only at hkm
    omega
  | n + 1, a, k, i, k', s, s', hn, h, hc, hp, hl => by
    by_cases hfree : addrToPage (buddyAddr a k) ∈ s.freeArea k
    · rw [coalesce_merge h (by omega) hfree] at hl
      have hinv := merged_inv h hfree
      have hpage := merged_page a k s
      rcases merge_cases h with ⟨hlt, -, e⟩ | ⟨hlt, -, e⟩
      · rw [e] at hl hinv hpage
        rw [← rightward_merged h hfree hlt]
        exact coalesceLoop_clean n (by omega) hinv (merged_clean e hc) hpage hl
      · have hst := stale_of_left h hlt (by rw [hp])
        have hleft : ¬ Rightward s ⟨a, k⟩ := fun hr => by
          rcases hr k le_rfl (by omega) fun j h1 h2 => absurd h1 (not_le.mpr h2) with h1 | h1
          · simp only at h1; omega
          · exact h1 hfree
        exact ⟨fun hr => absurd hr hleft, fun _ => coalesceLoop_stale n (by omega) hinv hst hl⟩
    · rw [coalesce_stop h (by omega) hfree, Except.ok.injEq, Prod.mk.injEq, Prod.mk.injEq] at hl
      obtain ⟨rfl, rfl, rfl⟩ := hl
      exact ⟨fun _ => hc, fun hr => absurd (rightward_stop hfree) hr⟩

/-- A stale page is the first page of no free block. -/
theorem Stale.not_faithful {i k p : ℕ} (hst : Stale p ⟨pageToAddr i, k⟩ s)
    (h : Inv s [⟨pageToAddr i, k⟩] live) (hs : listAdd i k s = .ok s') : ¬ Faithful s' live := by
  intro hf
  have hin := h.tiles.inside ⟨pageToAddr i, k⟩ (by simp)
  have hmem := hst.mem
  rw [mem_blk] at hmem
  rw [listAdd_ok i s (h.order_ge ⟨pageToAddr i, k⟩ (by simp))
    (h.tiles.order_le (b := ⟨pageToAddr i, k⟩) (by simp)), Except.ok.injEq] at hs
  subst hs
  have hlt : p < nPages := by
    have h1 : p * pageSize < nPages * pageSize := by
      have h2 : nPages * pageSize = 2 ^ maxOrder := Nat.div_mul_cancel (pow_dvd_pow 2 (by decide))
      have h3 : p * pageSize = pageToAddr p := rfl
      simp only at hin hmem
      omega
    exact lt_of_mul_lt_mul_right h1 (Nat.zero_le _)
  obtain ⟨o, ho⟩ := (hf.free_iff p hlt).mp hst.free
  have hps : p ∈ s.freeArea o := by
    simp only at ho
    by_cases hok : o = k
    · subst hok
      rw [Function.update_self] at ho
      rcases List.mem_cons.mp ho with rfl | ho
      · exact absurd rfl hst.ne
      · exact ho
    · rwa [Function.update_of_ne hok] at ho
  have hap := (List.pairwise_append.mp h.tiles.apart).2.2 _ (h.mem_free hps) ⟨pageToAddr i, k⟩ (by simp)
  exact hap.not_mem (off_mem ⟨pageToAddr p, o⟩) hst.mem

/-- **`buddy_free` and the metadata**: clean metadata stay so if the merges go to the right, and is not
faithful any more otherwise. -/
theorem free_clean {b : Blk} (h : Inv s [] live) (hc : Clean [] s) (hb : b ∈ live)
    (hs : buddyFree b.off s = .ok s') :
    (Rightward s b → Clean [] s') ∧ (¬ Rightward s b → ¬ Faithful s' (live.erase b)) := by
  obtain ⟨hinv, hpage, i, k, s₁, s₂, hl, hinv₁, hadd, hfree, -⟩ := free_spec h hb
  rw [hfree, Except.ok.injEq] at hs
  subst hs
  obtain ⟨h1, h2⟩ := coalesceLoop_clean _ rfl hinv (hc.setPage _ _) hpage hl
  exact ⟨fun hr => (h1 hr).add hadd, fun hr => (h2 hr).not_faithful hinv₁ hadd⟩

/-! ### Runs -/

/-- Runs in which each free merges to the right only. -/
inductive Tidy : Allocator → List Blk → Prop
  | init : Tidy buddyInit []
  | refused {s s' : Allocator} {live : List Blk} {size : ℤ} (h : Tidy s live)
      (hs : buddyAlloc size s = .ok (none, s')) : Tidy s' live
  | alloc {s s' : Allocator} {live : List Blk} {size : ℤ} {order addr : ℕ} (h : Tidy s live)
      (ho : requestOrder size = .ok order) (hs : buddyAlloc size s = .ok (some addr, s')) :
      Tidy s' (⟨addr, order⟩ :: live)
  | free {s s' : Allocator} {live : List Blk} {b : Blk} (h : Tidy s live) (hb : b ∈ live)
      (hr : Rightward s b) (hs : buddyFree b.off s = .ok s') : Tidy s' (live.erase b)

theorem Tidy.reach (h : Tidy s live) : Reach s live := by
  induction h with
  | init => exact .init
  | refused _ hs ih => exact .refused ih hs
  | alloc _ ho hs ih => exact .alloc ih ho hs
  | free _ hb _ hs ih => exact .free ih hb hs

theorem Tidy.clean (h : Tidy s live) : Clean [] s := by
  induction h with
  | init => exact clean_init
  | refused h hs ih => exact alloc_clean (reach_inv h.reach) ih hs
  | alloc h _ hs ih => exact alloc_clean (reach_inv h.reach) ih hs
  | free h hb hr hs ih => exact (free_clean (reach_inv h.reach) ih hb hs).1 hr

/-- **The page metadata is faithful** in every run whose frees merge to the right only; and in such a run
a free of a live block, which always succeeds, leaves it faithful exactly when it merges to the right
only. -/
theorem faithful_of_tidy (h : Tidy s live) :
    Faithful s live ∧ ∀ b ∈ live, ∃ s', buddyFree b.off s = .ok s' ∧
      (Faithful s' (live.erase b) ↔ Rightward s b) := by
  have hinv := reach_inv h.reach
  refine ⟨h.clean.faithful hinv, fun b hb => ?_⟩
  obtain ⟨s', hs', hinv'⟩ := free_inv hinv hb
  obtain ⟨h1, h2⟩ := free_clean hinv h.clean hb hs'
  refine ⟨s', hs', fun hf => ?_, fun hr => (h1 hr).faithful hinv'⟩
  by_contra hr
  exact h2 hr hf

/-- Two pages are allocated and freed again, the left one first. -/
theorem faithful_of_tidy_left : ∃ s : Allocator, Reach s [] ∧ ¬ Faithful s [] := by
  obtain ⟨s1, s2, s3, s4, h1, h2, h3, h4, hp⟩ : ∃ s1 s2 s3 s4,
      buddyAlloc 4096 buddyInit = .ok (some 0, s1) ∧ buddyAlloc 4096 s1 = .ok (some 4096, s2) ∧
        buddyFree 0 s2 = .ok s3 ∧ buddyFree 4096 s3 = .ok s4 ∧ (s4.gPages 1).free = true :=
    ⟨_, _, _, _, rfl, rfl, rfl, rfl, rfl⟩
  have ho : requestOrder 4096 = .ok 12 := rfl
  have hr : Reach s4 [] := .free (b := ⟨4096, 12⟩)
    (.free (b := ⟨0, 12⟩) (.alloc (.alloc .init ho h1) ho h2) (by decide) h3) (by decide) h4
  refine ⟨s4, hr, fun hf => ?_⟩
  -- the page keeps its mark, but all of the memory is one free block
  obtain ⟨o, hmem⟩ := (hf.free_iff 1 (by decide)).mp hp
  obtain ⟨hmax, hrest⟩ := area_whole hr
  by_cases hom : o = maxOrder
  · rw [hom, hmax] at hmem
    simp at hmem
  · rw [hrest o hom] at hmem
    simp at hmem

/-- One page is allocated: its metadata is faithful, and freeing it keeps them so. -/
theorem faithful_of_tidy_alloc : ∃ s : Allocator, buddyAlloc 4096 buddyInit = .ok (some 0, s) ∧
    Faithful s [⟨0, 12⟩] ∧ ∀ b ∈ [(⟨0, 12⟩ : Blk)], ∃ s', buddyFree b.off s = .ok s' ∧
      (Faithful s' ([⟨0, 12⟩].erase b) ↔ Rightward s b) := by
  obtain ⟨s, h⟩ : ∃ s, buddyAlloc 4096 buddyInit = .ok (some 0, s) := ⟨_, rfl⟩
  exact ⟨s, h, faithful_of_tidy (.alloc .init (show requestOrder 4096 = .ok 12 from rfl) h)⟩

end Eecs678.Buddy.Metadata
