import Mathlib.Algebra.Order.Ring.Int
import Mathlib.Order.Bounds.Basic
import Eecs678.Buddy.Canonical

/-!
# Which requests are granted

`buddy_alloc` looks for a list of the chosen order or a larger one that is not empty. No two buddies
are free at once, so such a list is there exactly when an aligned window of the memory is free
(`Coalesced.large_iff`): `granted_iff` says when a request is refused and what it gets otherwise. The
order is searched before it is compared with `MAX_ORDER`, so a request of more than `2 ^ 30` bytes
shifts too far: `total_iff`.
-/

namespace Eecs678.Buddy.Requests

open Eecs678.Lib.Dyadic Eecs678.Buddy.Model Eecs678.Buddy.Invariant Eecs678.Buddy.Partition
open Eecs678.Buddy.Canonical

variable {s : Allocator} {live : List Blk} {size : ℤ}

/-! ### The order of a request -/

theorem requestOrder_isLeast {o : ℕ} (ho : requestOrder size = .ok o) :
    IsLeast {k : ℕ | minOrder ≤ k ∧ size ≤ 2 ^ k} o := by
  obtain ⟨h1, -, h3, h4⟩ := orderLoop_spec ho
  refine ⟨⟨h1, h3⟩, fun k hk => ?_⟩
  by_contra hlt
  exact absurd (h4 k hk.1 (not_le.mp hlt)) (not_lt.mpr hk.2)

theorem requestOrder_le {o : ℕ} (ho : requestOrder size = .ok o) (hs : size ≤ 2 ^ 20) :
    o ≤ maxOrder := (requestOrder_isLeast ho).2 ⟨by decide, hs⟩

theorem lt_requestOrder {o : ℕ} (ho : requestOrder size = .ok o) (hs : 2 ^ 20 < size) :
    maxOrder < o := by
  by_contra hle
  have h1 : (2 : ℤ) ^ o ≤ 2 ^ 20 := pow_le_pow_right₀ (by norm_num) (not_lt.mp hle)
  exact absurd ((requestOrder_isLeast ho).1.2.trans h1) (not_le.mpr hs)

/-- The search shifts by 31 places for a request of more than `2 ^ 30` bytes. -/
theorem requestOrder_shift (hs : 2 ^ 30 < size) : requestOrder size = .error .shift := by
  cases ho : requestOrder size with
  | error e => rw [orderLoop_error ho]
  | ok o =>
    obtain ⟨-, h2, h3, -⟩ := orderLoop_spec ho
    have h1 : (2 : ℤ) ^ o ≤ 2 ^ 30 := pow_le_pow_right₀ (by norm_num) (by
      simp only [minOrder] at h2; omega)
    omega

/-! ### Free windows -/

/-- The bytes of a block lie inside the memory, at a multiple of its size. -/
def Window (w : Blk) : Prop := 2 ^ w.order ∣ w.off ∧ w.off + 2 ^ w.order ≤ 2 ^ maxOrder

/-- A window and a live block share a byte. -/
def Taken (live : List Blk) (w : Blk) : Prop := ∃ b ∈ live, ∃ x, x ∈ w ∧ x ∈ b

theorem covered_iff (h : Inv s [] live) {w : Blk} :
    (∀ x, x ∈ w → ∃ f ∈ freeBlocks s, x ∈ f) ↔
      w.off + 2 ^ w.order ≤ 2 ^ maxOrder ∧ ¬ Taken live w := by
  have hp := Nat.two_pow_pos w.order
  simp only [free_cell_iff h]
  constructor
  · intro hc
    refine ⟨?_, fun ⟨b, hb, x, hxw, hxb⟩ => (hc x hxw).2 b hb hxb⟩
    have := (hc (w.off + 2 ^ w.order - 1) ⟨by omega, by omega⟩).1
    omega
  · rintro ⟨hin, hn⟩ x hx
    refine ⟨?_, fun b hb hxb => hn ⟨b, hb, x, hx, hxb⟩⟩
    rw [mem_blk] at hx
    omega

/-- **Some list from order `k` on is not empty** when some window of order `k` is free. -/
theorem area_ne_iff (h : Inv s [] live) {k : ℕ} (hmax : k ≤ maxOrder) :
    (∃ j, k ≤ j ∧ s.freeArea j ≠ []) ↔ ∃ a, Window ⟨a, k⟩ ∧ ¬ Taken live ⟨a, k⟩ := by
  have hl := (coalesced_freeBlocks h).large_iff hmax
  constructor
  · rintro ⟨j, hkj, hj⟩
    obtain ⟨i, hi⟩ := List.exists_mem_of_ne_nil _ hj
    obtain ⟨a, ha, hc⟩ := hl.mp ⟨_, h.mem_free hi, hkj⟩
    obtain ⟨hin, hn⟩ := (covered_iff h).mp hc
    exact ⟨a, ⟨ha, hin⟩, hn⟩
  · rintro ⟨a, ⟨ha, hin⟩, hn⟩
    obtain ⟨f, hf, hkf⟩ := hl.mpr ⟨a, ha, (covered_iff h).mpr ⟨hin, hn⟩⟩
    obtain ⟨-, i, hi, -⟩ := mem_freeBlocks.mp hf
    exact ⟨f.order, hkf, List.ne_nil_of_mem hi⟩

/-- A free block, from the live blocks: a largest window that no live block shares a byte with. -/
structure FreeBlock (live : List Blk) (b : Blk) : Prop where
  window : Window b
  free : ¬ Taken live b
  largest : ∀ w, Window w → ¬ Taken live w → (∀ x, x ∈ b → x ∈ w) → w = b

/-- **The blocks on the free lists** are the free blocks. -/
theorem mem_freeBlocks_iff (h : Inv s [] live) {b : Blk} : b ∈ freeBlocks s ↔ FreeBlock live b := by
  have hF := coalesced_freeBlocks h
  have hwindow : ∀ f ∈ freeBlocks s, Window f ∧ ¬ Taken live f := fun f hf => by
    obtain ⟨hin, hn⟩ := (covered_iff h).mp fun x hx => ⟨f, hf, hx⟩
    exact ⟨⟨hF.aligned f hf, hin⟩, hn⟩
  have hmember : ∀ w, Window w → ¬ Taken live w → ∃ f ∈ freeBlocks s, ∀ x, x ∈ w → x ∈ f :=
    fun w hw hn => by
      have hle : w.order ≤ maxOrder := (Nat.pow_le_pow_iff_right (by decide : 1 < 2)).mp
        ((Nat.le_add_left ..).trans hw.2)
      exact hF.sub_member w.order w.off hle hw.1 ((covered_iff h).mpr ⟨hw.2, hn⟩)
  constructor
  · intro hb
    refine ⟨(hwindow b hb).1, (hwindow b hb).2, fun w hw hn hsub => ?_⟩
    obtain ⟨f, hf, hwf⟩ := hmember w hw hn
    have hbf : b = f := by
      by_contra hne
      exact (hF.apart b hb f hf hne).not_mem (off_mem b) (hwf _ (hsub _ (off_mem b)))
    subst hbf
    exact eq_of_sub hwf (Nat.le_antisymm (order_le_of_sub hwf) (order_le_of_sub hsub))
  · intro hb
    obtain ⟨f, hf, hbf⟩ := hmember b hb.window hb.free
    rwa [← hb.largest f (hwindow f hf).1 (hwindow f hf).2 hbf]

/-! ### The results -/

/-- **An allocation succeeds exactly when it can.** In every reachable allocator a request of 1 to
`2 ^ 20` bytes, of which `k` is the order, is refused exactly when each aligned window of `2 ^ k` bytes
shares a byte with a live block, and a refusal changes nothing. Otherwise it gets such a window that
shares no byte with a live block, and that is a part of a block of the first list from `k` on that is
not empty. -/
theorem granted_iff (h : Reach s live) (hpos : 1 ≤ size) (hs : size ≤ 2 ^ 20) :
    ∃ k, IsLeast {k : ℕ | minOrder ≤ k ∧ size ≤ 2 ^ k} k ∧
      ((∃ s', buddyAlloc size s = .ok (none, s')) ↔ ∀ a, Window ⟨a, k⟩ → Taken live ⟨a, k⟩) ∧
      (∀ s', buddyAlloc size s = .ok (none, s') → s' = s) ∧
      ((∃ a, Window ⟨a, k⟩ ∧ ¬ Taken live ⟨a, k⟩) → ∃ a s' i found,
        buddyAlloc size s = .ok (some a, s') ∧ Window ⟨a, k⟩ ∧ ¬ Taken live ⟨a, k⟩ ∧
          IsLeast {j | k ≤ j ∧ s.freeArea j ≠ []} found ∧ i ∈ s.freeArea found ∧
          ∀ x, x ∈ (⟨a, k⟩ : Blk) → x ∈ (⟨pageToAddr i, found⟩ : Blk)) := by
  have hinv := reach_inv h
  obtain ⟨k, hk⟩ : ∃ k, requestOrder size = .ok k := requestOrder_ok (by omega)
  have hleast := requestOrder_isLeast hk
  have harea := area_ne_iff hinv (requestOrder_le hk hs)
  refine ⟨k, hleast, ?_⟩
  rcases alloc_spec hinv (by omega) hk with
    ⟨he, hempty⟩ | ⟨found, i, rest, s₁, h1, h2, hil, hempty, -, -, he⟩
  · -- all lists are empty, so no window is free
    have hnone : ¬ ∃ a, Window ⟨a, k⟩ ∧ ¬ Taken live ⟨a, k⟩ := fun hw => by
      obtain ⟨j, hkj, hj⟩ := harea.mpr hw
      exact hj (hempty j hkj)
    refine ⟨⟨fun _ a ha => ?_, fun _ => ⟨s, he⟩⟩, fun s' => alloc_none hinv, fun hw => absurd hw hnone⟩
    by_contra hn
    exact hnone ⟨a, ha, hn⟩
  · -- the block of order `k` at the head of the block found is free
    have hi : i ∈ s.freeArea found := by rw [hil]; exact List.mem_cons_self ..
    have hf : (⟨pageToAddr i, found⟩ : Blk) ∈ freeBlocks s := hinv.mem_free hi
    have hal : 2 ^ found ∣ pageToAddr i := (coalesced_freeBlocks hinv).aligned _ hf
    have hdv : 2 ^ k ∣ pageToAddr i := dvd_trans (pow_dvd_pow 2 h1) hal
    have hsub := sub_of_mem hdv hal h1 (off_mem ⟨pageToAddr i, k⟩) (off_mem ⟨pageToAddr i, found⟩)
    obtain ⟨hin, hn⟩ := (covered_iff hinv).mp fun x hx => ⟨_, hf, hsub x hx⟩
    refine ⟨⟨fun ⟨s', hs'⟩ => ?_, fun hall => absurd (hall _ ⟨hdv, hin⟩) hn⟩, fun s' => alloc_none hinv,
      fun _ => ⟨_, _, i, found, he, ⟨hdv, hin⟩, hn, ⟨⟨h1, List.ne_nil_of_mem hi⟩, ?_⟩, hi, hsub⟩⟩
    · rw [he] at hs'; simp at hs'
    · rintro j ⟨hkj, hj⟩
      by_contra hlt
      exact hj (hempty j hkj (not_le.mp hlt))

theorem granted_iff_whole : ∃ s : Allocator, buddyAlloc 4096 buddyInit = .ok (some 0, s) ∧
    ∃ k, IsLeast {k : ℕ | minOrder ≤ k ∧ (1048576 : ℤ) ≤ 2 ^ k} k ∧
      ((∃ s', buddyAlloc 1048576 s = .ok (none, s')) ↔
        ∀ a, Window ⟨a, k⟩ → Taken [⟨0, 12⟩] ⟨a, k⟩) := by
  obtain ⟨s, h⟩ : ∃ s, buddyAlloc 4096 buddyInit = .ok (some 0, s) := ⟨_, rfl⟩
  obtain ⟨k, h1, h2, -⟩ := granted_iff (.alloc .init (show requestOrder 4096 = .ok 12 from rfl) h)
    (show 1 ≤ (1048576 : ℤ) by decide) (by decide)
  exact ⟨s, h, k, h1, h2⟩

/-- **A request that no block can hold** is refused and changes nothing, up to `2 ^ 30` bytes. -/
theorem refused_of_large (h : Inv s [] live) (h1 : 2 ^ 20 < size) (h2 : size ≤ 2 ^ 30) :
    buddyAlloc size s = .ok (none, s) := by
  obtain ⟨o, ho⟩ := requestOrder_ok h2
  have hmax := lt_requestOrder ho h1
  rcases alloc_spec h (by omega) ho with ⟨he, -⟩ | ⟨found, -, -, -, h3, h4, -⟩
  · exact he
  · omega

/-- **When `buddy_alloc` has a result.** In every reachable allocator it comes to one without shifting
`1` by 31 places or more, and refuses what is not positive or larger than the memory without a change,
exactly for the requests of up to `2 ^ 30` bytes. -/
theorem total_iff (h : Reach s live) (size : ℤ) :
    ((∃ r, buddyAlloc size s = .ok r) ∧
      (size ≤ 0 ∨ 2 ^ 20 < size → buddyAlloc size s = .ok (none, s))) ↔ size ≤ 2 ^ 30 := by
  have hinv := reach_inv h
  constructor
  · rintro ⟨⟨r, hr⟩, -⟩
    by_contra hlt
    unfold buddyAlloc at hr
    rw [if_neg (by omega), requestOrder_shift (not_le.mp hlt)] at hr
    exact absurd hr (by simp [bind, Except.bind])
  · intro hs
    refine ⟨alloc_ok hinv hs, fun hr => ?_⟩
    rcases hr with hr | hr
    · exact alloc_nonpos hr
    · exact refused_of_large hinv hr hs

/-- A request of one byte more than `2 ^ 30`. -/
theorem total_iff_large : Reach buddyInit [] ∧ buddyAlloc 1073741825 buddyInit = .error .shift :=
  ⟨.init, rfl⟩

theorem total_iff_init : buddyAlloc 2097152 buddyInit = .ok (none, buddyInit) :=
  ((total_iff .init 2097152).mpr (by decide)).2 (Or.inr (by decide))

end Eecs678.Buddy.Requests
