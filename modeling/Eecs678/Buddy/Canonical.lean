import Eecs678.Buddy.Partition

/-!
# The free lists are determined by the live blocks

No two buddies are free at once, so the free blocks are the largest aligned blocks of the memory
that is not live (`Dyadic.Coalesced.mem_iff`): two histories that end with the same live blocks end
with the same free blocks, whatever the order of their calls.
-/

namespace Eecs678.Buddy.Canonical

open Eecs678.Lib.Dyadic Eecs678.Buddy.Model Eecs678.Buddy.Invariant Eecs678.Buddy.Partition

variable {s s' : Allocator} {live live' : List Blk}

theorem coalesced_freeBlocks (h : Inv s [] live) : Coalesced maxOrder (freeBlocks s) where
  aligned b hb := h.tiles.aligned b (List.mem_append_left _ hb)
  order_le _ hb := h.tiles.order_le (List.mem_append_left _ hb)
  apart _ hb _ hc hne := (List.pairwise_append.mp h.tiles.apart).1.forall hb hc hne
  noBuddy := h.noBuddy

theorem free_cell_iff (h : Inv s [] live) (x : ℕ) :
    (∃ f ∈ freeBlocks s, x ∈ f) ↔ x < 2 ^ maxOrder ∧ ∀ b ∈ live, x ∉ b := by
  have hp := List.pairwise_append.mp h.tiles.apart
  constructor
  · rintro ⟨f, hf, hx⟩
    refine ⟨?_, fun b hb => (hp.2.2 f hf b hb).not_mem hx⟩
    have := h.tiles.inside f (List.mem_append_left _ hf)
    rw [mem_blk] at hx
    omega
  · rintro ⟨hx, hn⟩
    obtain ⟨f, hf, hxf⟩ := h.tiles.cover x hx
    rcases List.mem_append.mp hf with hf | hf
    · exact ⟨f, hf, hxf⟩
    · exact absurd hxf (hn f hf)

theorem freeBlocks_unique (h : Inv s [] live) (h' : Inv s' [] live')
    (hl : ∀ b, b ∈ live ↔ b ∈ live') (b : Blk) : b ∈ freeBlocks s ↔ b ∈ freeBlocks s' := by
  refine (coalesced_freeBlocks h).mem_iff (coalesced_freeBlocks h') (fun x => ?_) b
  rw [free_cell_iff h, free_cell_iff h']
  simp only [hl]

theorem mem_area_iff (h : Inv s [] live) (o i : ℕ) :
    i ∈ s.freeArea o ↔ (⟨pageToAddr i, o⟩ : Blk) ∈ freeBlocks s := by
  refine ⟨h.mem_free, fun hb => ?_⟩
  obtain ⟨-, j, hj, he⟩ := mem_freeBlocks.mp hb
  rwa [pageToAddr_inj he]

/-- Two reachable allocators with the same live blocks have the same pages on every list. -/
theorem area_unique (h : Reach s live) (h' : Reach s' live') (hl : ∀ b, b ∈ live ↔ b ∈ live')
    (o i : ℕ) : i ∈ s.freeArea o ↔ i ∈ s'.freeArea o := by
  rw [mem_area_iff (reach_inv h), mem_area_iff (reach_inv h'),
    freeBlocks_unique (reach_inv h) (reach_inv h') hl]

/-- Without live blocks the whole memory is the one free block. -/
theorem area_whole (h : Reach s []) :
    s.freeArea maxOrder = [0] ∧ ∀ o, o ≠ maxOrder → s.freeArea o = [] := by
  have hi := area_unique h .init fun b => Iff.rfl
  constructor
  · have hmem : ∀ i, i ∈ s.freeArea maxOrder ↔ i = 0 := fun i => by rw [hi]; simp [buddyInit]
    have hnd := (reach_inv h).area_nodup maxOrder
    obtain ⟨a, l, hal⟩ := List.exists_cons_of_ne_nil (List.ne_nil_of_mem ((hmem 0).mpr rfl))
    have ha : a = 0 := (hmem a).mp (by rw [hal]; simp)
    have hl : l = [] := List.eq_nil_iff_forall_not_mem.mpr fun b hb => by
      have hb0 : b = 0 := (hmem b).mp (by rw [hal]; simp [hb])
      rw [hal, List.nodup_cons] at hnd
      exact hnd.1 (by rw [ha, ← hb0]; exact hb)
    rw [hal, ha, hl]
  · intro o ho
    refine List.eq_nil_iff_forall_not_mem.mpr fun i hm => ?_
    rw [hi] at hm
    simp [buddyInit, Function.update_of_ne ho] at hm

/-- `buddy_free` of several blocks, one after the other. -/
def freeAll (l : List Blk) (s : Allocator) : Except Fault Allocator :=
  l.foldlM (fun s b => buddyFree b.off s) s

theorem freeAll_reach : ∀ (l : List Blk) {s : Allocator} {live : List Blk}, Reach s live →
    l.Perm live → ∃ s', freeAll l s = .ok s' ∧ Reach s' []
  | [], s, live, h, hp => by
    rw [hp.nil_eq.symm] at h
    exact ⟨s, rfl, h⟩
  | b :: l, s, live, h, hp => by
    have hb : b ∈ live := hp.mem_iff.mp (List.mem_cons_self ..)
    obtain ⟨s1, h1, -⟩ := free_inv (reach_inv h) hb
    have hp' : l.Perm (live.erase b) := List.Perm.cons_inv (hp.trans (List.perm_cons_erase hb))
    obtain ⟨s', hs', hr⟩ := freeAll_reach l (.free h hb h1) hp'
    refine ⟨s', ?_, hr⟩
    unfold freeAll at hs' ⊢
    rw [List.foldlM_cons, h1]
    exact hs'

/-- **The free lists are a function of the live blocks.** In a reachable allocator no list of an
order below `MAX_ORDER` has both halves of a pair of buddies; two reachable allocators with the same
live blocks have the same pages on every list; and freeing all live blocks, in any order, makes the
whole memory one free block. -/
theorem canonical (h : Reach s live) :
    (∀ o < maxOrder, ∀ i ∈ s.freeArea o, ∀ j ∈ s.freeArea o,
      pageToAddr j ≠ buddyAddr (pageToAddr i) o) ∧
    (∀ {s' : Allocator} {live' : List Blk}, Reach s' live' → (∀ b, b ∈ live ↔ b ∈ live') →
      ∀ o i, i ∈ s.freeArea o ↔ i ∈ s'.freeArea o) ∧
    ∀ l : List Blk, l.Perm live → ∃ s', freeAll l s = .ok s' ∧
      s'.freeArea maxOrder = [0] ∧ ∀ o, o ≠ maxOrder → s'.freeArea o = [] := by
  have hinv := reach_inv h
  refine ⟨fun o ho i hi j hj he => ?_, area_unique h, fun l hl => ?_⟩
  · refine hinv.noBuddy _ (hinv.mem_free hi) ho ?_
    rw [Blk.buddy, ← show pageToAddr j = buddyOff (pageToAddr i) o from he]
    exact hinv.mem_free hj
  · obtain ⟨s', hs', hr⟩ := freeAll_reach l h hl
    exact ⟨s', hs', area_whole hr⟩

/-- Two blocks freed in the two orders. -/
theorem canonical_free_orders : ∃ s s1 s2 : Allocator,
    freeAll [⟨0, 12⟩, ⟨8192, 13⟩] s = .ok s1 ∧ freeAll [⟨8192, 13⟩, ⟨0, 12⟩] s = .ok s2 ∧
      ∀ o i, i ∈ s1.freeArea o ↔ i ∈ s2.freeArea o := by
  obtain ⟨s0, s, h0, h⟩ : ∃ s0 s, buddyAlloc 4096 buddyInit = .ok (some 0, s0) ∧
      buddyAlloc 5000 s0 = .ok (some 8192, s) := ⟨_, _, rfl, rfl⟩
  have hr : Reach s [⟨8192, 13⟩, ⟨0, 12⟩] :=
    .alloc (.alloc .init (show requestOrder 4096 = .ok 12 from rfl) h0)
      (show requestOrder 5000 = .ok 13 from rfl) h
  obtain ⟨s1, h1, hr1⟩ := freeAll_reach _ hr (List.Perm.swap _ _ _)
  obtain ⟨s2, h2, hr2⟩ := freeAll_reach _ hr (List.Perm.refl _)
  exact ⟨s, s1, s2, h1, h2, (canonical hr1).2.1 hr2 fun b => Iff.rfl⟩

end Eecs678.Buddy.Canonical
