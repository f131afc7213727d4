import Mathlib.Data.Nat.Bitwise
import Mathlib.Order.Interval.Finset.Nat
import Mathlib.Data.List.Perm.Basic
import Mathlib.Tactic.Ring

/-!
# Blocks whose size is a power of two, and tilings by them

A block of order `k` is the interval of the `2 ^ k` cells from `off` on. The blocks of interest are
*aligned*: the offset is a multiple of the size. Two aligned blocks are nested or apart, the buddy
of an aligned block is the other half of the block of the next order around it, and its offset is
obtained by flipping bit `k` (`buddyOff`).

A list of blocks *tiles* the first `2 ^ N` cells if its members are aligned, lie inside, are
pairwise apart and cover. Cutting a block in two halves keeps a tiling (`Tiles.split`), and so does
joining two halves (`Tiles.join`). A list of blocks without a pair of buddies is determined by the
cells it covers (`Coalesced.mem_iff`): its members are the largest aligned blocks inside.
-/

namespace Eecs678.Lib.Dyadic

/-- The `2 ^ order` cells from `off` on. -/
structure Blk where
  off : ℕ
  order : ℕ
deriving DecidableEq, Repr

instance : Membership ℕ Blk := ⟨fun b x => b.off ≤ x ∧ x < b.off + 2 ^ b.order⟩

theorem mem_blk {b : Blk} {x : ℕ} : x ∈ b ↔ b.off ≤ x ∧ x < b.off + 2 ^ b.order := Iff.rfl

theorem off_mem (b : Blk) : b.off ∈ b := ⟨le_rfl, Nat.lt_add_of_pos_right (Nat.two_pow_pos _)⟩

/-- No cell in common. -/
def Apart (b c : Blk) : Prop := b.off + 2 ^ b.order ≤ c.off ∨ c.off + 2 ^ c.order ≤ b.off

instance (b c : Blk) : Decidable (Apart b c) := by unfold Apart; infer_instance

theorem Apart.symm {b c : Blk} (h : Apart b c) : Apart c b := Or.symm h

instance : Std.Symm Apart := ⟨fun _ _ => Apart.symm⟩

theorem Apart.not_mem {b c : Blk} (h : Apart b c) {x : ℕ} (hb : x ∈ b) : x ∉ c := by
  rw [mem_blk] at *
  unfold Apart at h
  omega

theorem Apart.off_ne {b c : Blk} (h : Apart b c) : b.off ≠ c.off := fun he =>
  h.not_mem (off_mem b) (he ▸ off_mem c)

/-! ### Aligned blocks -/

/-- A cell is in an aligned block when it has its high bits. -/
theorem mem_iff_div {a k x : ℕ} (h : 2 ^ k ∣ a) : x ∈ (⟨a, k⟩ : Blk) ↔ x / 2 ^ k = a / 2 ^ k := by
  obtain ⟨m, rfl⟩ := h
  have hp := Nat.two_pow_pos k
  rw [mem_blk, Nat.mul_div_cancel_left m hp, Nat.div_eq_iff hp]
  have e : m * 2 ^ k = 2 ^ k * m := Nat.mul_comm _ _
  constructor <;> rintro ⟨h1, h2⟩ <;> constructor <;> simp only at * <;> omega

/-- **Aligned blocks are nested or apart.** -/
theorem sub_of_mem {a k b j x : ℕ} (ha : 2 ^ k ∣ a) (hb : 2 ^ j ∣ b) (hkj : k ≤ j)
    (hxa : x ∈ (⟨a, k⟩ : Blk)) (hxb : x ∈ (⟨b, j⟩ : Blk)) :
    ∀ y, y ∈ (⟨a, k⟩ : Blk) → y ∈ (⟨b, j⟩ : Blk) := by
  intro y hy
  rw [mem_iff_div ha] at hxa hy
  rw [mem_iff_div hb] at hxb ⊢
  have hj : 2 ^ j = 2 ^ k * 2 ^ (j - k) := by rw [← pow_add]; congr 1; omega
  rw [← hxb, hj, ← Nat.div_div_eq_div_mul, ← Nat.div_div_eq_div_mul, hxa, hy]

/-- A block inside another is not larger. -/
theorem order_le_of_sub {b c : Blk} (h : ∀ y, y ∈ b → y ∈ c) : b.order ≤ c.order := by
  have h1 := h _ (off_mem b)
  have hp := Nat.two_pow_pos b.order
  have h2 := h (b.off + 2 ^ b.order - 1) ⟨by omega, by omega⟩
  rw [mem_blk] at h1 h2
  by_contra hlt
  have : 2 ^ c.order < 2 ^ b.order := Nat.pow_lt_pow_right (by norm_num) (by omega)
  have h3 : 2 ^ c.order * 2 ≤ 2 ^ b.order := by
    rw [← pow_succ]; exact Nat.pow_le_pow_right (by norm_num) (by omega)
  omega

theorem eq_of_sub {b c : Blk} (h : ∀ y, y ∈ b → y ∈ c) (ho : b.order = c.order) : b = c := by
  obtain ⟨a, k⟩ := b
  obtain ⟨a', k'⟩ := c
  simp only at ho
  subst ho
  have h1 := h _ (off_mem _)
  have hp := Nat.two_pow_pos k
  have h2 := h (a + 2 ^ k - 1) ⟨by simp only; omega, by simp only; omega⟩
  rw [mem_blk] at h1 h2
  simp only at h1 h2
  congr 1
  omega

/-! ### Buddies -/

/-- The offset with bit `k` flipped. -/
def buddyOff (a k : ℕ) : ℕ := a ^^^ 2 ^ k

/-- The block of the same order with which a block makes a block of the next order. -/
def Blk.buddy (b : Blk) : Blk := ⟨buddyOff b.off b.order, b.order⟩

/-- Flipping bit `k` of a multiple of `2 ^ k` adds or subtracts `2 ^ k`. -/
theorem buddyOff_eq {a k : ℕ} (h : 2 ^ k ∣ a) :
    (2 ^ (k + 1) ∣ a ∧ buddyOff a k = a + 2 ^ k) ∨
      (2 ^ k ≤ a ∧ 2 ^ (k + 1) ∣ a - 2 ^ k ∧ buddyOff a k = a - 2 ^ k) := by
  obtain ⟨m, rfl⟩ := h
  have hx : buddyOff (2 ^ k * m) k = 2 ^ k * (m ^^^ 1) := by
    have := Nat.shiftLeft_xor_distrib (a := m) (b := 1) (i := k)
    simp only [Nat.shiftLeft_eq, one_mul] at this
    rw [buddyOff, Nat.mul_comm (2 ^ k) m, ← this, Nat.mul_comm]
  rcases Nat.even_or_odd m with hm | hm
  · left
    rw [hx, Nat.xor_one_of_even hm]
    refine ⟨?_, by ring⟩
    rw [pow_succ]
    exact Nat.mul_dvd_mul_left _ hm.two_dvd
  · right
    obtain ⟨n, rfl⟩ := hm
    rw [hx, Nat.xor_one_of_odd ⟨n, rfl⟩]
    have e : 2 ^ k * (2 * n + 1) - 2 ^ k = 2 ^ (k + 1) * n := by
      rw [show 2 ^ k * (2 * n + 1) = 2 ^ (k + 1) * n + 2 ^ k by ring]; omega
    refine ⟨Nat.le_mul_of_pos_right _ (by omega), ⟨n, e⟩, ?_⟩
    rw [e, show 2 * n + 1 - 1 = 2 * n by omega]; ring

/-- The buddy of the left half is the right half. -/
theorem buddyOff_of_dvd {a k : ℕ} (h : 2 ^ (k + 1) ∣ a) : buddyOff a k = a + 2 ^ k := by
  rcases buddyOff_eq (dvd_trans (pow_dvd_pow 2 (Nat.le_succ k)) h) with ⟨-, e⟩ | ⟨h0, h1, -⟩
  · exact e
  · -- `a` and `a - 2 ^ k` are not both multiples of `2 ^ (k + 1)`
    have h2 := Nat.dvd_sub h h1
    rw [show a - (a - 2 ^ k) = 2 ^ k by omega] at h2
    have := Nat.le_of_dvd (Nat.two_pow_pos k) h2
    have := Nat.pow_lt_pow_right (a := 2) (by norm_num) (Nat.lt_succ_self k)
    omega

theorem buddyOff_dvd {a k : ℕ} (h : 2 ^ k ∣ a) : 2 ^ k ∣ buddyOff a k := by
  rcases buddyOff_eq h with ⟨-, e⟩ | ⟨-, -, e⟩
  · rw [e]; exact (Nat.dvd_add_right h).mpr (dvd_refl _)
  · rw [e]; exact Nat.dvd_sub h (dvd_refl _)

theorem buddyOff_ne {a k : ℕ} (h : 2 ^ k ∣ a) : buddyOff a k ≠ a := by
  have hp := Nat.two_pow_pos k
  rcases buddyOff_eq h with ⟨-, e⟩ | ⟨h1, -, e⟩ <;> omega

theorem buddyOff_buddyOff (a k : ℕ) : buddyOff (buddyOff a k) k = a := by
  simp [buddyOff]

theorem Blk.buddy_buddy (b : Blk) : b.buddy.buddy = b := by
  simp only [Blk.buddy, buddyOff_buddyOff]

/-- The first cell of the buddy of a small block inside the area is inside the area. -/
theorem buddyOff_lt {a k N : ℕ} (hk : k < N) (ha : a < 2 ^ N) :
    buddyOff a k < 2 ^ N :=
  Nat.xor_lt_two_pow ha (Nat.pow_lt_pow_right (by norm_num) hk)

/-! ### Tilings -/

/-- The blocks are aligned, lie in the first `2 ^ N` cells, are pairwise apart and cover them. -/
structure Tiles (N : ℕ) (l : List Blk) : Prop where
  aligned : ∀ b ∈ l, 2 ^ b.order ∣ b.off
  inside : ∀ b ∈ l, b.off + 2 ^ b.order ≤ 2 ^ N
  apart : l.Pairwise Apart
  cover : ∀ x < 2 ^ N, ∃ b ∈ l, x ∈ b

theorem tiles_whole (N : ℕ) : Tiles N [⟨0, N⟩] :=
  ⟨by simp, by simp, by simp, fun x hx => ⟨⟨0, N⟩, by simp, Nat.zero_le _, by simpa using hx⟩⟩

theorem Tiles.perm {N : ℕ} {l l' : List Blk} (h : Tiles N l) (hp : l.Perm l') : Tiles N l' :=
  ⟨fun b hb => h.aligned b (hp.mem_iff.mpr hb), fun b hb => h.inside b (hp.mem_iff.mpr hb),
    (hp.pairwise_iff Apart.symm).mp h.apart, fun x hx => by
      obtain ⟨b, hb, hx⟩ := h.cover x hx
      exact ⟨b, hp.mem_iff.mp hb, hx⟩⟩

theorem Tiles.order_le {N : ℕ} {l : List Blk} (h : Tiles N l) {b : Blk} (hb : b ∈ l) :
    b.order ≤ N := by
  have := h.inside b hb
  exact (Nat.pow_le_pow_iff_right (by norm_num)).mp (show 2 ^ b.order ≤ 2 ^ N by omega)

theorem Tiles.off_lt {N : ℕ} {l : List Blk} (h : Tiles N l) {b : Blk} (hb : b ∈ l) :
    b.off < 2 ^ N := by
  have := h.inside b hb
  have := Nat.two_pow_pos b.order
  omega

/-- Two members of a tiling with a common cell are the same block. -/
theorem Tiles.eq_of_mem {N : ℕ} {l : List Blk} (h : Tiles N l) {b c : Blk} (hb : b ∈ l)
    (hc : c ∈ l) {x : ℕ} (hxb : x ∈ b) (hxc : x ∈ c) : b = c := by
  by_contra hne
  exact (h.apart.forall hb hc hne).not_mem hxb hxc

theorem Tiles.nodup {N : ℕ} {l : List Blk} (h : Tiles N l) : l.Nodup :=
  h.apart.imp fun hbc he => hbc.off_ne (congrArg Blk.off he)

/-- The cells of a block are those of its two halves. -/
theorem mem_halves {a k x : ℕ} :
    x ∈ (⟨a, k + 1⟩ : Blk) ↔ x ∈ (⟨a, k⟩ : Blk) ∨ x ∈ (⟨a + 2 ^ k, k⟩ : Blk) := by
  simp only [mem_blk, pow_succ]
  omega

theorem apart_halves_iff {a k : ℕ} {c : Blk} :
    Apart ⟨a, k + 1⟩ c ↔ Apart ⟨a, k⟩ c ∧ Apart ⟨a + 2 ^ k, k⟩ c := by
  have := Nat.two_pow_pos k
  have := Nat.two_pow_pos c.order
  simp only [Apart, pow_succ]
  omega

/-- **Cutting a block in two halves keeps a tiling.** -/
theorem Tiles.split {N a k : ℕ} {l : List Blk} (h : Tiles N (⟨a, k + 1⟩ :: l)) :
    Tiles N (⟨a, k⟩ :: ⟨a + 2 ^ k, k⟩ :: l) := by
  have hal := h.aligned _ (List.mem_cons_self ..)
  have hin := h.inside _ (List.mem_cons_self ..)
  have hdv : 2 ^ k ∣ a := dvd_trans (pow_dvd_pow 2 (Nat.le_succ k)) hal
  have hap := List.pairwise_cons.mp h.apart
  simp only [pow_succ] at hin
  refine ⟨?_, ?_, ?_, fun x hx => ?_⟩
  · intro b hb
    rcases List.mem_cons.mp hb with rfl | hb
    · exact hdv
    · rcases List.mem_cons.mp hb with rfl | hb
      · exact (Nat.dvd_add_right hdv).mpr (dvd_refl _)
      · exact h.aligned b (List.mem_cons_of_mem _ hb)
  · intro b hb
    rcases List.mem_cons.mp hb with rfl | hb
    · simp only; omega
    · rcases List.mem_cons.mp hb with rfl | hb
      · simp only; omega
      · exact h.inside b (List.mem_cons_of_mem _ hb)
  · refine List.pairwise_cons.mpr ⟨fun c hc => ?_, List.pairwise_cons.mpr ⟨fun c hc => ?_, hap.2⟩⟩
    · rcases List.mem_cons.mp hc with rfl | hc
      · exact Or.inl le_rfl
      · exact (apart_halves_iff.mp (hap.1 c hc)).1
    · exact (apart_halves_iff.mp (hap.1 c hc)).2
  · obtain ⟨b, hb, hxb⟩ := h.cover x hx
    rcases List.mem_cons.mp hb with rfl | hb
    · rcases mem_halves.mp hxb with hxb | hxb
      · exact ⟨_, by simp, hxb⟩
      · exact ⟨_, by simp, hxb⟩
    · exact ⟨b, by simp [hb], hxb⟩

/-- **Joining two halves keeps a tiling.** -/
theorem Tiles.join {N a k : ℕ} {l : List Blk} (h : Tiles N (⟨a, k⟩ :: ⟨a + 2 ^ k, k⟩ :: l))
    (hal : 2 ^ (k + 1) ∣ a) : Tiles N (⟨a, k + 1⟩ :: l) := by
  have hin := h.inside ⟨a + 2 ^ k, k⟩ (by simp)
  have hap := List.pairwise_cons.mp h.apart
  have hap' := List.pairwise_cons.mp hap.2
  simp only at hin
  refine ⟨?_, ?_, ?_, fun x hx => ?_⟩
  · intro b hb
    rcases List.mem_cons.mp hb with rfl | hb
    · exact hal
    · exact h.aligned b (by simp [hb])
  · intro b hb
    rcases List.mem_cons.mp hb with rfl | hb
    · simp only [pow_succ]; omega
    · exact h.inside b (by simp [hb])
  · exact List.pairwise_cons.mpr ⟨fun c hc =>
      apart_halves_iff.mpr ⟨hap.1 c (by simp [hc]), hap'.1 c hc⟩, hap'.2⟩
  · obtain ⟨b, hb, hxb⟩ := h.cover x hx
    rcases List.mem_cons.mp hb with rfl | hb
    · exact ⟨_, by simp, mem_halves.mpr (Or.inl hxb)⟩
    · rcases List.mem_cons.mp hb with rfl | hb
      · exact ⟨_, by simp, mem_halves.mpr (Or.inr hxb)⟩
      · exact ⟨b, by simp [hb], hxb⟩

/-- **The buddy of a member is the first cell of a member that is not larger.** -/
theorem Tiles.buddy_head {N : ℕ} {l : List Blk} (h : Tiles N l) {b : Blk} (hb : b ∈ l)
    (hN : b.order < N) : ∃ c ∈ l, c.off = buddyOff b.off b.order ∧ c.order ≤ b.order := by
  have hal := h.aligned b hb
  obtain ⟨c, hc, hxc⟩ := h.cover _ (buddyOff_lt hN (h.off_lt hb))
  have hco := h.aligned c hc
  have hle : c.order ≤ b.order := by
    by_contra hlt
    -- a larger block around the buddy would contain `b` too
    have hmem : b.off ∈ c := by
      have hp := pow_succ 2 b.order
      have hdv : 2 ^ (b.order + 1) ∣ c.off := dvd_trans (pow_dvd_pow 2 (by omega)) hco
      rcases buddyOff_eq hal with ⟨h1, e⟩ | ⟨h0, h1, e⟩
      · have hsub := sub_of_mem (x := buddyOff b.off b.order) h1 hco (by omega)
          (by rw [e, mem_blk]; simp only; omega) hxc
        exact hsub _ (off_mem ⟨b.off, b.order + 1⟩)
      · have hsub := sub_of_mem (x := buddyOff b.off b.order) h1 hco (by omega)
          (by rw [e]; exact off_mem ⟨b.off - 2 ^ b.order, b.order + 1⟩) hxc
        exact hsub _ (by rw [mem_blk]; simp only; omega)
    have := h.eq_of_mem hb hc (off_mem b) hmem
    subst this
    exact hlt le_rfl
  refine ⟨c, hc, ?_, hle⟩
  have hsub := sub_of_mem (a := c.off) (k := c.order) hco (buddyOff_dvd hal) hle hxc
    (off_mem ⟨buddyOff b.off b.order, b.order⟩) _ (off_mem c)
  rw [mem_blk] at hsub hxc
  simp only at hsub
  omega

/-- The sizes of a tiling add up to the area. -/
theorem Tiles.sum {N : ℕ} {l : List Blk} (h : Tiles N l) :
    (l.map fun b => 2 ^ b.order).sum = 2 ^ N := by
  have key : ∀ l : List Blk, l.Pairwise Apart → ∀ S : Finset ℕ,
      (∀ x, x ∈ S ↔ ∃ b ∈ l, x ∈ b) → (l.map fun b => 2 ^ b.order).sum = S.card := by
    intro l
    induction l with
    | nil =>
      intro _ S hS
      have he : S = ∅ := Finset.eq_empty_of_forall_notMem fun x hx => by simpa using (hS x).mp hx
      simp [he]
    | cons b l ih =>
      intro hp S hS
      rw [List.pairwise_cons] at hp
      have hbS : Finset.Ico b.off (b.off + 2 ^ b.order) ⊆ S := fun x hx =>
        (hS x).mpr ⟨b, by simp, Finset.mem_Ico.mp hx⟩
      rw [List.map_cons, List.sum_cons, ih hp.2 (S \ Finset.Ico b.off (b.off + 2 ^ b.order)),
        Finset.card_sdiff_of_subset hbS, Nat.card_Ico, Nat.add_sub_cancel_left]
      · have hle := Finset.card_le_card hbS
        rw [Nat.card_Ico] at hle
        omega
      · intro x
        rw [Finset.mem_sdiff, hS, Finset.mem_Ico]
        constructor
        · rintro ⟨⟨c, hc, hxc⟩, hn⟩
          rcases List.mem_cons.mp hc with rfl | hc
          · exact absurd hxc hn
          · exact ⟨c, hc, hxc⟩
        · rintro ⟨c, hc, hxc⟩
          exact ⟨⟨c, by simp [hc], hxc⟩, fun hxb => (hp.1 c hc).not_mem hxb hxc⟩
  rw [key l h.apart (Finset.range (2 ^ N)) fun x => ?_, Finset.card_range]
  rw [Finset.mem_range]
  refine ⟨h.cover x, fun ⟨b, hb, hx⟩ => ?_⟩
  have := h.inside b hb
  rw [mem_blk] at hx
  omega

/-! ### Lists of blocks without buddies -/

/-- Aligned blocks that are pairwise apart, and no two of them can be joined. -/
structure Coalesced (N : ℕ) (F : List Blk) : Prop where
  aligned : ∀ b ∈ F, 2 ^ b.order ∣ b.off
  order_le : ∀ b ∈ F, b.order ≤ N
  apart : ∀ b ∈ F, ∀ c ∈ F, b ≠ c → Apart b c
  noBuddy : ∀ b ∈ F, b.order < N → b.buddy ∉ F

/-- **An aligned block covered by a list without buddies lies inside one member.** The induction is
on the order: both halves lie inside members, and two members that are exactly the halves would be
buddies. -/
theorem Coalesced.sub_member {N : ℕ} {F : List Blk} (h : Coalesced N F) :
    ∀ (k a : ℕ), k ≤ N → 2 ^ k ∣ a → (∀ x, x ∈ (⟨a, k⟩ : Blk) → ∃ f ∈ F, x ∈ f) →
      ∃ f ∈ F, ∀ x, x ∈ (⟨a, k⟩ : Blk) → x ∈ f
  | 0, a, _, _, hc => by
    obtain ⟨f, hf, hx⟩ := hc a (off_mem ⟨a, 0⟩)
    refine ⟨f, hf, fun x hxa => ?_⟩
    rw [mem_blk] at hxa
    simp only [pow_zero] at hxa
    rwa [show x = a by omega]
  | k + 1, a, hk, hal, hc => by
    have hdv : 2 ^ k ∣ a := dvd_trans (pow_dvd_pow 2 (Nat.le_succ k)) hal
    have hdv' : 2 ^ k ∣ a + 2 ^ k := (Nat.dvd_add_right hdv).mpr (dvd_refl _)
    obtain ⟨f, hf, hfs⟩ := h.sub_member k a (by omega) hdv fun x hx =>
      hc x (mem_halves.mpr (Or.inl hx))
    obtain ⟨g, hg, hgs⟩ := h.sub_member k (a + 2 ^ k) (by omega) hdv' fun x hx =>
      hc x (mem_halves.mpr (Or.inr hx))
    have hfo := order_le_of_sub hfs
    have hgo := order_le_of_sub hgs
    simp only at hfo hgo
    rcases Nat.lt_or_ge k f.order with hlt | hge
    · exact ⟨f, hf, sub_of_mem hal (h.aligned f hf) hlt (off_mem ⟨a, k + 1⟩)
        (hfs _ (off_mem ⟨a, k⟩))⟩
    rcases Nat.lt_or_ge k g.order with hlt | hge'
    · exact ⟨g, hg, sub_of_mem hal (h.aligned g hg) hlt
        (mem_halves.mpr (Or.inr (off_mem ⟨a + 2 ^ k, k⟩))) (hgs _ (off_mem ⟨a + 2 ^ k, k⟩))⟩
    have ef : (⟨a, k⟩ : Blk) = f := eq_of_sub hfs (by simp only; omega)
    have eg : (⟨a + 2 ^ k, k⟩ : Blk) = g := eq_of_sub hgs (by simp only; omega)
    subst ef eg
    refine absurd hg ?_
    have hb : (⟨a, k⟩ : Blk).buddy = ⟨a + 2 ^ k, k⟩ := by
      simp only [Blk.buddy, buddyOff_of_dvd hal]
    rw [← hb]
    exact h.noBuddy _ hf (by simp only; omega)

/-- **A list without buddies has a member of order `k` or more** when it covers some aligned block of
order `k`. -/
theorem Coalesced.large_iff {N k : ℕ} {F : List Blk} (h : Coalesced N F) (hk : k ≤ N) :
    (∃ f ∈ F, k ≤ f.order) ↔ ∃ a, 2 ^ k ∣ a ∧ ∀ x, x ∈ (⟨a, k⟩ : Blk) → ∃ f ∈ F, x ∈ f := by
  constructor
  · rintro ⟨f, hf, hkf⟩
    have hal : 2 ^ k ∣ f.off := dvd_trans (pow_dvd_pow 2 hkf) (h.aligned f hf)
    exact ⟨f.off, hal, fun x hx => ⟨f, hf,
      sub_of_mem hal (h.aligned f hf) hkf (off_mem ⟨f.off, k⟩) (off_mem f) x hx⟩⟩
  · rintro ⟨a, ha, hc⟩
    obtain ⟨f, hf, hfs⟩ := h.sub_member k a hk ha hc
    exact ⟨f, hf, order_le_of_sub hfs⟩

/-- **A list without buddies is determined by its cells.** -/
theorem Coalesced.mem_iff {N : ℕ} {F G : List Blk} (hF : Coalesced N F) (hG : Coalesced N G)
    (he : ∀ x, (∃ f ∈ F, x ∈ f) ↔ ∃ g ∈ G, x ∈ g) (b : Blk) : b ∈ F ↔ b ∈ G := by
  have key : ∀ {F G : List Blk}, Coalesced N F → Coalesced N G →
      (∀ x, (∃ f ∈ F, x ∈ f) ↔ ∃ g ∈ G, x ∈ g) → ∀ b ∈ F, b ∈ G := by
    intro F G hF hG he b hb
    obtain ⟨g, hg, hbg⟩ := hG.sub_member b.order b.off (hF.order_le b hb) (hF.aligned b hb)
      fun x hx => (he x).mp ⟨b, hb, hx⟩
    obtain ⟨f, hf, hgf⟩ := hF.sub_member g.order g.off (hG.order_le g hg) (hG.aligned g hg)
      fun x hx => (he x).mpr ⟨g, hg, hx⟩
    have hbf : b = f := by
      by_contra hne
      exact (hF.apart b hb f hf hne).not_mem (off_mem b) (hgf _ (hbg _ (off_mem b)))
    subst hbf
    have h1 := order_le_of_sub hbg
    have h2 := order_le_of_sub hgf
    simp only at h1 h2
    rw [eq_of_sub (b := b) hbg (by omega)]
    exact hg
  exact ⟨key hF hG he b, key hG hF (fun x => (he x).symm) b⟩

end Eecs678.Lib.Dyadic
