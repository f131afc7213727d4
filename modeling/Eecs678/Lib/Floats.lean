import Mathlib.Algebra.Order.Field.Power
import Mathlib.Data.Int.Log
import Mathlib.Data.Rat.Floor
import Mathlib.Tactic.FieldSimp
import Mathlib.Tactic.Linarith
import Mathlib.Tactic.Positivity

/-!
# Rounding to floating-point numbers

A rational in `p` significant bits, the nearest one and of two the one with an even significand
(`roundRat`), and an integer, which stays an integer (`roundInt`). Exponents have no bounds. `roundRat_mono`
and `abs_roundRat_sub_le` are the order and the error; small integers are exact (`roundInt_of_le`). A sum
that is rounded after each addition (`sumRounded`) is too large by at most one factor for each term
(`sumRounded_le`), and exact as long as it is small (`sumRounded_eq`).
-/

namespace Eecs678.Lib.Floats

/-! ### The nearest integer -/

/-- The integer nearest to `x`, the even one of two. -/
def nearest (x : ℚ) : ℤ :=
  if 2 * (x - ⌊x⌋) < 1 ∨ 2 * (x - ⌊x⌋) = 1 ∧ ⌊x⌋ % 2 = 0 then ⌊x⌋ else ⌊x⌋ + 1

/-- The integer nearest to `a / b`, by division with remainder. -/
def nearestDiv (a : ℤ) (b : ℕ) : ℤ :=
  if 2 * (a % b) < b ∨ 2 * (a % b) = b ∧ a / b % 2 = 0 then a / b else a / b + 1

theorem nearestDiv_eq (a : ℤ) {b : ℕ} (hb : 0 < b) : nearestDiv a b = nearest (a / b) := by
  have hb' : (0 : ℚ) < b := Nat.cast_pos.mpr hb
  have hfloor : ⌊(a / b : ℚ)⌋ = a / b := Rat.floor_intCast_div_natCast a b
  have hmod : ((a % b : ℤ) : ℚ) = b * ((a / b : ℚ) - ((a / b : ℤ) : ℚ)) := by
    rw [Int.emod_def]
    push_cast
    field_simp
  have hlt : 2 * (a % b) < b ↔ 2 * ((a / b : ℚ) - ((a / b : ℤ) : ℚ)) < 1 := by
    rw [← Int.cast_lt (R := ℚ)]
    push_cast
    rw [hmod, mul_left_comm]
    exact ⟨fun h => lt_of_mul_lt_mul_left (by rwa [mul_one]) hb'.le, fun h => by
      have := mul_lt_mul_of_pos_left h hb'
      rwa [mul_one] at this⟩
  have heq : 2 * (a % b) = b ↔ 2 * ((a / b : ℚ) - ((a / b : ℤ) : ℚ)) = 1 := by
    rw [← Int.cast_inj (α := ℚ)]
    push_cast
    rw [hmod, mul_left_comm]
    exact ⟨fun h => mul_left_cancel₀ hb'.ne' (by rwa [mul_one]), fun h => by rw [h, mul_one]⟩
  rw [nearestDiv, nearest, hfloor, if_congr (or_congr hlt (and_congr_left' heq)) rfl rfl]

theorem nearest_intCast (n : ℤ) : nearest n = n := by
  rw [nearest, Int.floor_intCast, sub_self, if_pos (Or.inl (by norm_num))]

/-- **The nearest integer is at most a half away.** -/
theorem abs_nearest_sub_le (x : ℚ) : |(nearest x : ℚ) - x| ≤ 1 / 2 := by
  have h1 := Int.floor_le x
  have h2 := Int.lt_floor_add_one x
  unfold nearest
  split_ifs with h
  · rw [abs_le]
    have hle : 2 * (x - ⌊x⌋) ≤ 1 := h.elim (fun hlt => hlt.le) fun heq => heq.1.le
    constructor <;> linarith
  · rw [not_or, not_lt] at h
    push_cast
    rw [abs_le]
    constructor <;> linarith [h.1]

theorem nearest_mono {x y : ℚ} (h : x ≤ y) : nearest x ≤ nearest y := by
  have hx := abs_le.mp (abs_nearest_sub_le x)
  have hy := abs_le.mp (abs_nearest_sub_le y)
  by_contra hlt
  have hge : (nearest y : ℚ) + 1 ≤ nearest x := by exact_mod_cast Int.add_one_le_iff.mpr (not_le.mp hlt)
  -- both are a half away, and then the two numbers are one
  have heq : x = y := by linarith [hx.2, hy.1]
  rw [heq] at hge
  linarith

theorem nearest_le {x : ℚ} {n : ℤ} (h : x ≤ n) : nearest x ≤ n := nearest_intCast n ▸ nearest_mono h

theorem le_nearest {x : ℚ} {n : ℤ} (h : n ≤ x) : n ≤ nearest x := nearest_intCast n ▸ nearest_mono h

/-! ### Rounding -/

/-- The exponent of the last one of `p` bits. -/
def exponent (p : ℕ) (x : ℚ) : ℤ := Int.log 2 |x| + 1 - p

/-- A rational in `p` bits. -/
def roundRat (p : ℕ) (x : ℚ) : ℚ := nearest (x / 2 ^ exponent p x) * 2 ^ exponent p x

/-- An integer in `p` bits. -/
def roundInt (p : ℕ) (n : ℤ) : ℤ :=
  nearestDiv n (2 ^ (n.natAbs.log2 + 1 - p)) * 2 ^ (n.natAbs.log2 + 1 - p)

variable {p : ℕ} {x y : ℚ}

theorem roundRat_zero (p : ℕ) : roundRat p 0 = 0 := by
  have h0 : nearest 0 = 0 := by exact_mod_cast nearest_intCast 0
  rw [roundRat, zero_div, h0, Int.cast_zero, zero_mul]

theorem exponent_intCast {n : ℤ} (p : ℕ) : exponent p n = n.natAbs.log2 + 1 - p := by
  have habs : |(n : ℚ)| = (n.natAbs : ℚ) := by rw [Nat.cast_natAbs, Int.cast_abs]
  rw [exponent, habs, Int.log_natCast, Nat.log2_eq_log_two]

/-- **An integer is rounded to an integer.** -/
theorem roundRat_intCast (p : ℕ) (n : ℤ) : roundRat p n = roundInt p n := by
  rw [roundRat, roundInt, exponent_intCast]
  rcases Nat.le_total (n.natAbs.log2 + 1) p with hle | hle
  · -- all bits fit
    have hexp : ((n.natAbs.log2 : ℤ) + 1 - p) = -((p - (n.natAbs.log2 + 1) : ℕ) : ℤ) := by omega
    have hint : (n : ℚ) / 2 ^ (-((p - (n.natAbs.log2 + 1) : ℕ) : ℤ)) =
        ((n * 2 ^ (p - (n.natAbs.log2 + 1)) : ℤ) : ℚ) := by
      rw [zpow_neg, zpow_natCast, div_inv_eq_mul]
      push_cast
      rfl
    rw [hexp, hint, nearest_intCast, zpow_neg, zpow_natCast, Nat.sub_eq_zero_of_le hle,
      nearestDiv_eq n (by norm_num)]
    push_cast
    rw [div_one, nearest_intCast]
    field_simp
  · have hexp : ((n.natAbs.log2 : ℤ) + 1 - p) = ((n.natAbs.log2 + 1 - p : ℕ) : ℤ) := by omega
    rw [hexp, zpow_natCast, nearestDiv_eq n (by positivity)]
    push_cast
    rfl

/-- **Integers of `p` bits are exact.** -/
theorem roundInt_of_le {n : ℤ} (hp : 0 < p) (h : |n| ≤ 2 ^ p) : roundInt p n = n := by
  have habs : (n.natAbs : ℤ) = |n| := Int.natCast_natAbs n
  have hle : n.natAbs ≤ 2 ^ p := by exact_mod_cast habs.trans_le h
  rcases hle.lt_or_eq with hlt | heq
  · have hexp : n.natAbs.log2 + 1 - p = 0 := by
      by_cases h0 : n.natAbs = 0
      · rw [h0, Nat.log2_zero]
        omega
      · have := (Nat.log2_lt h0).mpr hlt
        omega
    rw [roundInt, hexp, nearestDiv_eq n (by norm_num)]
    push_cast
    rw [div_one, nearest_intCast]
    ring
  · -- a power of two
    obtain ⟨m, hm⟩ : ∃ m : ℤ, n = m * 2 := by
      obtain ⟨q, rfl⟩ : ∃ q, p = q + 1 := ⟨p - 1, by omega⟩
      rw [pow_succ] at heq
      exact ⟨n / 2, by omega⟩
    have hexp : n.natAbs.log2 + 1 - p = 1 := by
      rw [heq, Nat.log2_two_pow]
      omega
    have hdiv : ((n : ℚ) / ((2 ^ 1 : ℕ) : ℚ)) = (m : ℚ) := by
      rw [hm]
      push_cast
      ring
    rw [roundInt, hexp, nearestDiv_eq n (by norm_num), hdiv, nearest_intCast, hm]
    ring

theorem roundRat_nonneg (h : 0 ≤ x) : 0 ≤ roundRat p x := by
  have hn : 0 ≤ nearest (x / 2 ^ exponent p x) := le_nearest (by exact_mod_cast by positivity)
  have hn' : (0 : ℚ) ≤ nearest (x / 2 ^ exponent p x) := by exact_mod_cast hn
  exact mul_nonneg hn' (by positivity)

/-- The significand has at most `p` bits, or is the next power of two. -/
theorem significand_le (hx : 0 < x) : (nearest (x / 2 ^ exponent p x) : ℚ) ≤ 2 ^ p := by
  have hle : x / 2 ^ exponent p x ≤ ((2 ^ p : ℤ) : ℚ) := by
    rw [div_le_iff₀ (by positivity)]
    have hlt : x < (2 : ℚ) ^ (Int.log 2 x + 1) := Int.lt_zpow_succ_log_self Nat.one_lt_two x
    push_cast
    rw [exponent, abs_of_pos hx, ← zpow_natCast, ← zpow_add₀ two_ne_zero]
    refine hlt.le.trans_eq (congrArg _ ?_)
    ring
  exact_mod_cast nearest_le hle

/-- The significand has at least `p` bits. -/
theorem le_significand (hp : 0 < p) (hx : 0 < x) : (2 ^ (p - 1) : ℚ) ≤ nearest (x / 2 ^ exponent p x) := by
  have hle : ((2 ^ (p - 1) : ℤ) : ℚ) ≤ x / 2 ^ exponent p x := by
    rw [le_div_iff₀ (by positivity)]
    have hlog : (2 : ℚ) ^ Int.log 2 x ≤ x := Int.zpow_log_le_self Nat.one_lt_two hx
    push_cast
    rw [exponent, abs_of_pos hx, ← zpow_natCast, ← zpow_add₀ two_ne_zero]
    refine le_of_eq_of_le (congrArg _ ?_) hlog
    omega
  exact_mod_cast le_nearest hle

/-- **Rounding keeps the order.** -/
theorem roundRat_mono (hp : 0 < p) (hx : 0 ≤ x) (h : x ≤ y) : roundRat p x ≤ roundRat p y := by
  rcases hx.eq_or_lt with rfl | hpos
  · rw [roundRat_zero]
    exact roundRat_nonneg h
  have hy := hpos.trans_le h
  have hlog : Int.log 2 |x| ≤ Int.log 2 |y| := by
    rw [abs_of_pos hpos, abs_of_pos hy]
    exact Int.log_mono_right hpos h
  rcases hlog.lt_or_eq with hlt | heq
  · -- a power of two is between them
    calc roundRat p x ≤ 2 ^ p * 2 ^ exponent p x :=
          mul_le_mul_of_nonneg_right (significand_le hpos) (by positivity)
      _ = 2 ^ (p + exponent p x) := by rw [zpow_add₀ two_ne_zero, zpow_natCast]
      _ ≤ 2 ^ (((p - 1 : ℕ) : ℤ) + exponent p y) := by
        refine zpow_le_zpow_right₀ one_le_two ?_
        unfold exponent
        omega
      _ = 2 ^ (p - 1) * 2 ^ exponent p y := by rw [zpow_add₀ two_ne_zero, zpow_natCast]
      _ ≤ roundRat p y := mul_le_mul_of_nonneg_right (le_significand hp hy) (by positivity)
  · have hexp : exponent p x = exponent p y := by rw [exponent, exponent, heq]
    have hdiv : x / 2 ^ exponent p y ≤ y / 2 ^ exponent p y :=
      div_le_div_of_nonneg_right h (by positivity)
    have hn : (nearest (x / 2 ^ exponent p y) : ℚ) ≤ nearest (y / 2 ^ exponent p y) := by
      exact_mod_cast nearest_mono hdiv
    rw [roundRat, roundRat, hexp]
    exact mul_le_mul_of_nonneg_right hn (by positivity)

theorem roundInt_mono {m n : ℤ} (hp : 0 < p) (hm : 0 ≤ m) (h : m ≤ n) : roundInt p m ≤ roundInt p n := by
  have hle : roundRat p m ≤ roundRat p n :=
    roundRat_mono hp (by exact_mod_cast hm) (by exact_mod_cast h)
  rw [roundRat_intCast, roundRat_intCast] at hle
  exact_mod_cast hle

theorem roundInt_nonneg {n : ℤ} (h : 0 ≤ n) : 0 ≤ roundInt p n := by
  have hle : 0 ≤ roundRat p n := roundRat_nonneg (by exact_mod_cast h)
  rw [roundRat_intCast] at hle
  exact_mod_cast hle

/-! ### The error -/

/-- **The error is at most half a unit in the last place.** -/
theorem abs_roundRat_sub_le (p : ℕ) (x : ℚ) : |roundRat p x - x| ≤ |x| / 2 ^ p := by
  rcases eq_or_ne x 0 with rfl | hx
  · rw [roundRat_zero, sub_zero, abs_zero, zero_div]
  have hpos : 0 < |x| := abs_pos.mpr hx
  have hlog : (2 : ℚ) ^ Int.log 2 |x| ≤ |x| := Int.zpow_log_le_self Nat.one_lt_two hpos
  have hscale : roundRat p x - x = ((nearest (x / 2 ^ exponent p x) : ℚ) - x / 2 ^ exponent p x) *
      2 ^ exponent p x := by
    rw [roundRat, sub_mul, div_mul_cancel₀ _ (by positivity)]
  have hhalf : (2 : ℚ) ^ exponent p x = 2 * (2 ^ Int.log 2 |x| / 2 ^ p) := by
    rw [exponent, zpow_sub₀ two_ne_zero, zpow_add_one₀ two_ne_zero, zpow_natCast]
    ring
  calc |roundRat p x - x|
      = |(nearest (x / 2 ^ exponent p x) : ℚ) - x / 2 ^ exponent p x| * 2 ^ exponent p x := by
        rw [hscale, abs_mul, abs_of_pos (show (0 : ℚ) < 2 ^ exponent p x by positivity)]
    _ ≤ 1 / 2 * 2 ^ exponent p x :=
        mul_le_mul_of_nonneg_right (abs_nearest_sub_le _) (by positivity)
    _ = 2 ^ Int.log 2 |x| / 2 ^ p := by rw [hhalf]; ring
    _ ≤ |x| / 2 ^ p := div_le_div_of_nonneg_right hlog (by positivity)

/-- The factor by which a rounded number can be too large. -/
def grow (p : ℕ) : ℚ := 1 + 1 / 2 ^ p

theorem one_le_grow (p : ℕ) : 1 ≤ grow p := by
  unfold grow
  exact le_add_of_nonneg_right (by positivity)

theorem roundRat_le (h : 0 ≤ x) : roundRat p x ≤ grow p * x := by
  have herr := (abs_le.mp (abs_roundRat_sub_le p x)).2
  rw [abs_of_nonneg h] at herr
  rw [grow, add_mul, one_mul, one_div_mul_eq_div]
  linarith

theorem le_roundRat (h : 0 ≤ x) : x - x / 2 ^ p ≤ roundRat p x := by
  have herr := (abs_le.mp (abs_roundRat_sub_le p x)).1
  rw [abs_of_nonneg h] at herr
  linarith

theorem roundInt_le {n : ℤ} (h : 0 ≤ n) : (roundInt p n : ℚ) ≤ grow p * n :=
  roundRat_intCast p n ▸ roundRat_le (by exact_mod_cast h)

theorem le_roundInt {n : ℤ} (h : 0 ≤ n) : (n : ℚ) - n / 2 ^ p ≤ roundInt p n :=
  roundRat_intCast p n ▸ le_roundRat (by exact_mod_cast h)

/-- A number is at most twice as much too large as its rounding is too small. -/
theorem le_grow_sq_mul (hp : 0 < p) {n : ℤ} (h : 0 ≤ n) : (n : ℚ) ≤ grow p ^ 2 * roundInt p n := by
  have hn : (0 : ℚ) ≤ n := by exact_mod_cast h
  have hle := le_roundInt (p := p) h
  have hu : (1 : ℚ) / 2 ^ p ≤ 1 / 2 := by
    have : (2 : ℚ) ≤ 2 ^ p := by
      calc (2 : ℚ) = 2 ^ 1 := (pow_one 2).symm
        _ ≤ 2 ^ p := pow_le_pow_right₀ one_le_two hp
    exact one_div_le_one_div_of_le two_pos this
  have hu0 : (0 : ℚ) ≤ 1 / 2 ^ p := by positivity
  have hfactor : 1 ≤ grow p ^ 2 * (1 - 1 / 2 ^ p) := by
    unfold grow
    generalize (1 : ℚ) / 2 ^ p = u at hu hu0
    nlinarith [mul_nonneg hu0 (sub_nonneg.mpr hu)]
  calc (n : ℚ) ≤ grow p ^ 2 * (1 - 1 / 2 ^ p) * n := le_mul_of_one_le_left hn hfactor
    _ = grow p ^ 2 * (n - n / 2 ^ p) := by ring
    _ ≤ grow p ^ 2 * roundInt p n := mul_le_mul_of_nonneg_left hle (by positivity)

/-- The difference of two rounded numbers, rounded. -/
theorem roundInt_sub_le {a b : ℤ} (hp : 0 < p) (hb : 0 ≤ b) (h : b ≤ a) :
    (roundInt p (roundInt p a - roundInt p b) : ℚ) ≤ grow p * ((a - b) + 2 / 2 ^ p * a) := by
  have hdiff : 0 ≤ roundInt p a - roundInt p b := sub_nonneg.mpr (roundInt_mono hp hb h)
  have hle := roundInt_le (p := p) hdiff
  have h1 := roundInt_le (p := p) (hb.trans h)
  have h2 := le_roundInt (p := p) hb
  have hba : (b : ℚ) / 2 ^ p ≤ a / 2 ^ p := div_le_div_of_nonneg_right (by exact_mod_cast h) (by positivity)
  refine hle.trans (mul_le_mul_of_nonneg_left ?_ (zero_le_one.trans (one_le_grow p)))
  rw [grow, add_mul, one_mul, one_div_mul_eq_div] at h1
  rw [div_mul_eq_mul_div, mul_div_assoc]
  push_cast
  linarith

/-! ### Sums -/

/-- The sum of a list, rounded after each addition. -/
def sumRounded (p : ℕ) (l : List ℤ) : ℤ := l.foldl (fun s a => roundInt p (s + a)) 0

theorem sumRounded_concat (p : ℕ) (l : List ℤ) (a : ℤ) :
    sumRounded p (l ++ [a]) = roundInt p (sumRounded p l + a) := by
  rw [sumRounded, List.foldl_append]
  rfl

theorem sumRounded_nonneg {l : List ℤ} (h : ∀ a ∈ l, 0 ≤ a) : 0 ≤ sumRounded p l := by
  induction l using List.reverseRecOn with
  | nil => exact le_refl _
  | append_singleton l a ih =>
    rw [sumRounded_concat]
    exact roundInt_nonneg (add_nonneg (ih fun x hx => h x (List.mem_append_left _ hx)) (h a (by simp)))

/-- **A term is added**: the sum of the rounded numbers is too large by one factor more. -/
theorem roundInt_add_le {m : ℕ} {s a : ℤ} {S A : ℚ} (hs : 0 ≤ s) (ha : 0 ≤ a)
    (hS : (s : ℚ) ≤ grow p ^ (m + 1) * S) (hA : (a : ℚ) ≤ grow p * A) (hA0 : 0 ≤ A) :
    (roundInt p (s + a) : ℚ) ≤ grow p ^ (m + 2) * (S + A) := by
  have hg := one_le_grow p
  have hle : (roundInt p (s + a) : ℚ) ≤ grow p * ((s : ℚ) + a) := by
    have := roundInt_le (p := p) (add_nonneg hs ha)
    push_cast at this
    exact this
  have hpow : grow p ≤ grow p ^ (m + 1) := le_self_pow₀ hg (Nat.succ_ne_zero m)
  have hA' : grow p * A ≤ grow p ^ (m + 1) * A := mul_le_mul_of_nonneg_right hpow hA0
  calc (roundInt p (s + a) : ℚ) ≤ grow p * ((s : ℚ) + a) := hle
    _ ≤ grow p * (grow p ^ (m + 1) * S + grow p ^ (m + 1) * A) :=
        mul_le_mul_of_nonneg_left (add_le_add hS (hA.trans hA')) (by linarith)
    _ = grow p ^ (m + 2) * (S + A) := by ring

/-- **The sum of rounded numbers** is too large by at most one factor for each of them, and one more. -/
theorem sumRounded_le {α : Type*} {a : α → ℤ} {A : α → ℚ} {l : List α} (h0 : ∀ x ∈ l, 0 ≤ a x)
    (h : ∀ x ∈ l, (a x : ℚ) ≤ grow p * A x) :
    (sumRounded p (l.map a) : ℚ) ≤ grow p ^ (l.length + 1) * (l.map A).sum := by
  induction l using List.reverseRecOn with
  | nil => simp [sumRounded]
  | append_singleton l x ih =>
    have hx0 := h0 x (by simp)
    have hx := h x (by simp)
    have hA : 0 ≤ A x := by
      have hprod : 0 ≤ grow p * A x := le_trans (by exact_mod_cast hx0) hx
      exact nonneg_of_mul_nonneg_right hprod (zero_lt_one.trans_le (one_le_grow p))
    have hl0 : ∀ y ∈ l, 0 ≤ a y := fun y hy => h0 y (List.mem_append_left _ hy)
    have hsum : 0 ≤ sumRounded p (l.map a) := sumRounded_nonneg (List.forall_mem_map.mpr hl0)
    have hih := ih hl0 fun y hy => h y (List.mem_append_left _ hy)
    rw [List.map_append, List.map_append, List.map_singleton, List.map_singleton, sumRounded_concat,
      List.sum_append, List.sum_singleton, List.length_append, List.length_singleton]
    exact roundInt_add_le hsum hx0 hih hx hA

/-- **Small sums are exact.** -/
theorem sumRounded_eq {l : List ℤ} (hp : 0 < p) (h : ∀ a ∈ l, 0 ≤ a) (hsum : l.sum ≤ 2 ^ p) :
    sumRounded p l = l.sum := by
  induction l using List.reverseRecOn with
  | nil => rfl
  | append_singleton l a ih =>
    have hl : ∀ b ∈ l, 0 ≤ b := fun b hb => h b (List.mem_append_left _ hb)
    have ha := h a (by simp)
    have hnonneg := List.sum_nonneg hl
    rw [List.sum_append, List.sum_singleton] at hsum ⊢
    rw [sumRounded_concat, ih hl (by omega)]
    refine roundInt_of_le hp ?_
    rwa [abs_of_nonneg (by omega)]

end Eecs678.Lib.Floats
