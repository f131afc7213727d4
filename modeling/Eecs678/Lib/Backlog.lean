import Mathlib.Algebra.BigOperators.Group.Finset.Basic
import Mathlib.Algebra.Order.BigOperators.Group.Finset

/-!
# Backlogs

Two servers with the same jobs `J`, of which each has some work left (`x`, `y`). The first is `Ahead`
if, whichever jobs are left out of the second, as few can be left out of the first with no more work in
the rest. A server that always serves a job with the least work left stays ahead of any other
(`Ahead.arrive`, `Ahead.serve`), and so it never has more unfinished jobs (`Ahead.card_le`). In a schedule
that is given as a list, a job is unfinished as long as it has units left (`unitsLeft_pos`).
-/

namespace Eecs678.Lib.Backlog

variable {ι : Type} [DecidableEq ι] {J T : Finset ι} {x y y' : ι → ℕ} {k : ι}

/-- The work left in the jobs that are not in `T`. -/
def without (J : Finset ι) (x : ι → ℕ) (T : Finset ι) : ℕ := ∑ k ∈ J \ T, x k

/-- The first server is ahead of the second. -/
def Ahead (J : Finset ι) (x y : ι → ℕ) : Prop :=
  ∀ T : Finset ι, ∃ T' : Finset ι, T'.card ≤ T.card ∧ without J x T' ≤ without J y T

/-! ### Leaving one job more out -/

theorem without_insert (hk : k ∈ J) (hT : k ∉ T) (x : ι → ℕ) :
    without J x T = x k + without J x (insert k T) := by
  have hmem : k ∈ J \ T := Finset.mem_sdiff.mpr ⟨hk, hT⟩
  rw [without, ← Finset.add_sum_erase _ _ hmem, without, Finset.sdiff_insert]

theorem without_insert_le (x : ι → ℕ) : without J x (insert k T) ≤ without J x T :=
  Finset.sum_le_sum_of_subset (Finset.sdiff_subset_sdiff (Finset.Subset.refl J)
    (Finset.subset_insert k T))

theorem without_mono (h : ∀ k ∈ J, x k ≤ y k) : without J x T ≤ without J y T :=
  Finset.sum_le_sum fun k hk => h k (Finset.mem_sdiff.mp hk).1

/-- Work of a job that is left out does not matter. -/
theorem without_update (hT : k ∈ T) (x : ι → ℕ) (r : ℕ) :
    without J (Function.update x k r) T = without J x T :=
  Finset.sum_congr rfl fun i hi => Function.update_of_ne (fun he : i = k =>
    (Finset.mem_sdiff.mp hi).2 (he ▸ hT)) _ _

theorem without_update_of_notMem (hk : k ∈ J) (hT : k ∉ T) (x : ι → ℕ) (r : ℕ) :
    without J (Function.update x k r) T = r + without J x (insert k T) := by
  rw [without_insert hk hT, Function.update_self, without_update (Finset.mem_insert_self k T)]

theorem without_eq_zero (h : without J x T = 0) {i : ι} (hi : i ∈ J) (hT : i ∉ T) : x i = 0 :=
  Finset.sum_eq_zero_iff.mp h i (Finset.mem_sdiff.mpr ⟨hi, hT⟩)

/-- At most a unit of work is done if at most one job is served. -/
theorem without_served (hother : ∀ i, i ≠ k → y i ≤ y' i) (hone : y k ≤ y' k + 1) :
    without J y T ≤ without J y' T + 1 := by
  by_cases hk : k ∈ J \ T
  · have hle : ∑ i ∈ (J \ T).erase k, y i ≤ ∑ i ∈ (J \ T).erase k, y' i :=
      Finset.sum_le_sum fun i hi => hother i (Finset.ne_of_mem_erase hi)
    rw [without, without, ← Finset.add_sum_erase _ y hk, ← Finset.add_sum_erase _ y' hk]
    omega
  · refine le_trans (Finset.sum_le_sum fun i hi => hother i fun he : i = k => ?_) (Nat.le_succ _)
    exact hk (he ▸ hi)

/-! ### The server that is ahead -/

namespace Ahead

theorem idle (hx : ∀ k ∈ J, x k = 0) : Ahead J x y := fun T => by
  have h0 : without J x T = 0 :=
    Finset.sum_eq_zero fun k hk => hx k (Finset.mem_sdiff.mp hk).1
  exact ⟨T, le_refl _, by rw [h0]; exact Nat.zero_le _⟩

/-- **A job of `r` units arrives** at both servers. -/
theorem arrive (h : Ahead J x y) (hk : k ∈ J) (hx : x k = 0) (hy : y k = 0) (r : ℕ) :
    Ahead J (Function.update x k r) (Function.update y k r) := by
  intro T
  by_cases hT : k ∈ T
  · -- the new job is left out of both
    obtain ⟨T', hcard, hle⟩ := h (T.erase k)
    refine ⟨insert k T', ?_, ?_⟩
    · have h1 := Finset.card_insert_le k T'
      have h2 := Finset.card_erase_add_one hT
      omega
    · have h1 : without J y (T.erase k) = without J y T := by
        rw [without_insert hk (Finset.notMem_erase k T), hy, Nat.zero_add, Finset.insert_erase hT]
      rw [without_update (Finset.mem_insert_self k T'), without_update hT, ← h1]
      exact (without_insert_le x).trans hle
  · obtain ⟨T', hcard, hle⟩ := h T
    refine ⟨T', hcard, ?_⟩
    have h1 := without_insert hk hT y
    rw [without_update_of_notMem hk hT]
    by_cases hT' : k ∈ T'
    · rw [without_update hT']
      omega
    · have h2 := without_insert hk hT' x
      rw [without_update_of_notMem hk hT']
      omega

/-- As few jobs can be left out without a given job, if it has the least work. -/
theorem exchange {T' : Finset ι} (hk : k ∈ J) (hmin : ∀ i ∈ J, 0 < x i → x k ≤ x i)
    (h0 : without J x T' ≠ 0) : ∃ T'' : Finset ι, k ∉ T'' ∧ T''.card ≤ T'.card ∧
      without J x T'' ≤ without J x T' := by
  by_cases hkT : k ∈ T'
  · -- a job `i` with work left is left out in place of `k`
    obtain ⟨i, hi, hxi⟩ := Finset.exists_ne_zero_of_sum_ne_zero h0
    obtain ⟨hiJ, hiT⟩ := Finset.mem_sdiff.mp hi
    have hne : k ≠ i := fun he => hiT (he ▸ hkT)
    have hkT'' : k ∉ insert i (T'.erase k) := fun hm => by
      rcases Finset.mem_insert.mp hm with he | hm
      · exact hne he
      · exact Finset.notMem_erase k T' hm
    have hswap : insert k (insert i (T'.erase k)) = insert i T' := by
      rw [Finset.insert_comm, Finset.insert_erase hkT]
    refine ⟨insert i (T'.erase k), hkT'', ?_, ?_⟩
    · have h1 := Finset.card_insert_le i (T'.erase k)
      have h2 := Finset.card_erase_add_one hkT
      omega
    · have hle := hmin i hiJ (Nat.pos_of_ne_zero hxi)
      rw [without_insert hk hkT'', hswap, without_insert hiJ hiT]
      omega
  · exact ⟨T', hkT, le_refl _, le_refl _⟩

/-- **A unit of time** in which the first server serves a job with the least work left, and the second
at most the job `k'`. -/
theorem serve (h : Ahead J x y) (hk : k ∈ J) (hpos : 0 < x k)
    (hmin : ∀ i ∈ J, 0 < x i → x k ≤ x i) (k' : ι) (hother : ∀ i, i ≠ k' → y i ≤ y' i)
    (hone : y k' ≤ y' k' + 1) : Ahead J (Function.update x k (x k - 1)) y' := by
  intro T
  obtain ⟨T', hcard, hle⟩ := h T
  have hdec : ∀ i ∈ J, Function.update x k (x k - 1) i ≤ x i := fun i _ => by
    by_cases hi : i = k
    · rw [hi, Function.update_self]
      omega
    · rw [Function.update_of_ne hi]
  by_cases h0 : without J x T' = 0
  · refine ⟨T', hcard, ?_⟩
    have := without_mono (T := T') hdec
    omega
  · obtain ⟨T'', hkT, hcard', hle'⟩ := exchange hk hmin h0
    refine ⟨T'', hcard'.trans hcard, ?_⟩
    have h1 := without_insert hk hkT x
    have h2 := without_served (J := J) (T := T) hother hone
    rw [without_update_of_notMem hk hkT]
    omega

/-- **The server that is ahead has no more unfinished jobs.** -/
theorem card_le (h : Ahead J x y) :
    (J.filter fun k => 0 < x k).card ≤ (J.filter fun k => 0 < y k).card := by
  obtain ⟨T', hcard, hle⟩ := h (J.filter fun k => 0 < y k)
  have hy : without J y (J.filter fun k => 0 < y k) = 0 := Finset.sum_eq_zero fun k hk => by
    obtain ⟨hkJ, hkT⟩ := Finset.mem_sdiff.mp hk
    by_contra hne
    exact hkT (Finset.mem_filter.mpr ⟨hkJ, Nat.pos_of_ne_zero hne⟩)
  refine le_trans (Finset.card_le_card fun k hk => ?_) hcard
  obtain ⟨hkJ, hpos⟩ := Finset.mem_filter.mp hk
  by_contra hkT
  have := without_eq_zero (Nat.le_zero.mp (hy ▸ hle)) hkJ hkT
  omega

end Ahead

/-! ### Schedules -/

/-- The time at which the last unit of job `k` ends, where `σ` is the job that is served in each unit of
time, if any. -/
def finishTime (k : ι) : List (Option ι) → ℕ
  | [] => 0
  | x :: σ => if some k ∈ σ then finishTime k σ + 1 else if x = some k then 1 else 0

/-- The units of job `k` from time `t` on. -/
def unitsLeft (σ : List (Option ι)) (t : ℕ) (k : ι) : ℕ := (σ.drop t).count (some k)

theorem finishTime_eq_zero : ∀ {σ : List (Option ι)}, some k ∉ σ → finishTime k σ = 0
  | [], _ => rfl
  | x :: σ, h => by
    rw [finishTime, if_neg fun hm => h (List.mem_cons_of_mem _ hm),
      if_neg fun he : x = some k => h (he ▸ List.mem_cons_self ..)]

/-- **A job is unfinished as long as it has units left.** -/
theorem lt_finishTime : ∀ {σ : List (Option ι)} {t : ℕ}, t < finishTime k σ ↔ some k ∈ σ.drop t
  | [], t => by simp [finishTime]
  | x :: σ, 0 => by
    rw [finishTime, List.drop_zero, List.mem_cons]
    split_ifs with hm hx
    · exact ⟨fun _ => Or.inr hm, fun _ => Nat.succ_pos _⟩
    · exact ⟨fun _ => Or.inl hx.symm, fun _ => Nat.one_pos⟩
    · exact ⟨fun h0 => absurd h0 (lt_irrefl 0), fun h0 => (h0.elim (fun he => hx he.symm) hm).elim⟩
  | x :: σ, t + 1 => by
    rw [List.drop_succ_cons, ← lt_finishTime, finishTime]
    split_ifs with hm
    · omega
    · rw [finishTime_eq_zero hm]
      omega
    · rw [finishTime_eq_zero hm]
      omega

theorem unitsLeft_pos {σ : List (Option ι)} {t : ℕ} : 0 < unitsLeft σ t k ↔ t < finishTime k σ := by
  rw [unitsLeft, List.count_pos_iff, lt_finishTime]

/-- No unit of another job than the one served passes. -/
theorem unitsLeft_other {σ : List (Option ι)} {t : ℕ} (h : σ[t]? ≠ some (some k)) :
    unitsLeft σ t k ≤ unitsLeft σ (t + 1) k := by
  rcases Nat.lt_or_ge t σ.length with hlt | hge
  · rw [List.getElem?_eq_getElem hlt, ne_eq, Option.some.injEq] at h
    rw [unitsLeft, List.drop_eq_getElem_cons hlt, List.count_cons_of_ne h, unitsLeft]
  · rw [unitsLeft, List.drop_eq_nil_of_le hge]
    exact Nat.zero_le _

theorem unitsLeft_served (σ : List (Option ι)) (t : ℕ) (k : ι) :
    unitsLeft σ t k ≤ unitsLeft σ (t + 1) k + 1 := by
  rcases Nat.lt_or_ge t σ.length with hlt | hge
  · rw [unitsLeft, List.drop_eq_getElem_cons hlt, List.count_cons, unitsLeft]
    split_ifs <;> omega
  · rw [unitsLeft, List.drop_eq_nil_of_le hge]
    exact Nat.zero_le _

/-- All units are left when none of them is earlier. -/
theorem unitsLeft_release {σ : List (Option ι)} {t : ℕ}
    (h : ∀ u, σ[u]? = some (some k) → t ≤ u) : unitsLeft σ t k = σ.count (some k) := by
  have hnone : (σ.take t).count (some k) = 0 := List.count_eq_zero.mpr fun hm => by
    obtain ⟨u, hu⟩ := List.mem_iff_getElem?.mp hm
    rw [List.getElem?_take] at hu
    split_ifs at hu with hlt
    exact absurd (h u hu) (by omega)
  have hsplit : (σ.take t ++ σ.drop t).count (some k) =
      (σ.take t).count (some k) + (σ.drop t).count (some k) := List.count_append
  rw [List.take_append_drop, hnone, Nat.zero_add] at hsplit
  exact hsplit.symm

end Eecs678.Lib.Backlog
