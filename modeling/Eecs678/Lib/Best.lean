import Mathlib.Order.Lattice
import Mathlib.Data.List.Pairwise
import Mathlib.Data.List.Perm.Basic

/-!
# Serving the best

Jobs are split into `first`, which are served, and a sorted list `rest`, with no key in `first` above
a key in `rest` (`BestFirst`). The moves of a preemptive server keep this (`preempt`, `enqueue`,
`poll`), and `rank_lt_iff` says that `first` then holds the jobs of least rank.
-/

namespace Eecs678.Lib.Best

variable {α K : Type} [LinearOrder K] {key key' : α → K} {first first' rest rest' : List α} {n w : α}

/-- The waiting list is sorted, and no key in `first` is above a key in it. -/
structure BestFirst (key : α → K) (first rest : List α) : Prop where
  sorted : rest.Pairwise fun p q => key p ≤ key q
  best : ∀ p ∈ first, ∀ q ∈ rest, key p ≤ key q

namespace BestFirst

theorem nil : BestFirst key first [] := ⟨List.Pairwise.nil, by simp⟩

/-- Keys of the jobs served may fall. -/
theorem mono (h : BestFirst key first rest) (hf : ∀ p ∈ first, key' p ≤ key p)
    (hr : ∀ q ∈ rest, key' q = key q) : BestFirst key' first rest := by
  refine ⟨h.sorted.imp_of_mem fun hp hq hpq => ?_, fun p hp q hq => ?_⟩
  · rw [hr _ hp, hr _ hq]
    exact hpq
  · rw [hr q hq]
    exact (hf p hp).trans (h.best p hp q hq)

theorem congr (h : BestFirst key first rest) (he : ∀ p ∈ first ++ rest, key' p = key p) :
    BestFirst key' first rest :=
  h.mono (fun p hp => (he p (List.mem_append_left _ hp)).le)
    fun q hq => he q (List.mem_append_right _ hq)

/-- The new job `n` replaces the worst job served, which then waits. -/
theorem preempt (h : BestFirst key first rest) (hworst : ∀ p ∈ first, key p ≤ key w)
    (hw : w ∈ first) (hn : key n ≤ key w) (hf : ∀ p ∈ first', p = n ∨ p ∈ first)
    (hr : rest'.Perm (w :: rest)) (hs : rest'.Pairwise fun p q => key p ≤ key q) :
    BestFirst key first' rest' := by
  have hpw : ∀ p ∈ first', key p ≤ key w := fun p hp => by
    rcases hf p hp with rfl | hp
    · exact hn
    · exact hworst p hp
  refine ⟨hs, fun p hp q hq => ?_⟩
  rcases List.mem_cons.mp (hr.mem_iff.mp hq) with rfl | hq
  · exact hpw p hp
  · exact (hpw p hp).trans (h.best w hw q hq)

/-- The new job `n` waits, being no better than the jobs served. -/
theorem enqueue (h : BestFirst key first rest) (hn : ∀ p ∈ first, key p ≤ key n)
    (hr : rest'.Perm (n :: rest)) (hs : rest'.Pairwise fun p q => key p ≤ key q) :
    BestFirst key first rest' := by
  refine ⟨hs, fun p hp q hq => ?_⟩
  rcases List.mem_cons.mp (hr.mem_iff.mp hq) with rfl | hq
  · exact hn p hp
  · exact h.best p hp q hq

/-- Jobs leave, and the first job waiting is served. -/
theorem poll (h : BestFirst key first (n :: rest)) (hf : ∀ p ∈ first', p = n ∨ p ∈ first) :
    BestFirst key first' rest := by
  obtain ⟨hn, hs⟩ := List.pairwise_cons.mp h.sorted
  refine ⟨hs, fun p hp q hq => ?_⟩
  rcases hf p hp with rfl | hp
  · exact hn q hq
  · exact h.best p hp q (List.mem_cons_of_mem _ hq)

end BestFirst

/-- The number of elements of `l` whose key is below that of `p`. -/
def rank (key : α → K) (l : List α) (p : α) : ℕ := (l.filter fun q => key q < key p).length

theorem rank_first (h : ∀ p ∈ first, ∀ q ∈ rest, key p < key q) {p : α} (hp : p ∈ first) :
    rank key (first ++ rest) p < first.length := by
  have hrest : rest.filter (fun q => key q < key p) = [] :=
    List.filter_eq_nil_iff.mpr fun q hq hlt => lt_asymm (h p hp q hq) (of_decide_eq_true hlt)
  rw [rank, List.filter_append, hrest, List.append_nil]
  exact List.length_filter_lt_length_iff_exists.mpr ⟨p, hp, by simp⟩

theorem rank_rest (h : ∀ p ∈ first, ∀ q ∈ rest, key p < key q) {p : α} (hp : p ∈ rest) :
    first.length ≤ rank key (first ++ rest) p := by
  have hfirst : first.filter (fun q => key q < key p) = first :=
    List.filter_eq_self.mpr fun q hq => decide_eq_true (h q hq p hp)
  rw [rank, List.filter_append, hfirst, List.length_append]
  exact Nat.le_add_right _ _

/-- **The first part is the best `m` elements**, or all of them if there are fewer. -/
theorem rank_lt_iff (h : ∀ p ∈ first, ∀ q ∈ rest, key p < key q) {m : ℕ} (hm : first.length ≤ m)
    (hrest : rest ≠ [] → first.length = m) {p : α} (hp : p ∈ first ++ rest) :
    rank key (first ++ rest) p < m ↔ p ∈ first := by
  refine ⟨fun hlt => ?_, fun hf => Nat.lt_of_lt_of_le (rank_first h hf) hm⟩
  rcases List.mem_append.mp hp with hf | hr
  · exact hf
  · have hle := rank_rest h hr
    have hlen := hrest (List.ne_nil_of_mem hr)
    omega

end Eecs678.Lib.Best
