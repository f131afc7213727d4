import Mathlib.Algebra.Order.Ring.Int
import Mathlib.Data.List.Pairwise
import Mathlib.Data.List.Perm.Basic

/-!
# List scheduling

Jobs taken in a fixed order, each started on one of several machines at the maximum of its arrival and the
smallest of the times at which the machines are free (`starts`). A schedule that serves the jobs in that
order and leaves no machine idle while a job waits (`Served`) has these start times, on whichever of the
free machines each job is run (`Served.starts_eq`).
-/

namespace Eecs678.Lib.ListScheduling

/-- The smallest of the free times. -/
def earliest (free : List ℤ) : ℤ := free.min?.getD 0

/-- The start times of jobs, given by arrival and running time: each is started on a machine that is free
first. -/
def starts : List ℤ → List (ℤ × ℤ) → List ℤ
  | _, [] => []
  | free, (a, r) :: jobs =>
    max a (earliest free) ::
      starts (free.set (free.idxOf (earliest free)) (max a (earliest free) + r)) jobs

/-- The start times of jobs, given by arrival, running time and the machine that each is started on. -/
def startsOn : List ℤ → List (ℤ × ℤ × ℕ) → List ℤ
  | _, [] => []
  | free, (a, r, c) :: jobs =>
    max a (earliest free) :: startsOn (free.set c (max a (earliest free) + r)) jobs

/-! ### The smallest free time -/

variable {free free' : List ℤ}

theorem earliest_spec (h : free ≠ []) : earliest free ∈ free ∧ ∀ f ∈ free, earliest free ≤ f := by
  rw [earliest]
  cases hm : free.min? with
  | none => exact absurd (List.min?_eq_none_iff.mp hm) h
  | some m => exact List.min?_eq_some_iff.mp hm

theorem earliest_mem (h : free ≠ []) : earliest free ∈ free := (earliest_spec h).1

theorem earliest_le {f : ℤ} (h : f ∈ free) : earliest free ≤ f :=
  (earliest_spec (List.ne_nil_of_mem h)).2 f h

/-- Machines that are free before `a` count as free at `a`. -/
theorem max_earliest_le {a : ℤ} (h : free ≠ []) (hp : (free.map (max a)).Perm (free'.map (max a))) :
    max a (earliest free') ≤ max a (earliest free) := by
  have hmem : max a (earliest free) ∈ free'.map (max a) :=
    hp.mem_iff.mp (List.mem_map_of_mem (earliest_mem h))
  obtain ⟨f, hf, he⟩ := List.mem_map.mp hmem
  rw [← he]
  exact max_le_max_left a (earliest_le hf)

theorem max_earliest_eq {a : ℤ} (h : free ≠ []) (h' : free' ≠ [])
    (hp : (free.map (max a)).Perm (free'.map (max a))) :
    max a (earliest free) = max a (earliest free') :=
  le_antisymm (max_earliest_le h' hp.symm) (max_earliest_le h hp)

theorem set_perm : ∀ {l : List ℤ} {i : ℕ} {x : ℤ}, l[i]? = some x → ∀ y : ℤ,
    (l.set i y).Perm (y :: l.erase x)
  | [], i, x, h, y => by simp at h
  | z :: l, 0, x, h, y => by
    obtain rfl : z = x := by simpa using h
    rw [List.set_cons_zero, List.erase_cons_head]
  | z :: l, i + 1, x, h, y => by
    have hl : l[i]? = some x := by simpa using h
    rw [List.set_cons_succ]
    refine ((set_perm hl y).cons z).trans ((List.Perm.swap y z _).trans (List.Perm.cons y ?_))
    have hmem := List.mem_of_getElem? hl
    by_cases hz : z = x
    · subst hz
      rw [List.erase_cons_head]
      exact (List.perm_cons_erase hmem).symm
    · rw [List.erase_cons_tail (by simpa using hz)]

/-- The job goes to machines that count as free at the same time. -/
theorem set_max_perm {a s y : ℤ} {i i' : ℕ} {f f' : ℤ} (hi : free[i]? = some f)
    (hi' : free'[i']? = some f') (hf : max a f = s) (hf' : max a f' = s)
    (hp : (free.map (max a)).Perm (free'.map (max a))) :
    ((free.set i y).map (max a)).Perm ((free'.set i' y).map (max a)) := by
  have h1 : (free.map (max a))[i]? = some s := by rw [List.getElem?_map, hi, Option.map_some, hf]
  have h2 : (free'.map (max a))[i']? = some s := by rw [List.getElem?_map, hi', Option.map_some, hf']
  rw [List.map_set, List.map_set]
  exact (set_perm h1 _).trans (((hp.erase s).cons _).trans (set_perm h2 _).symm)

/-! ### Schedules that serve jobs in order -/

/-- A job with its start and its machine. -/
structure Placed where
  arrival : ℤ
  length : ℤ
  start : ℤ
  machine : ℕ

/-- The time at which the job ends. -/
def Placed.finish (p : Placed) : ℤ := p.start + p.length

/-- On `m` machines the jobs start in the order of the list, each alone on its machine, and a job waits
only while all machines are busy. -/
structure Served (m : ℕ) (l : List Placed) : Prop where
  order : l.Pairwise fun p q => p.start ≤ q.start
  alone : l.Pairwise fun p q => p.machine = q.machine → p.finish ≤ q.start
  machine : ∀ p ∈ l, p.machine < m
  arrival : ∀ p ∈ l, 0 ≤ p.arrival ∧ p.arrival ≤ p.start
  length : ∀ p ∈ l, 0 ≤ p.length
  busy : ∀ p ∈ l, ∀ t, p.arrival ≤ t → t < p.start → ∀ c < m,
    ∃ q ∈ l, q.machine = c ∧ q.start ≤ t ∧ t < q.finish

/-- The free times after the jobs `done`, while the jobs `rest` are to come. -/
structure Free (m : ℕ) (free : List ℤ) (done rest : List Placed) : Prop where
  length : free.length = m
  used : ∀ p ∈ done, ∀ f, free[p.machine]? = some f → p.finish ≤ f
  ready : ∀ p ∈ rest, ∀ f, free[p.machine]? = some f → f ≤ p.start

section Served
variable {m : ℕ} {p : Placed} {done rest : List Placed}

/-- **A job starts when it has arrived and a machine is free**, and not later. -/
theorem start_eq (h : Served m (done ++ p :: rest)) (hf : Free m free done (p :: rest)) :
    max p.arrival (earliest free) = p.start := by
  have hmem : p ∈ done ++ p :: rest := List.mem_append_right _ (List.mem_cons_self ..)
  have hlt : p.machine < free.length := hf.length ▸ h.machine p hmem
  have hget : free[p.machine]? = some free[p.machine] := List.getElem?_eq_getElem hlt
  have hne : free ≠ [] := List.ne_nil_of_mem (List.getElem_mem hlt)
  refine le_antisymm (max_le (h.arrival p hmem).2 ?_) (not_lt.mp fun hlate => ?_)
  · exact (earliest_le (List.getElem_mem hlt)).trans (hf.ready p (List.mem_cons_self ..) _ hget)
  · -- the machine that is free first is busy, with a job that was started before
    obtain ⟨c, hc⟩ := List.mem_iff_getElem?.mp (earliest_mem hne)
    have hcm : c < m := hf.length ▸ (List.getElem?_eq_some_iff.mp hc).1
    obtain ⟨q, hq, rfl, hstart, hend⟩ := h.busy p hmem _ (le_max_left _ _) hlate c hcm
    rcases List.mem_append.mp hq with hq | hq
    · have hle := hf.used q hq _ hc
      exact absurd ((hend.trans_le hle).trans_le (le_max_right _ _)) (lt_irrefl _)
    · have horder := (List.pairwise_append.mp h.order).2.1
      rcases List.mem_cons.mp hq with rfl | hq
      · exact absurd (hlate.trans_le hstart) (lt_irrefl _)
      · have hle := (List.pairwise_cons.mp horder).1 q hq
        exact absurd (hlate.trans_le (hle.trans hstart)) (lt_irrefl _)

/-- The free times after one more job. -/
theorem Free.next (h : Served m (done ++ p :: rest)) (hf : Free m free done (p :: rest)) :
    Free m (free.set p.machine p.finish) (done ++ [p]) rest := by
  obtain ⟨-, htail, hcross⟩ := List.pairwise_append.mp h.alone
  have hlater := (List.pairwise_cons.mp htail).1
  have hpos := h.length p (List.mem_append_right _ (List.mem_cons_self ..))
  refine ⟨by rw [List.length_set, hf.length], fun q hq f hget => ?_, fun q hq f hget => ?_⟩
  · rw [List.getElem?_set] at hget
    split_ifs at hget with hsame
    · obtain rfl := Option.some.inj hget
      rcases List.mem_append.mp hq with hq | hq
      · have hle := hcross q hq p (List.mem_cons_self ..) hsame.symm
        unfold Placed.finish at hle ⊢
        omega
      · rw [List.mem_singleton.mp hq]
    · rcases List.mem_append.mp hq with hq | hq
      · exact hf.used q hq f hget
      · rw [List.mem_singleton.mp hq] at hsame
        exact absurd rfl hsame
  · rw [List.getElem?_set] at hget
    split_ifs at hget with hsame
    · obtain rfl := Option.some.inj hget
      exact hlater q hq hsame
    · exact hf.ready q (List.mem_cons_of_mem _ hq) f hget

theorem startsOn_rest : ∀ {rest done : List Placed} {free : List ℤ}, Served m (done ++ rest) →
    Free m free done rest → startsOn free (rest.map fun p => (p.arrival, p.length, p.machine)) =
      rest.map Placed.start
  | [], _, _, _, _ => rfl
  | p :: rest, done, free, h, hf => by
    have hs := start_eq h hf
    have hnext := hf.next h
    have h' : Served m ((done ++ [p]) ++ rest) := by rwa [List.append_assoc]
    rw [List.map_cons, startsOn, hs, List.map_cons, ← Placed.finish, startsOn_rest h' hnext]

/-- Free times that agree from `a` on agree from a later time on. -/
theorem perm_later {free free' : List ℤ} {a b : ℤ} (hab : a ≤ b)
    (hp : (free.map (max a)).Perm (free'.map (max a))) :
    (free.map (max b)).Perm (free'.map (max b)) := by
  have hmap : ∀ l : List ℤ, (l.map (max a)).map (max b) = l.map (max b) := fun l => by
    rw [List.map_map]
    refine List.map_congr_left fun x _ => ?_
    rw [Function.comp_apply, ← max_assoc, max_eq_left hab]
  rw [← hmap free, ← hmap free']
  exact hp.map _

theorem starts_rest : ∀ {rest done : List Placed} {free free' : List ℤ} {a : ℤ},
    Served m (done ++ rest) → rest.Pairwise (fun p q => p.arrival ≤ q.arrival) →
      Free m free done rest → (∀ p ∈ rest, a ≤ p.arrival) →
        (free'.map (max a)).Perm (free.map (max a)) →
          starts free' (rest.map fun p => (p.arrival, p.length)) = rest.map Placed.start
  | [], _, _, _, _, _, _, _, _, _ => rfl
  | p :: rest, done, free, free', a, h, harr, hf, ha, hp => by
    obtain ⟨hlater, harr'⟩ := List.pairwise_cons.mp harr
    have hp' := perm_later (ha p (List.mem_cons_self ..)) hp
    have hs := start_eq h hf
    have hlt : p.machine < free.length :=
      hf.length ▸ h.machine p (List.mem_append_right _ (List.mem_cons_self ..))
    have hget : free[p.machine]? = some free[p.machine] := List.getElem?_eq_getElem hlt
    have hne : free ≠ [] := List.ne_nil_of_mem (List.getElem_mem hlt)
    have hne' : free' ≠ [] := fun he =>
      hne (List.eq_nil_of_length_eq_zero (by simpa [he] using hp.length_eq.symm))
    have hmin : max p.arrival (earliest free') = p.start := (max_earliest_eq hne' hne hp').trans hs
    -- the machine of the job counts as free at its start
    have hmachine : max p.arrival free[p.machine] = p.start := by
      have hready := hf.ready p (List.mem_cons_self ..) _ hget
      have hstart : p.arrival ≤ p.start := hs ▸ le_max_left _ _
      refine le_antisymm (max_le hstart hready) ?_
      rw [← hs]
      exact max_le_max_left _ (earliest_le (List.getElem_mem hlt))
    have hnext := set_max_perm (y := p.finish) (List.getElem?_idxOf (earliest_mem hne')) hget hmin
      hmachine hp'
    have h' : Served m ((done ++ [p]) ++ rest) := by rwa [List.append_assoc]
    rw [List.map_cons, starts, hmin, List.map_cons, ← Placed.finish,
      starts_rest h' harr' (hf.next h) hlater hnext]

/-- **A schedule that serves jobs in the order of their arrival is list scheduling**, with the machines it
uses and with the machines that are free first. -/
theorem Served.starts_eq {l : List Placed} (h : Served m l)
    (harr : l.Pairwise fun p q => p.arrival ≤ q.arrival) :
    startsOn (List.replicate m 0) (l.map fun p => (p.arrival, p.length, p.machine)) =
      l.map Placed.start ∧
    starts (List.replicate m 0) (l.map fun p => (p.arrival, p.length)) = l.map Placed.start := by
  have hf : Free m (List.replicate m 0) [] l := by
    refine ⟨List.length_replicate, by simp, fun p hp f hget => ?_⟩
    obtain rfl := List.eq_of_mem_replicate (List.mem_of_getElem? hget)
    exact (h.arrival p hp).1.trans (h.arrival p hp).2
  have h' : Served m ([] ++ l) := h
  exact ⟨startsOn_rest h' hf, starts_rest h' harr hf (fun p hp => (h.arrival p hp).1)
    (List.Perm.refl _)⟩

end Served

end Eecs678.Lib.ListScheduling
