import Eecs678.Scheduler.Model

/-!
# The order of the comparers

`compare_pri` and `compare_sjf` take the sign of a difference that is computed in 32 bits. Two jobs whose
numbers differ by `2 ^ 31` or more are ordered the wrong way round when the later one is offered second
(`compareBy_apart`), and later offers do not part them (`offerAll_sublist`); without such jobs the queue is
sorted (`drained_sorted`).
-/

namespace Eecs678.Scheduler.IntOrder

open Eecs678.Scheduler.Priqueue Eecs678.Scheduler.Model

variable {α : Type}

/-! ### Offering and polling -/

/-- The queue after the items are offered one after the other. -/
def offerAll (comparer : α → α → ℤ) (items q : List α) : List α :=
  items.foldl (fun q ptr => (priqueueOffer comparer q ptr).1) q

/-- What `priqueue_poll` returns until the queue is empty, for a number of calls. -/
def pollAll : ℕ → List α → List α
  | 0, _ => []
  | n + 1, q =>
    match priqueuePoll q with
    | (_, none) => []
    | (q, some ptr) => ptr :: pollAll n q

/-- Offer all the items to an empty queue, then poll; one call more than there are items finds the queue
empty. -/
def drained (comparer : α → α → ℤ) (items : List α) : List α :=
  pollAll (items.length + 1) (offerAll comparer items [])

variable {comparer : α → α → ℤ}

theorem pollAll_eq : ∀ {n : ℕ} {q : List α}, q.length ≤ n → pollAll n q = q
  | 0, [], _ => rfl
  | n + 1, [], _ => rfl
  | n + 1, ptr :: q, h => by
    rw [pollAll, poll_cons]
    simp only [pollAll_eq (Nat.le_of_succ_le_succ h)]

theorem offerAll_perm : ∀ {items q : List α}, (offerAll comparer items q).Perm (items ++ q)
  | [], q => List.Perm.refl q
  | ptr :: items, q => by
    have ih : (offerAll comparer items (priqueueOffer comparer q ptr).1).Perm
        (items ++ (priqueueOffer comparer q ptr).1) := offerAll_perm
    have hoffer : (items ++ (priqueueOffer comparer q ptr).1).Perm (items ++ ptr :: q) :=
      (offer_perm q ptr).append_left items
    exact (ih.trans hoffer).trans List.perm_middle

theorem drained_eq (items : List α) : drained comparer items = offerAll comparer items [] := by
  refine pollAll_eq ?_
  rw [offerAll_perm.length_eq, List.append_nil]
  exact Nat.le_succ _

theorem drained_perm (items : List α) : (drained comparer items).Perm items := by
  rw [drained_eq]
  exact offerAll_perm.trans (by rw [List.append_nil])

theorem offerLoop_sublist (ptr : α) : ∀ (q : List α) (i : ℤ), q.Sublist (offerLoop comparer ptr q i).1
  | [], i => List.nil_sublist _
  | target :: q, i => by
    unfold offerLoop
    split_ifs
    · exact List.sublist_cons_self ptr _
    · exact (offerLoop_sublist ptr q (i + 1)).cons_cons target

/-- **What is in the queue keeps its order.** -/
theorem offerAll_sublist : ∀ (items q : List α), q.Sublist (offerAll comparer items q)
  | [], q => List.Sublist.refl q
  | ptr :: items, q => (offerLoop_sublist ptr q 0).trans (offerAll_sublist items _)

/-- A comparer that goes along with an order keeps the queue sorted. -/
theorem offerAll_pairwise {R : α → α → Prop} (htr : ∀ x y z, R x y → R y z → R x z) {s : List α}
    (h : ∀ a ∈ s, ∀ b ∈ s, comparer a b < 0 → R a b) (h' : ∀ a ∈ s, ∀ b ∈ s, ¬ comparer a b < 0 → R b a) :
    ∀ {items q : List α}, items ⊆ s → q ⊆ s → q.Pairwise R → (offerAll comparer items q).Pairwise R
  | [], q, _, _, hq => hq
  | ptr :: items, q, hitems, hs, hq => by
    obtain ⟨hptr, hitems⟩ := List.cons_subset.mp hitems
    have hoffer : (priqueueOffer comparer q ptr).1.Pairwise R := offer_pairwise htr
      (fun y hy => h ptr hptr y (hs hy)) (fun y hy => h' ptr hptr y (hs hy)) hq
    have hsub : (priqueueOffer comparer q ptr).1 ⊆ s := fun x hx => by
      rcases List.mem_cons.mp ((offer_perm q ptr).mem_iff.mp hx) with rfl | hx
      · exact hptr
      · exact hs hx
    exact (offerAll_pairwise htr h h' hitems hsub hoffer :)

/-! ### The comparers -/

variable {key : JobT → ℤ}

/-- The comparer by a field, then by the arrival time. -/
def compareBy (key : JobT → ℤ) (a b : JobT) : ℤ :=
  if key a ≠ key b then int32 (key a - key b) else int32 (a.arrivalTime - b.arrivalTime)

theorem compareSjf_eq : compareSjf = compareBy JobT.remainingTime := rfl

theorem comparePri_eq : comparePri = compareBy JobT.priority := rfl

/-- A 32-bit `int`. -/
def IsInt (x : ℤ) : Prop := -2 ^ 31 ≤ x ∧ x < 2 ^ 31

/-- Not later in the order of the field and the arrival time. -/
def LexLe (key : JobT → ℤ) (a b : JobT) : Prop :=
  key a < key b ∨ (key a = key b ∧ a.arrivalTime ≤ b.arrivalTime)

/-- The numbers that are compared for two jobs differ by less than `2 ^ 31`. -/
def Close (key : JobT → ℤ) (a b : JobT) : Prop :=
  (key a ≠ key b → key a - key b < 2 ^ 31) ∧
    (key a = key b → a.arrivalTime - b.arrivalTime < 2 ^ 31)

theorem lexLe_trans (a b c : JobT) (hab : LexLe key a b) (hbc : LexLe key b c) : LexLe key a c := by
  unfold LexLe at *
  omega

/-- A difference that is too large comes out negative. -/
theorem int32_neg {x : ℤ} (h : 2 ^ 31 ≤ x) (h' : x < 2 ^ 32) : int32 x < 0 := by
  rw [int32, Int.bmod_def]
  split <;> omega

theorem compareBy_neg {a b : JobT} (hab : Close key a b) (hba : Close key b a) :
    compareBy key a b < 0 ↔ ¬ LexLe key b a := by
  unfold Close at hab hba
  unfold compareBy LexLe
  split_ifs with hne
  · have h1 := hab.1 hne
    have h2 := hba.1 (Ne.symm hne)
    rw [int32_eq (by omega) (by omega)]
    omega
  · have heq : key a = key b := not_not.mp hne
    have h1 := hab.2 heq
    have h2 := hba.2 heq.symm
    rw [int32_eq (by omega) (by omega)]
    omega

/-- **Jobs that are too far apart** are compared the wrong way round. -/
theorem compareBy_apart {a b : JobT} (ha : IsInt (key a)) (ha' : IsInt a.arrivalTime) (hb : IsInt (key b))
    (hb' : IsInt b.arrivalTime) (h : ¬ Close key a b) : compareBy key a b < 0 ∧ ¬ LexLe key a b := by
  unfold IsInt at ha ha' hb hb'
  unfold Close at h
  unfold compareBy LexLe
  split_ifs with hne
  · have hfar : 2 ^ 31 ≤ key a - key b := by
      by_contra hlt
      exact h ⟨fun _ => by omega, fun he => absurd he hne⟩
    exact ⟨int32_neg hfar (by omega), by omega⟩
  · have heq : key a = key b := not_not.mp hne
    have hfar : 2 ^ 31 ≤ a.arrivalTime - b.arrivalTime := by
      by_contra hlt
      exact h ⟨fun hne => absurd heq hne, fun _ => by omega⟩
    exact ⟨int32_neg hfar (by omega), by omega⟩

/-! ### The order of a queue -/

/-- All numbers of the jobs that are compared are 32-bit integers. -/
def Ints (key : JobT → ℤ) (jobs : List JobT) : Prop :=
  ∀ j ∈ jobs, IsInt (key j) ∧ IsInt j.arrivalTime

theorem lexLe_total {a b : JobT} (h : ¬ LexLe key a b) : LexLe key b a := by
  unfold LexLe at *
  omega

theorem drained_sorted {jobs : List JobT} (h : ∀ a ∈ jobs, ∀ b ∈ jobs, Close key a b) :
    (drained (compareBy key) jobs).Pairwise (LexLe key) := by
  rw [drained_eq]
  refine offerAll_pairwise lexLe_trans (s := jobs) (fun a ha b hb hneg => ?_) (fun a ha b hb hpos => ?_)
    (List.Subset.refl _) (List.nil_subset _) List.Pairwise.nil
  · exact lexLe_total ((compareBy_neg (h a ha b hb) (h b hb a ha)).mp hneg)
  · exact not_not.mp fun hn => hpos ((compareBy_neg (h a ha b hb) (h b hb a ha)).mpr hn)

/-- Two jobs that are too far apart stay in the wrong order if they are offered first. -/
theorem drained_apart {a b : JobT} (rest : List JobT) (hneg : compareBy key a b < 0)
    (hle : ¬ LexLe key a b) : ¬ (drained (compareBy key) (b :: a :: rest)).Pairwise (LexLe key) := by
  intro hsorted
  rw [drained_eq] at hsorted
  have hsub : [a, b].Sublist (offerAll (compareBy key) (b :: a :: rest) []) := by
    have htwo : (priqueueOffer (compareBy key) [b] a).1 = [a, b] :=
      offer_first fun y hy => by rw [List.mem_singleton.mp hy]; exact hneg
    have hrest : (priqueueOffer (compareBy key) [b] a).1.Sublist
        (offerAll (compareBy key) (b :: a :: rest) []) := offerAll_sublist rest _
    rwa [htwo] at hrest
  exact hle (List.pairwise_pair.mp (hsorted.sublist hsub))

theorem sorted_iff {jobs : List JobT} (hints : Ints key jobs) :
    (∀ items, items.Perm jobs → (drained (compareBy key) items).Perm jobs ∧
      (drained (compareBy key) items).Pairwise (LexLe key)) ↔
    ∀ a ∈ jobs, ∀ b ∈ jobs, Close key a b := by
  constructor
  · intro h a ha b hb
    by_contra hfar
    obtain ⟨hneg, hle⟩ := compareBy_apart (hints a ha).1 (hints a ha).2 (hints b hb).1 (hints b hb).2 hfar
    have hne : a ≠ b := fun he => by
      subst he
      exact hle (.inr ⟨rfl, le_rfl⟩)
    have hperm : (b :: a :: (jobs.erase b).erase a).Perm jobs :=
      ((List.perm_cons_erase ((List.mem_erase_of_ne hne).mpr ha)).symm.cons b).trans
        (List.perm_cons_erase hb).symm
    exact drained_apart _ hneg hle (h _ hperm).2
  · intro h items hitems
    refine ⟨(drained_perm items).trans hitems, drained_sorted fun a ha b hb => ?_⟩
    exact h a (hitems.mem_iff.mp ha) b (hitems.mem_iff.mp hb)

/-- **When the queue is sorted by priority, and by remaining time.** Jobs with 32-bit numbers, offered in
any order, come out sorted by the priority (the remaining time) and then by the arrival time if and only if
no two of them have priorities (remaining times) that differ by `2 ^ 31` or more, or the same one and arrival
times that do. -/
theorem order_iff {jobs : List JobT} (hpri : Ints JobT.priority jobs) (hsjf : Ints JobT.remainingTime jobs) :
    ((∀ items, items.Perm jobs → (drained comparePri items).Perm jobs ∧
        (drained comparePri items).Pairwise (LexLe JobT.priority)) ↔
      ∀ a ∈ jobs, ∀ b ∈ jobs, Close JobT.priority a b) ∧
    ((∀ items, items.Perm jobs → (drained compareSjf items).Perm jobs ∧
        (drained compareSjf items).Pairwise (LexLe JobT.remainingTime)) ↔
      ∀ a ∈ jobs, ∀ b ∈ jobs, Close JobT.remainingTime a b) := by
  rw [comparePri_eq, compareSjf_eq]
  exact ⟨sorted_iff hpri, sorted_iff hsjf⟩

/-- Jobs with the priorities `1`, `-1` and `1` and the running times `3`, `2` and `3`. -/
theorem order_iff_three : ∃ jobs : List JobT,
    jobs = [newJobRecord 0 0 3 1, newJobRecord 1 0 2 (-1), newJobRecord 2 1 3 1] ∧
    (drained comparePri jobs).Pairwise (LexLe JobT.priority) ∧
    (drained compareSjf jobs).Pairwise (LexLe JobT.remainingTime) := by
  have hall : ∀ j ∈ [newJobRecord 0 0 3 1, newJobRecord 1 0 2 (-1), newJobRecord 2 1 3 1],
      (-1 ≤ j.priority ∧ j.priority ≤ 1) ∧ (2 ≤ j.remainingTime ∧ j.remainingTime ≤ 3) ∧
        0 ≤ j.arrivalTime ∧ j.arrivalTime ≤ 1 := by
    intro j hj
    simp only [List.mem_cons, List.not_mem_nil, or_false] at hj
    rcases hj with rfl | rfl | rfl <;> decide
  have hpri : Ints JobT.priority [newJobRecord 0 0 3 1, newJobRecord 1 0 2 (-1), newJobRecord 2 1 3 1] :=
    fun j hj => by
      have hj' := hall j hj
      unfold IsInt
      omega
  have hsjf : Ints JobT.remainingTime
      [newJobRecord 0 0 3 1, newJobRecord 1 0 2 (-1), newJobRecord 2 1 3 1] := fun j hj => by
    have hj' := hall j hj
    unfold IsInt
    omega
  obtain ⟨hp, hs⟩ := order_iff hpri hsjf
  refine ⟨_, rfl, (hp.mpr (fun a ha b hb => ?_) _ (List.Perm.refl _)).2,
    (hs.mpr (fun a ha b hb => ?_) _ (List.Perm.refl _)).2⟩
  all_goals
    have ha' := hall a ha
    have hb' := hall b hb
    unfold Close
    omega

/-- The numbers `2 ^ 31 - 1` and `-1` come out in the order in which they are not. -/
theorem order_iff_far : ∃ a b : JobT, a = newJobRecord 0 0 (2 ^ 31 - 1) (2 ^ 31 - 1) ∧
    b = newJobRecord 1 0 (-1) (-1) ∧ Ints JobT.priority [a, b] ∧ Ints JobT.remainingTime [a, b] ∧
    drained comparePri [b, a] = [a, b] ∧ ¬ LexLe JobT.priority a b ∧
    drained compareSjf [b, a] = [a, b] ∧ ¬ LexLe JobT.remainingTime a b := by
  have hints : ∀ j ∈ [newJobRecord 0 0 (2 ^ 31 - 1) (2 ^ 31 - 1), newJobRecord 1 0 (-1) (-1)],
      (IsInt j.priority ∧ IsInt j.arrivalTime) ∧ IsInt j.remainingTime ∧ IsInt j.arrivalTime := by
    intro j hj
    simp only [List.mem_cons, List.not_mem_nil, or_false] at hj
    unfold IsInt
    rcases hj with rfl | rfl <;> decide
  refine ⟨_, _, rfl, rfl, fun j hj => (hints j hj).1, fun j hj => (hints j hj).2, by decide, ?_, by decide,
    ?_⟩
  all_goals
    unfold LexLe
    decide

end Eecs678.Scheduler.IntOrder
