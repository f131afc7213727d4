import Eecs678.Scheduler.NodesRefine
import Mathlib.Data.List.InsertIdx

/-!
# A stable sorted list

What a priority queue is for: a list of entries, sorted by the comparer, in which equal items stand in
the order in which they were offered. `refines`: in every run of calls, the nodes of `libpriqueue.c` are
such a list, and each call returns what the list says.
-/

namespace Eecs678.Scheduler.Stable

open Eecs678.Lib.LinkedList Eecs678.Scheduler.Nodes Eecs678.Scheduler.NodesRefine

variable {α : Type} {comparer : α → α → ℤ}

/-- The sign of the comparer is a strict weak order. -/
structure StrictWeak (comparer : α → α → ℤ) : Prop where
  irrefl : ∀ x, ¬ comparer x x < 0
  trans : ∀ x y z, comparer x y < 0 → comparer y z < 0 → comparer x z < 0
  equal_trans : ∀ x y z, ¬ comparer x y < 0 → ¬ comparer y x < 0 → ¬ comparer y z < 0 →
    ¬ comparer z y < 0 → ¬ comparer x z < 0

/-- An entry: an item, and the number of the call that offered it. -/
structure Entry (α : Type) where
  item : α
  time : ℕ
deriving DecidableEq, Repr

/-- The order of the entries: the comparer, and among equal items the time. -/
def Before (comparer : α → α → ℤ) (e f : Entry α) : Prop :=
  comparer e.item f.item < 0 ∨ (¬ comparer f.item e.item < 0 ∧ e.time < f.time)

/-- The number of entries that `ptr` does not go before. -/
def rank (comparer : α → α → ℤ) (ptr : α) (es : List (Entry α)) : ℕ :=
  es.countP fun e => 0 ≤ comparer ptr e.item

/-- The entry at an index. -/
def entryAt (es : List (Entry α)) (index : ℤ) : Option α :=
  if 0 ≤ index then (es[index.toNat]?).map Entry.item else none

section Spec
variable [DecidableEq α]

/-- The entries after a call, which is the `now`-th one. -/
def next (comparer : α → α → ℤ) (now : ℕ) (es : List (Entry α)) : Op α → List (Entry α)
  | .offer ptr => es.insertIdx (rank comparer ptr es) ⟨ptr, now⟩
  | .poll => es.tail
  | .peek => es
  | .at _ => es
  | .removeAt index => if 0 ≤ index then es.eraseIdx index.toNat else es
  | .remove ptr => es.filter (·.item ≠ ptr)
  | .size => es

/-- What a call returns. -/
def reply (comparer : α → α → ℤ) (es : List (Entry α)) : Op α → Reply α
  | .offer ptr => .int (rank comparer ptr es)
  | .poll => .ptr (entryAt es 0)
  | .peek => .ptr (entryAt es 0)
  | .at index => .ptr (entryAt es index)
  | .removeAt index => .ptr (entryAt es index)
  | .remove ptr => .int (es.countP (·.item = ptr))
  | .size => .int es.length

/-- The entries after the calls, of which the last one comes first. -/
def entries (comparer : α → α → ℤ) : List (Op α) → List (Entry α)
  | [] => []
  | op :: ops => next comparer ops.length (entries comparer ops) op

end Spec

/-! ### Insertion -/

namespace StrictWeak

/-- What does not go before `x` goes after what `x` goes after. -/
theorem split (h : StrictWeak comparer) {x y z : α} (hxz : comparer x z < 0) :
    comparer x y < 0 ∨ comparer y z < 0 := by
  by_contra hc
  obtain ⟨hxy, hyz⟩ := not_or.mp hc
  by_cases hyx : comparer y x < 0
  · exact hyz (h.trans y x z hyx hxz)
  · by_cases hzy : comparer z y < 0
    · exact hxy (h.trans x z y hxz hzy)
    · exact h.equal_trans x y z hxy hyx hyz hzy hxz

theorem asymm (h : StrictWeak comparer) {x y : α} (hxy : comparer x y < 0) : ¬ comparer y x < 0 :=
  fun hyx => h.irrefl x (h.trans x y x hxy hyx)

theorem before_trans (h : StrictWeak comparer) (e f g : Entry α) (hef : Before comparer e f)
    (hfg : Before comparer f g) : Before comparer e g := by
  rcases hef with hef | ⟨hfe, ht⟩
  · rcases hfg with hfg | ⟨hgf, -⟩
    · exact .inl (h.trans _ _ _ hef hfg)
    · exact .inl ((h.split hef).resolve_right hgf)
  · rcases hfg with hfg | ⟨hgf, ht'⟩
    · exact .inl ((h.split hfg).resolve_left hfe)
    · refine .inr ⟨fun hge => ?_, ht.trans ht'⟩
      rcases h.split hge with hgf' | hfe'
      · exact hgf hgf'
      · exact hfe hfe'

theorem not_before (h : StrictWeak comparer) {e f : Entry α} (hef : Before comparer e f) :
    ¬ comparer f.item e.item < 0 := by
  rcases hef with hef | ⟨hfe, -⟩
  · exact h.asymm hef
  · exact hfe

end StrictWeak

/-- The comparer on entries. -/
abbrev entryCompare (comparer : α → α → ℤ) (e f : Entry α) : ℤ := comparer e.item f.item

theorem offerLoop_map (e : Entry α) : ∀ (es : List (Entry α)) (i : ℤ),
    Priqueue.offerLoop comparer e.item (es.map Entry.item) i =
      ((Priqueue.offerLoop (entryCompare comparer) e es i).1.map Entry.item,
        (Priqueue.offerLoop (entryCompare comparer) e es i).2)
  | [], i => rfl
  | f :: es, i => by
    simp only [List.map_cons, Priqueue.offerLoop, offerLoop_map e es]
    split_ifs <;> rfl

/-- **The place of an offered item** in a sorted list. -/
theorem offerLoop_eq (h : StrictWeak comparer) (e : Entry α) : ∀ {es : List (Entry α)} (i : ℤ),
    es.Pairwise (Before comparer) → Priqueue.offerLoop (entryCompare comparer) e es i =
      (es.insertIdx (rank comparer e.item es) e, i + rank comparer e.item es)
  | [], i, _ => by simp [Priqueue.offerLoop, rank]
  | f :: es, i, hes => by
    obtain ⟨hf, hes⟩ := List.pairwise_cons.mp hes
    unfold Priqueue.offerLoop
    by_cases hlt : comparer e.item f.item < 0
    · -- the item goes before all the entries that are left
      have hzero : rank comparer e.item (f :: es) = 0 := by
        rw [rank, List.countP_eq_zero]
        intro g hg
        rw [decide_eq_true_iff, not_le]
        rcases List.mem_cons.mp hg with rfl | hg
        · exact hlt
        · exact (h.split hlt).resolve_right (h.not_before (hf g hg))
      rw [if_pos hlt, hzero]
      simp
    · have hsucc : rank comparer e.item (f :: es) = rank comparer e.item es + 1 := by
        rw [rank, List.countP_cons_of_pos]
        · rfl
        · exact decide_eq_true (not_lt.mp hlt)
      rw [if_neg hlt, offerLoop_eq h e (i + 1) hes, hsucc]
      simp only [List.insertIdx_succ_cons, Nat.cast_succ]
      rw [add_right_comm, add_assoc i]

theorem offer_spec (h : StrictWeak comparer) {es : List (Entry α)} (hes : es.Pairwise (Before comparer))
    (ptr : α) (now : ℕ) : Priqueue.priqueueOffer comparer (es.map Entry.item) ptr =
      ((es.insertIdx (rank comparer ptr es) ⟨ptr, now⟩).map Entry.item, (rank comparer ptr es : ℤ)) := by
  rw [Priqueue.priqueueOffer, offerLoop_map ⟨ptr, now⟩, offerLoop_eq h _ 0 hes, zero_add]

/-- The list stays sorted, and a later entry comes after the equal ones. -/
theorem insertIdx_before (h : StrictWeak comparer) {es : List (Entry α)}
    (hes : es.Pairwise (Before comparer)) {e : Entry α} (htime : ∀ f ∈ es, f.time < e.time) :
    (es.insertIdx (rank comparer e.item es) e).Pairwise (Before comparer) := by
  have hpair : (Priqueue.priqueueOffer (entryCompare comparer) es e).1.Pairwise (Before comparer) :=
    Priqueue.offer_pairwise h.before_trans (fun f _ hlt => .inl hlt)
      (fun f hf hlt => .inr ⟨hlt, htime f hf⟩) hes
  rwa [Priqueue.priqueueOffer, offerLoop_eq h e 0 hes] at hpair

/-! ### Calls -/

theorem listSize_eq_length : ∀ xs : List α, Priqueue.listSize xs = xs.length
  | [] => rfl
  | x :: xs => by
    rw [Priqueue.listSize, listSize_eq_length xs, List.length_cons, Nat.cast_succ, add_comm]

section Calls
variable [DecidableEq α]

theorem next_time {now : ℕ} {es : List (Entry α)} (h : ∀ e ∈ es, e.time < now) (op : Op α) :
    ∀ e ∈ next comparer now es op, e.time < now + 1 := by
  have hold : ∀ e ∈ es, e.time < now + 1 := fun e he => (h e he).trans (Nat.lt_succ_self now)
  intro e he
  cases op with
  | offer ptr =>
    rcases List.eq_or_mem_of_mem_insertIdx he with rfl | he
    · exact Nat.lt_succ_self now
    · exact hold e he
  | poll => exact hold e (List.mem_of_mem_tail he)
  | peek => exact hold e he
  | «at» index => exact hold e he
  | removeAt index =>
    simp only [next] at he
    split_ifs at he
    · exact hold e (List.mem_of_mem_eraseIdx he)
    · exact hold e he
  | remove ptr => exact hold e (List.mem_of_mem_filter he)
  | size => exact hold e he

/-- Every call keeps the order. -/
theorem next_sorted (h : StrictWeak comparer) {now : ℕ} {es : List (Entry α)}
    (hes : es.Pairwise (Before comparer)) (htime : ∀ e ∈ es, e.time < now) (op : Op α) :
    (next comparer now es op).Pairwise (Before comparer) := by
  cases op with
  | offer ptr => exact insertIdx_before h (e := ⟨ptr, now⟩) hes htime
  | poll => exact hes.sublist (List.tail_sublist es)
  | peek => exact hes
  | «at» index => exact hes
  | removeAt index =>
    simp only [next]
    split_ifs
    · exact hes.sublist (List.eraseIdx_sublist ..)
    · exact hes
  | remove ptr => exact hes.sublist List.filter_sublist
  | size => exact hes

theorem priqueueRemove_map (ptr : α) : ∀ es : List (Entry α),
    Priqueue.priqueueRemove ptr (es.map Entry.item) =
      ((es.filter (·.item ≠ ptr)).map Entry.item, (es.countP (·.item = ptr) : ℤ))
  | [] => rfl
  | e :: es => by
    simp only [List.map_cons, Priqueue.priqueueRemove, priqueueRemove_map ptr es]
    by_cases he : e.item = ptr
    · simp [he]
    · simp [he]

/-- **A call on a sorted list** does what the entries say. -/
theorem listCall_eq (h : StrictWeak comparer) {es : List (Entry α)} (hes : es.Pairwise (Before comparer))
    (now : ℕ) (op : Op α) : listCall comparer (es.map Entry.item) op =
      (reply comparer es op, (next comparer now es op).map Entry.item) := by
  have hat : ∀ index, Priqueue.priqueueAt (es.map Entry.item) index = entryAt es index := fun index => by
    rw [Priqueue.priqueueAt, nodeAt_items, entryAt, List.getElem?_map]
  cases op with
  | offer ptr => rw [listCall, offer_spec h hes ptr now]; rfl
  | poll => cases es <;> rfl
  | peek => rw [listCall, Priqueue.priqueuePeek, hat]; rfl
  | «at» index => rw [listCall, hat]; rfl
  | removeAt index =>
    rw [listCall, removeAt_items, List.getElem?_map, reply, next, entryAt]
    split_ifs
    · rw [List.eraseIdx_map]
    · rfl
  | remove ptr => rw [listCall, priqueueRemove_map]; rfl
  | size => rw [listCall, Priqueue.priqueueSize, listSize_eq_length, List.length_map]; rfl

/-! ### Runs -/

/-- A run of calls, of which the last one comes first, from `priqueue_init` on; `malloc` returns an
address where there is no node. -/
inductive Run (comparer : α → α → ℤ) : List (Op α) → PriqueueT α → Prop
  | init (mem : Mem ℕ α) : Run comparer [] (priqueueInit mem)
  | call {ops : List (Op α)} {q q' : PriqueueT α} {new : ℕ} {op : Op α} {r : Reply α}
      (h : Run comparer ops q) (hnew : q.mem new = none) (hr : Returns comparer new op q (r, q')) :
      Run comparer (op :: ops) q'

/-- A call on nodes that hold the entries. -/
theorem returns_call (h : StrictWeak comparer) {es : List (Entry α)} (hes : es.Pairwise (Before comparer))
    {q : PriqueueT α} (hq : Holds q (es.map Entry.item)) {new : ℕ} (hnew : q.mem new = none) (now : ℕ)
    (op : Op α) : ∃ q', Returns comparer new op q (reply comparer es op, q') ∧
      Holds q' ((next comparer now es op).map Entry.item) := by
  have hcall := call_refines comparer hq hnew op
  rw [listCall_eq h hes now] at hcall
  exact hcall

/-- **The nodes hold the entries** after every run. -/
theorem Run.holds (h : StrictWeak comparer) {ops : List (Op α)} {q : PriqueueT α}
    (hr : Run comparer ops q) : Holds q ((entries comparer ops).map Entry.item) ∧
      (entries comparer ops).Pairwise (Before comparer) ∧
      ∀ e ∈ entries comparer ops, e.time < ops.length := by
  induction hr with
  | init mem => exact ⟨holds_init mem, List.Pairwise.nil, fun e he => absurd he List.not_mem_nil⟩
  | @call ops q q' new op r hrun hnew hret ih =>
    obtain ⟨hq, hes, htime⟩ := ih
    obtain ⟨q'', hret', hq'⟩ := returns_call h hes hq hnew ops.length op
    obtain rfl : q' = q'' := congrArg Prod.snd (hret.unique hret')
    exact ⟨hq', next_sorted h hes htime op, next_time htime op⟩

/-- **Refinement of the priority queue.** After every run of calls, the nodes are the entries, sorted by
the comparer and, among equal items, by the time they were offered; and the next call, whichever it is,
returns what the entries say and leaves the entries that it should. -/
theorem refines (h : StrictWeak comparer) {ops : List (Op α)} {q : PriqueueT α}
    (hr : Run comparer ops q) : Holds q ((entries comparer ops).map Entry.item) ∧
      (entries comparer ops).Pairwise (Before comparer) ∧
      ∀ op new, q.mem new = none → ∃ q',
        Returns comparer new op q (reply comparer (entries comparer ops) op, q') ∧
        Holds q' ((entries comparer (op :: ops)).map Entry.item) := by
  obtain ⟨hq, hes, -⟩ := hr.holds h
  exact ⟨hq, hes, fun op new hnew => returns_call h hes hq hnew ops.length op⟩

end Calls

/-- A difference of numbers is such a comparer. -/
theorem strictWeak_sub : StrictWeak fun x y : ℤ => x - y :=
  ⟨fun x => by omega, fun x y z => by omega, fun x y z => by omega⟩

/-- The same item is offered twice. -/
theorem refines_two : ∃ q : PriqueueT ℤ, Run (fun x y => x - y) [.offer 12, .offer 12] q ∧
    Holds q [12, 12] ∧
      (entries (fun x y : ℤ => x - y) [.offer 12, .offer 12]).Pairwise (Before fun x y => x - y) := by
  have hfirst : Run (fun x y : ℤ => x - y) [.offer 12]
      ⟨some 0, newNode 0 12 none fun _ => none⟩ :=
    .call (.init fun _ => none) rfl ⟨0, fun n hn => rfl⟩
  have hret : Returns (fun x y : ℤ => x - y) 1 (.offer 12) ⟨some 0, newNode 0 12 none fun _ => none⟩
      (.int 1, ⟨some 0, setNext 0 (some 1) (newNode 1 12 none (newNode 0 12 none fun _ => none))⟩) := by
    refine ⟨1, fun n hn => ?_⟩
    match n, hn with
    | n + 2, _ => rfl
  have hsecond := hfirst.call rfl hret
  have href := refines strictWeak_sub hsecond
  exact ⟨_, hsecond, href.1, href.2.1⟩

end Eecs678.Scheduler.Stable
