import Eecs678.Scheduler.Nodes
import Eecs678.Scheduler.Priqueue

/-!
# The nodes are a list

Each function of `libpriqueue.c` on nodes and pointers does to the items what its counterpart in
`Priqueue` does to a list, and returns when it may make as many rounds as there are entries and one more:
`call_refines`.
-/

namespace Eecs678.Scheduler.NodesRefine

open Eecs678.Lib.LinkedList Eecs678.Scheduler.Nodes

variable {α : Type} {mem : Mem ℕ α} {q : PriqueueT α}

/-- The queue holds the items, in order. -/
def Holds (q : PriqueueT α) (xs : List α) : Prop := ∃ l, Chain q.mem q.top l ∧ items l = xs

/-! ### Reading -/

/-- `node_at` finds the entry of the index, with the nodes before and after it. -/
theorem nodeAt_eq : ∀ {l : List (ℕ × α)} {n : ℕ} {p : Option ℕ} (index : ℤ), Seg mem p l none →
    l.length < n → nodeAt mem n p index =
      some (if 0 ≤ index then (l[index.toNat]?).map Prod.fst else none)
  | [], 0, p, index, h, hn => absurd hn (Nat.not_lt_zero _)
  | [], n + 1, p, index, h, hn => by
    obtain rfl : p = none := h
    simp [nodeAt]
  | (a, x) :: l, 0, p, index, h, hn => absurd hn (Nat.not_lt_zero _)
  | (a, x) :: l, n + 1, p, index, ⟨hp, next, ha, hl⟩, hn => by
    subst hp
    unfold nodeAt
    by_cases h1 : index < 0
    · rw [if_pos h1, if_neg (not_le.mpr h1)]
    · rw [if_neg h1, if_pos (not_lt.mp h1)]
      by_cases h2 : index = 0
      · subst h2
        rfl
      · have ih := nodeAt_eq (index - 1) hl (Nat.lt_of_succ_lt_succ hn)
        rw [if_pos (show 0 ≤ index - 1 by omega)] at ih
        have hk : index.toNat = (index - 1).toNat + 1 := by omega
        rw [if_neg h2, ha, hk, List.getElem?_cons_succ]
        exact ih

theorem listSize_eq : ∀ {l : List (ℕ × α)} {n : ℕ} {p : Option ℕ}, Seg mem p l none →
    l.length < n → listSize mem n p = some (Priqueue.listSize (items l))
  | [], 0, p, h, hn => absurd hn (Nat.not_lt_zero _)
  | [], n + 1, p, h, hn => by
    obtain rfl : p = none := h
    rfl
  | (a, x) :: l, 0, p, h, hn => absurd hn (Nat.not_lt_zero _)
  | (a, x) :: l, n + 1, p, ⟨hp, next, ha, hl⟩, hn => by
    subst hp
    have ih := listSize_eq hl (Nat.lt_of_succ_lt_succ hn)
    simp only [listSize, ha, bind, Option.bind, ih]
    rfl

theorem nodeAt_items : ∀ (xs : List α) (index : ℤ),
    Priqueue.nodeAt xs index = if 0 ≤ index then xs[index.toNat]? else none
  | [], index => by simp [Priqueue.nodeAt]
  | x :: xs, index => by
    unfold Priqueue.nodeAt
    by_cases h1 : index < 0
    · rw [if_pos h1, if_neg (not_le.mpr h1)]
    · rw [if_neg h1, if_pos (not_lt.mp h1)]
      by_cases h2 : index = 0
      · subst h2
        rfl
      · have hk : index.toNat = (index - 1).toNat + 1 := by omega
        rw [if_neg h2, nodeAt_items xs, if_pos (show 0 ≤ index - 1 by omega), hk, List.getElem?_cons_succ]

theorem getElem?_items (l : List (ℕ × α)) (k : ℕ) : (items l)[k]? = (l[k]?).map Prod.snd :=
  List.getElem?_map ..

/-- The node of an entry. -/
theorem Seg.node {l : List (ℕ × α)} {p : Option ℕ} (h : Seg mem p l none) {a : ℕ} {x : α}
    (hm : (a, x) ∈ l) : ∃ next, mem a = some ⟨x, next⟩ := by
  obtain ⟨l1, l2, rfl⟩ := List.append_of_mem hm
  obtain ⟨r, -, -, next, ha, -⟩ := Seg.append.mp h
  exact ⟨next, ha⟩

theorem priqueueAt_refines {xs : List α} (h : Holds q xs) {n : ℕ} (hn : xs.length < n) (index : ℤ) :
    priqueueAt n q index = some (Priqueue.priqueueAt xs index) := by
  obtain ⟨l, hl, rfl⟩ := h
  rw [items, List.length_map] at hn
  have hnode := nodeAt_eq index hl.seg hn
  rw [Priqueue.priqueueAt, nodeAt_items, getElem?_items]
  unfold priqueueAt
  cases l with
  | nil =>
    have htop : q.top = none := hl.seg
    rw [htop]
    simp
  | cons e l =>
    have htop : q.top = some e.1 := hl.seg.1
    rw [htop] at hnode ⊢
    simp only [hnode, bind, Option.bind]
    split_ifs with h0
    · cases hk : (e :: l)[index.toNat]? with
      | none => rfl
      | some y =>
        obtain ⟨next, hy⟩ := Seg.node hl.seg (List.mem_of_getElem? hk)
        simp only [Option.map_some, hy]
        rfl
    · rfl

theorem priqueueSize_refines {xs : List α} (h : Holds q xs) {n : ℕ} (hn : xs.length < n) :
    priqueueSize n q = some (Priqueue.priqueueSize xs) := by
  obtain ⟨l, hl, rfl⟩ := h
  rw [items, List.length_map] at hn
  exact listSize_eq hl.seg hn

/-! ### `priqueue_offer` -/

variable (comparer : α → α → ℤ) {new : ℕ} (ptr : α)

theorem exists_lastAddr {pre : List (ℕ × α)} (h : pre ≠ []) : ∃ b, lastAddr pre = some b := by
  rcases List.eq_nil_or_concat' pre with rfl | ⟨pre, ⟨b, y⟩, rfl⟩
  · exact absurd rfl h
  · exact ⟨b, lastAddr_append pre b y⟩

/-- The queue after an insertion at a cursor. -/
def inserted (q : PriqueueT α) (new : ℕ) (ptr : α) (pre : List (ℕ × α)) (t : Option ℕ) : PriqueueT α :=
  ⟨(link (lastAddr pre) (some new) q.top (newNode new ptr t q.mem)).1,
    (link (lastAddr pre) (some new) q.top (newNode new ptr t q.mem)).2⟩

/-- The loop, from a cursor on. -/
theorem offerLoop_refines (hnew : q.mem new = none) : ∀ {l pre : List (ℕ × α)} {t : Option ℕ},
    At q.mem q.top pre t l → (l = [] → pre ≠ []) →
    ∃ q' l', (∀ n, l.length < n → offerLoop comparer new ptr q n pre.length (lastAddr pre) t =
        some ((Priqueue.offerLoop comparer ptr (items l) pre.length).2, q')) ∧
      Chain q'.mem q'.top (pre ++ l') ∧
      items l' = (Priqueue.offerLoop comparer ptr (items l) pre.length).1
  | [], pre, t, h, hne => by
    obtain rfl : t = none := h.after
    obtain ⟨b, hb⟩ := exists_lastAddr (hne rfl)
    refine ⟨inserted q new ptr pre none, [(new, ptr)], fun n hn => ?_, h.insert hnew ptr, rfl⟩
    obtain ⟨n, rfl⟩ := Nat.exists_eq_succ_of_ne_zero (Nat.ne_zero_of_lt hn)
    rw [inserted, hb]
    rfl
  | (a, x) :: l, pre, t, h, hne => by
    obtain ⟨next, rfl, ha, hnext⟩ := h.next
    by_cases hlt : comparer ptr x < 0
    · have hlist : Priqueue.offerLoop comparer ptr (items ((a, x) :: l)) pre.length =
          (ptr :: x :: items l, (pre.length : ℤ)) := by
        simp only [items, List.map_cons, Priqueue.offerLoop, if_pos hlt]
      rw [hlist]
      refine ⟨inserted q new ptr pre (some a), (new, ptr) :: (a, x) :: l, fun n hn => ?_,
        h.insert hnew ptr, rfl⟩
      obtain ⟨n, rfl⟩ := Nat.exists_eq_succ_of_ne_zero (Nat.ne_zero_of_lt hn)
      simp only [offerLoop, ha, if_pos hlt, bind, Option.bind]
      by_cases hpre : pre = []
      · subst hpre
        rfl
      · obtain ⟨b, hb⟩ := exists_lastAddr hpre
        have hlen : ¬ (pre.length : ℤ) = 0 := by
          rw [Nat.cast_eq_zero, List.length_eq_zero_iff]
          exact hpre
        rw [inserted, hb, if_neg hlen]
        rfl
    · have hlist : Priqueue.offerLoop comparer ptr (items ((a, x) :: l)) pre.length =
          (x :: (Priqueue.offerLoop comparer ptr (items l) (pre.length + 1)).1,
            (Priqueue.offerLoop comparer ptr (items l) (pre.length + 1)).2) := by
        simp only [items, List.map_cons, Priqueue.offerLoop, if_neg hlt]
      obtain ⟨q', l', h1, h2, h3⟩ := offerLoop_refines hnew hnext
        fun _ => List.append_ne_nil_of_right_ne_nil _ (List.cons_ne_nil _ _)
      rw [List.length_append, List.length_singleton, Nat.cast_succ] at h1 h3
      rw [lastAddr_append] at h1
      rw [hlist]
      refine ⟨q', (a, x) :: l', fun n hn => ?_, ?_, congrArg (x :: ·) h3⟩
      · obtain ⟨n, rfl⟩ := Nat.exists_eq_succ_of_ne_zero (Nat.ne_zero_of_lt hn)
        simp only [offerLoop, ha, if_neg hlt, bind, Option.bind]
        exact h1 n (Nat.lt_of_succ_lt_succ hn)
      · rwa [List.append_assoc] at h2

theorem priqueueOffer_refines {xs : List α} (h : Holds q xs) (hnew : q.mem new = none) :
    ∃ q', (∀ n, xs.length < n → priqueueOffer comparer n new ptr q =
      some ((Priqueue.priqueueOffer comparer xs ptr).2, q')) ∧
        Holds q' (Priqueue.priqueueOffer comparer xs ptr).1 := by
  obtain ⟨l, hl, rfl⟩ := h
  unfold priqueueOffer
  cases l with
  | nil =>
    have htop : q.top = none := hl.seg
    have hins := hl.at_start.insert hnew ptr
    rw [htop] at hins ⊢
    exact ⟨_, fun _ _ => rfl, [(new, ptr)], hins, rfl⟩
  | cons e l =>
    have htop : q.top = some e.1 := hl.seg.1
    obtain ⟨q', l', h1, h2, h3⟩ := offerLoop_refines comparer ptr hnew
      hl.at_start fun hc => absurd hc (List.cons_ne_nil _ _)
    rw [htop] at h1 ⊢
    rw [items, List.length_map]
    exact ⟨q', h1, l', h2, h3⟩

/-! ### Removals -/

variable {comparer : α → α → ℤ}

theorem holds_init (mem : Mem ℕ α) : Holds (priqueueInit mem) [] := ⟨[], chain_nil, rfl⟩

theorem exists_split {β : Type} {l : List β} {k : ℕ} {e : β} (h : l[k]? = some e) :
    ∃ pre rest, l = pre ++ e :: rest ∧ pre.length = k := by
  obtain ⟨hk, he⟩ := List.getElem?_eq_some_iff.mp h
  refine ⟨l.take k, l.drop (k + 1), ?_, by rw [List.length_take]; omega⟩
  rw [← he, ← List.drop_eq_getElem_cons hk, List.take_append_drop]

/-- The end of `priqueue_remove_at`: the node after the `k`-th one is taken out. -/
def removeAfter (prev : Option ℕ) (q : PriqueueT α) : Option (Option α × PriqueueT α) :=
  match prev with
  | none => some (none, q)
  | some prev => do
    let x ← q.mem prev
    match x.next with
    | none => some (none, q)
    | some remove => do
      let y ← q.mem remove
      let (item, q) ← destroyNode remove { q with mem := setNext prev y.next q.mem }
      return (some item, q)

theorem priqueueRemoveAt_pos {top n : ℕ} {index : ℤ} (htop : q.top = some top) (h : 0 < index) :
    priqueueRemoveAt n q index = (nodeAt q.mem n (some top) (index - 1)).bind (removeAfter · q) := by
  obtain ⟨_, mem⟩ := q
  subst htop
  unfold priqueueRemoveAt
  change (if index < 0 then _ else if index = 0 then _ else _) = _
  rw [if_neg (not_lt.mpr h.le), if_neg h.ne']
  rfl

theorem removeAfter_eq {l : List (ℕ × α)} (h : Chain q.mem q.top l) (k : ℕ) :
    ∃ q', removeAfter ((l[k]?).map Prod.fst) q = some ((l[k + 1]?).map Prod.snd, q') ∧
      Chain q'.mem q'.top (l.eraseIdx (k + 1)) := by
  cases hk : l[k]? with
  | none =>
    have hlen := List.getElem?_eq_none_iff.mp hk
    rw [List.getElem?_eq_none_iff.mpr (by omega), List.eraseIdx_of_length_le (by omega)]
    exact ⟨q, rfl, h⟩
  | some e =>
    obtain ⟨b, y⟩ := e
    obtain ⟨pre, rest, rfl, rfl⟩ := exists_split hk
    obtain ⟨t, hat⟩ := h.at
    obtain ⟨s, rfl, hb, hnext⟩ := hat.next
    have hget : (pre ++ (b, y) :: rest)[pre.length + 1]? = rest[0]? := by
      rw [List.getElem?_append_right (Nat.le_add_right _ 1), Nat.add_sub_cancel_left,
        List.getElem?_cons_succ]
    have herase : (pre ++ (b, y) :: rest).eraseIdx (pre.length + 1) =
        pre ++ (b, y) :: rest.eraseIdx 0 := by
      rw [List.eraseIdx_append_of_length_le (Nat.le_add_right _ 1), Nat.add_sub_cancel_left,
        List.eraseIdx_cons_succ]
    rw [hget, herase]
    cases rest with
    | nil =>
      obtain rfl : s = none := hnext.after
      simp only [removeAfter, Option.map_some, hb, bind, Option.bind]
      exact ⟨q, rfl, h⟩
    | cons e rest =>
      obtain ⟨c, z⟩ := e
      obtain ⟨s', rfl, hc, -⟩ := hnext.next
      have hne : c ≠ b := by
        rintro rfl
        exact hnext.disjoint c (by simp) (List.mem_cons_self ..)
      have hrem := (hnext.remove hc).chain
      rw [lastAddr_append, List.append_assoc] at hrem
      have hc' : setNext b s' q.mem c = some ⟨z, s'⟩ := by
        rw [setNext, Function.update_of_ne hne, hc]
      simp only [removeAfter, destroyNode, Option.map_some, hb, hc, hc', bind, Option.bind, pure]
      exact ⟨_, rfl, hrem⟩

/-- `priqueue_remove_at` of an entry takes out its node. -/
theorem removeAt_items : ∀ (xs : List α) (index : ℤ), Priqueue.priqueueRemoveAt xs index =
    if 0 ≤ index then (xs.eraseIdx index.toNat, xs[index.toNat]?) else (xs, none)
  | [], index => by simp [Priqueue.priqueueRemoveAt]
  | x :: xs, index => by
    unfold Priqueue.priqueueRemoveAt
    by_cases h1 : index < 0
    · rw [if_pos h1, if_neg (not_le.mpr h1)]
    · rw [if_neg h1, if_pos (not_lt.mp h1)]
      by_cases h2 : index = 0
      · subst h2
        rfl
      · have hk : index.toNat = (index - 1).toNat + 1 := by omega
        rw [if_neg h2, removeAt_items xs, if_pos (show 0 ≤ index - 1 by omega), hk,
          List.getElem?_cons_succ, List.eraseIdx_cons_succ]

theorem priqueueRemoveAt_refines {xs : List α} (h : Holds q xs) (index : ℤ) :
    ∃ q', (∀ n, xs.length < n → priqueueRemoveAt n q index =
      some ((Priqueue.priqueueRemoveAt xs index).2, q')) ∧
        Holds q' (Priqueue.priqueueRemoveAt xs index).1 := by
  obtain ⟨l, hl, rfl⟩ := h
  rw [items, List.length_map, removeAt_items, getElem?_items]
  cases l with
  | nil =>
    have htop : q.top = none := hl.seg
    unfold priqueueRemoveAt
    rw [htop]
    refine ⟨q, fun n hn => ?_, [], hl, ?_⟩
    · split_ifs <;> rfl
    · split_ifs <;> rfl
  | cons e l =>
    obtain ⟨a, x⟩ := e
    obtain ⟨next, htop, ha, hnext⟩ := hl.at_start.next
    rcases lt_trichotomy index 0 with h0 | rfl | h0
    · unfold priqueueRemoveAt
      rw [htop, if_neg (not_le.mpr h0)]
      simp only [if_pos h0]
      exact ⟨q, fun n hn => rfl, (a, x) :: l, hl, rfl⟩
    · have hrem := (htop ▸ hl.at_start).remove ha
      unfold priqueueRemoveAt
      rw [htop]
      simp only [destroyNode, ha, if_true, bind, Option.bind, pure]
      exact ⟨_, fun n hn => rfl, l, hrem.chain, rfl⟩
    · -- the node before the one to remove is an entry
      obtain ⟨q', h1, h2⟩ := removeAfter_eq hl (index - 1).toNat
      have hk : index.toNat = (index - 1).toNat + 1 := by omega
      rw [if_pos h0.le, hk]
      refine ⟨q', fun n hn => ?_, _, h2, (List.eraseIdx_map ..).symm⟩
      have hprev := nodeAt_eq (index - 1) hl.seg hn
      rw [if_pos (show 0 ≤ index - 1 by omega), htop] at hprev
      rw [priqueueRemoveAt_pos htop h0, hprev]
      exact h1

theorem priqueuePoll_refines {xs : List α} (h : Holds q xs) :
    ∃ q', (∀ n, xs.length < n → priqueuePoll n q = some ((Priqueue.priqueuePoll xs).2, q')) ∧
      Holds q' (Priqueue.priqueuePoll xs).1 := priqueueRemoveAt_refines h 0

/-- The loop of `priqueue_remove`, from a cursor on. -/
theorem removeLoop_refines [DecidableEq α] (ptr : α) : ∀ {l pre : List (ℕ × α)} {t : Option ℕ}
    {q : PriqueueT α} (removed : ℤ), At q.mem q.top pre t l →
    ∃ q' l', (∀ n, l.length < n → removeLoop ptr n removed (lastAddr pre) t q =
        some (removed + (Priqueue.priqueueRemove ptr (items l)).2, q')) ∧
      Chain q'.mem q'.top (pre ++ l') ∧ items l' = (Priqueue.priqueueRemove ptr (items l)).1
  | [], pre, t, q, removed, h => by
    obtain rfl : t = none := h.after
    refine ⟨q, [], fun n hn => ?_, h.chain, rfl⟩
    obtain ⟨n, rfl⟩ := Nat.exists_eq_succ_of_ne_zero (Nat.ne_zero_of_lt hn)
    simp [removeLoop, Priqueue.priqueueRemove]
  | (a, x) :: l, pre, t, q, removed, h => by
    obtain ⟨next, rfl, ha, hnext⟩ := h.next
    simp only [items, List.map_cons, Priqueue.priqueueRemove]
    by_cases hx : x = ptr
    · rw [if_pos hx]
      have hread : (link (lastAddr pre) next q.top q.mem).2 a = some ⟨x, next⟩ := by
        rw [link_of_not_mem fun hm => h.disjoint a hm (List.mem_cons_self ..), ha]
      obtain ⟨q', l', h1, h2, h3⟩ := removeLoop_refines ptr (removed + 1)
        (q := ⟨_, _⟩) (h.remove ha)
      refine ⟨q', l', fun n hn => ?_, h2, h3⟩
      obtain ⟨n, rfl⟩ := Nat.exists_eq_succ_of_ne_zero (Nat.ne_zero_of_lt hn)
      have hloop := h1 n (Nat.lt_of_succ_lt_succ hn)
      rw [add_assoc, add_comm 1] at hloop
      rw [← hloop]
      simp only [removeLoop, ha, if_pos hx, bind, Option.bind]
      -- the two writes of the loop are `link`
      rcases List.eq_nil_or_concat' pre with rfl | ⟨pre, ⟨b, y⟩, rfl⟩
      · rw [if_pos (h.top_iff.mpr rfl)]
        simp only [destroyNode, lastAddr, List.getLast?_nil, Option.map_none, ha, bind, Option.bind, pure]
        rfl
      · rw [if_neg fun hc => absurd (h.top_iff.mp hc) (by simp)]
        rw [lastAddr_append] at hread ⊢
        simp only [link] at hread
        simp only [destroyNode, hread, bind, Option.bind, pure]
        rfl
    · rw [if_neg hx]
      obtain ⟨q', l', h1, h2, h3⟩ := removeLoop_refines ptr removed hnext
      rw [lastAddr_append] at h1
      refine ⟨q', (a, x) :: l', fun n hn => ?_, ?_, congrArg (x :: ·) h3⟩
      · obtain ⟨n, rfl⟩ := Nat.exists_eq_succ_of_ne_zero (Nat.ne_zero_of_lt hn)
        simp only [removeLoop, ha, if_neg hx, bind, Option.bind]
        exact h1 n (Nat.lt_of_succ_lt_succ hn)
      · rwa [List.append_assoc] at h2

theorem priqueueRemove_refines [DecidableEq α] {xs : List α} (h : Holds q xs) (ptr : α) :
    ∃ q', (∀ n, xs.length < n → priqueueRemove n ptr q =
      some ((Priqueue.priqueueRemove ptr xs).2, q')) ∧ Holds q' (Priqueue.priqueueRemove ptr xs).1 := by
  obtain ⟨l, hl, rfl⟩ := h
  obtain ⟨q', l', h1, h2, h3⟩ := removeLoop_refines ptr 0 hl.at_start
  rw [zero_add] at h1
  rw [items, List.length_map]
  exact ⟨q', h1, l', h2, h3⟩

/-! ### Calls -/

/-- What a call returns and leaves on a list. -/
def listCall [DecidableEq α] (comparer : α → α → ℤ) (xs : List α) : Op α → Reply α × List α
  | .offer ptr =>
    (.int (Priqueue.priqueueOffer comparer xs ptr).2, (Priqueue.priqueueOffer comparer xs ptr).1)
  | .poll => (.ptr (Priqueue.priqueuePoll xs).2, (Priqueue.priqueuePoll xs).1)
  | .peek => (.ptr (Priqueue.priqueuePeek xs), xs)
  | .at index => (.ptr (Priqueue.priqueueAt xs index), xs)
  | .removeAt index =>
    (.ptr (Priqueue.priqueueRemoveAt xs index).2, (Priqueue.priqueueRemoveAt xs index).1)
  | .remove ptr => (.int (Priqueue.priqueueRemove ptr xs).2, (Priqueue.priqueueRemove ptr xs).1)
  | .size => (.int (Priqueue.priqueueSize xs), xs)

/-- A call returns, if it may make enough rounds. -/
def Returns [DecidableEq α] (comparer : α → α → ℤ) (new : ℕ) (op : Op α) (q : PriqueueT α)
    (r : Reply α × PriqueueT α) : Prop := ∃ m, ∀ n, m < n → call comparer n new op q = some r

theorem Returns.unique [DecidableEq α] {op : Op α} {r r' : Reply α × PriqueueT α}
    (h : Returns comparer new op q r) (h' : Returns comparer new op q r') : r = r' := by
  obtain ⟨m, hm⟩ := h
  obtain ⟨m', hm'⟩ := h'
  have hr := hm (max m m' + 1) (Nat.lt_succ_of_le (le_max_left ..))
  rw [hm' (max m m' + 1) (Nat.lt_succ_of_le (le_max_right ..))] at hr
  exact (Option.some.inj hr).symm

/-- **A call on the nodes is the call on the list.** -/
theorem call_refines [DecidableEq α] (comparer : α → α → ℤ) {xs : List α} (h : Holds q xs)
    (hnew : q.mem new = none) (op : Op α) : ∃ q', Returns comparer new op q ((listCall comparer xs op).1, q') ∧
      Holds q' (listCall comparer xs op).2 := by
  cases op with
  | offer ptr =>
    obtain ⟨q', h1, h2⟩ := priqueueOffer_refines comparer ptr h hnew
    exact ⟨q', ⟨xs.length, fun n hn => by rw [call, h1 n hn]; rfl⟩, h2⟩
  | poll =>
    obtain ⟨q', h1, h2⟩ := priqueuePoll_refines h
    exact ⟨q', ⟨xs.length, fun n hn => by rw [call, h1 n hn]; rfl⟩, h2⟩
  | peek =>
    exact ⟨q, ⟨xs.length, fun n hn => by rw [call, priqueuePeek, priqueueAt_refines h hn]; rfl⟩, h⟩
  | «at» index =>
    exact ⟨q, ⟨xs.length, fun n hn => by rw [call, priqueueAt_refines h hn]; rfl⟩, h⟩
  | removeAt index =>
    obtain ⟨q', h1, h2⟩ := priqueueRemoveAt_refines h index
    exact ⟨q', ⟨xs.length, fun n hn => by rw [call, h1 n hn]; rfl⟩, h2⟩
  | remove ptr =>
    obtain ⟨q', h1, h2⟩ := priqueueRemove_refines h ptr
    exact ⟨q', ⟨xs.length, fun n hn => by rw [call, h1 n hn]; rfl⟩, h2⟩
  | size => exact ⟨q, ⟨xs.length, fun n hn => by rw [call, priqueueSize_refines h hn]; rfl⟩, h⟩

end Eecs678.Scheduler.NodesRefine
