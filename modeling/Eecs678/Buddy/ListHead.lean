import Eecs678.Lib.LinkedRing

/-!
# The lists of `list.h`

`project2/buddy/list.h`, as far as the allocator uses it, over any type of nodes. A `NULL` that is written
through or followed gives `none`; `list_for_each` has a number of comparisons that it can still make. One
lemma says what each function does with a ring.
-/

namespace Eecs678.Buddy.ListHead

open Eecs678.Lib.LinkedRing

variable {A : Type} [DecidableEq A]

/-- `INIT_LIST_HEAD`. -/
def initListHead (ptr : A) (m : Links A) : Links A := setPrev ptr (some ptr) (setNext ptr (some ptr) m)

/-- `__list_add`. -/
def listAddBetween (new : A) (prev next : Option A) (m : Links A) : Option (Links A) := do
  let next ← next
  let m := setNext new (some next) (setPrev next (some new) m)
  let m := setPrev new prev m
  let prev ← prev
  return setNext prev (some new) m

/-- `list_add`. -/
def listAdd (new head : A) (m : Links A) : Option (Links A) :=
  listAddBetween new (some head) (m.next head) m

/-- `__list_del`. -/
def listDelBetween (prev next : Option A) (m : Links A) : Option (Links A) := do
  let next ← next
  let m := setPrev next prev m
  let prev ← prev
  return setNext prev (some next) m

/-- `list_del_init`. -/
def listDelInit (entry : A) (m : Links A) : Option (Links A) := do
  let m ← listDelBetween (m.prev entry) (m.next entry) m
  return initListHead entry m

/-- `list_empty`. -/
def listEmpty (head : A) (m : Links A) : Bool := m.next head = some head

/-- `list_for_each`, at `pos`: the nodes that `pos` goes through. -/
def listForEach (head : A) (m : Links A) : ℕ → Option A → Option (List A)
  | 0, _ => none
  | n + 1, pos =>
    if pos = some head then some []
    else do
      let pos ← pos
      let rest ← listForEach head m n (m.next pos)
      return pos :: rest

variable {m : Links A} {head new e : A} {l l₁ l₂ : List A}

/-- **`list_add` of a node that is not on the ring.** -/
theorem listAdd_ring (h : Ring m head l) (hnew : new ∉ head :: l) : ∃ m', listAdd new head m = some m' ∧
    Ring m' head (new :: l) ∧
      ∀ x ∉ head :: l, x ≠ new → m'.next x = m.next x ∧ m'.prev x = m.prev x := by
  have hb := h.next_head
  refine ⟨insert new head (l.headD head) m, ?_, h.insert hb hnew, fun x hx hxn => ?_⟩
  · rw [listAdd, hb]
    rfl
  · exact insert_other hxn (fun he => hx (he ▸ List.mem_cons_self ..))
      fun he => hx (he ▸ headD_mem l head)

/-- **`list_del_init` of a node on a ring.** -/
theorem listDelInit_ring (h : Ring m head (l₁ ++ e :: l₂)) : ∃ m', listDelInit e m = some m' ∧
    Ring m' head (l₁ ++ l₂) ∧ Ring m' e [] ∧
      ∀ x ∉ head :: (l₁ ++ e :: l₂), m'.next x = m.next x ∧ m'.prev x = m.prev x := by
  obtain ⟨a, b, ha, hb, hma, hmb, hr⟩ := h.remove
  refine ⟨setAlone e (unlink a b m), ?_, hr, ring_setAlone e _, fun x hx => ?_⟩
  · rw [listDelInit, ha, hb]
    rfl
  · refine unlink_other (fun he => hx ?_) (fun he => hx ?_) fun he => hx ?_
    · rw [he]
      simp
    · rw [he, List.mem_cons, List.mem_append]
      exact (List.mem_cons.mp hma).imp_right Or.inl
    · rw [he, List.mem_cons, List.mem_append]
      exact (List.mem_cons.mp hmb).imp_right fun hm => Or.inr (List.mem_cons_of_mem e hm)

theorem listEmpty_iff (h : Ring m head l) : listEmpty head m = true ↔ l = [] := by
  rw [listEmpty, decide_eq_true_iff, h.next_head, Option.some.injEq]
  cases l with
  | nil => exact iff_of_true rfl rfl
  | cons b l =>
    have hne : b ≠ head := fun he => (List.nodup_cons.mp h.nodup).1 (he ▸ List.mem_cons_self ..)
    exact iff_of_false hne (List.cons_ne_nil b l)

theorem listForEach_chain : ∀ {l : List A} {a : A} {n : ℕ}, (a :: (l ++ [head])).IsChain (Linked m) →
    head ∉ l → l.length < n → listForEach head m n (m.next a) = some l
  | [], a, n + 1, h, _, _ => by
    rw [(List.isChain_cons_cons.mp h).1.1, listForEach, if_pos rfl]
  | b :: l, a, n + 1, h, hl, hn => by
    obtain ⟨⟨hab, -⟩, h⟩ := List.isChain_cons_cons.mp h
    obtain ⟨hb, hl⟩ := not_or.mp (mt List.mem_cons.mpr hl)
    rw [hab, listForEach, if_neg fun he => hb (Option.some.inj he).symm]
    simp only [Option.bind_eq_bind, Option.bind_some]
    rw [listForEach_chain h hl (by rw [List.length_cons] at hn; omega)]
    rfl

/-- **`list_for_each` goes once around the ring.** -/
theorem listForEach_ring {n : ℕ} (h : Ring m head l) (hn : l.length < n) :
    listForEach head m n (m.next head) = some l :=
  listForEach_chain h.chain (List.nodup_cons.mp h.nodup).1 hn

theorem ring_initListHead (a : A) (m : Links A) : Ring (initListHead a m) a [] := ring_setAlone a m

/-- The loops of `INIT_LIST_HEAD`. -/
theorem foldl_initListHead {B : Type} (f : B → A) {a : A} : ∀ {l : List B} {m : Links A},
    (Ring m a [] ∨ a ∈ l.map f) → Ring (l.foldl (fun m b => initListHead (f b) m) m) a []
  | [], _, h => h.resolve_right List.not_mem_nil
  | b :: l, m, h => by
    rw [List.foldl_cons]
    refine foldl_initListHead f ?_
    by_cases hb : a = f b
    · exact Or.inl (hb ▸ ring_initListHead (f b) m)
    · rw [List.map_cons, List.mem_cons, or_iff_right hb] at h
      refine h.imp_left fun hr => hr.congr (fun x hx => ?_) fun x hx => ?_
      · rw [List.mem_singleton.mp hx]
        simp [initListHead, hb]
      · rw [List.mem_singleton.mp hx]
        simp [initListHead, hb]

end Eecs678.Buddy.ListHead
