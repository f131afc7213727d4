import Eecs678.Buddy.Pointers
import Mathlib.Data.List.Nodup
import Mathlib.Data.List.Perm.Basic

/-!
# The rings of the free lists

`Rings links lists`: the pointers are nine rings that have no node in common, the one of `free_area[o]` with
the pages of `lists o`, and the node of every other page points to itself. `list_add` of a page that is on no
ring and `list_del_init` of one that is on a ring lead from rings to rings (`Rings.add`, `Rings.del`);
`Proper` says this of a call.
-/

namespace Eecs678.Buddy.FreeRings

open Eecs678.Lib.LinkedRing Eecs678.Buddy.ListHead Eecs678.Buddy.Model Eecs678.Buddy.Pointers

/-- The orders of the free lists. -/
def Order (o : ℕ) : Prop := minOrder ≤ o ∧ o ≤ maxOrder

/-- The pointers of all list nodes are in order. -/
structure Rings (links : Links Node) (lists : ℕ → List ℕ) : Prop where
  ring : ∀ o, Order o → Ring links (.area o) ((lists o).map .page)
  range : ∀ o i, i ∈ lists o → Order o ∧ i < nPages
  apart : ∀ o o' i, i ∈ lists o → i ∈ lists o' → o = o'
  alone : ∀ i < nPages, (∀ o, i ∉ lists o) →
    links.next (.page i) = some (.page i) ∧ links.prev (.page i) = some (.page i)

/-- **A call does what it is meant to do**: a page is added that is on no ring, or the page is taken off the
ring of its order; all other rings stay as they are. -/
def Proper : Call → Prop
  | .add found i o => ∃ lists after, Rings found lists ∧ (∀ o', i ∉ lists o') ∧
      ListHead.listAdd (.page i) (.area o) found = some after ∧
        Rings after (Function.update lists o (i :: lists o))
  | .del found i o => ∃ lists after, Rings found lists ∧ i ∈ lists o ∧
      ListHead.listDelInit (.page i) found = some after ∧
        Rings after (Function.update lists o ((lists o).erase i))

variable {links : Links Node} {lists : ℕ → List ℕ} {i o : ℕ}

theorem page_mem {l : List ℕ} : Node.page i ∈ Node.area o :: l.map .page ↔ i ∈ l := by
  simp

namespace Rings

theorem nodup (h : Rings links lists) (o : ℕ) : (lists o).Nodup := by
  by_cases ho : Order o
  · exact (List.nodup_cons.mp (h.ring o ho).nodup).2.of_map _
  · rw [List.eq_nil_iff_forall_not_mem.mpr fun i hi => ho (h.range o i hi).1]
    exact List.nodup_nil

/-- Two rings have no node in common. -/
theorem disjoint (h : Rings links lists) {o' : ℕ} (hne : o' ≠ o) {x : Node}
    (hx : x ∈ Node.area o' :: (lists o').map .page) : x ∉ Node.area o :: (lists o).map .page := by
  intro hx'
  rcases List.mem_cons.mp hx with rfl | hx
  · simp [hne] at hx'
  · obtain ⟨i, hi, rfl⟩ := List.mem_map.mp hx
    exact hne (h.apart o' o i hi (page_mem.mp hx'))

/-- **`list_add` of a page that is on no ring.** -/
theorem add (h : Rings links lists) (ho : Order o) (hi : i < nPages) (hfree : ∀ o', i ∉ lists o') :
    ∃ after, ListHead.listAdd (.page i) (.area o) links = some after ∧
      Rings after (Function.update lists o (i :: lists o)) := by
  have hnew : Node.page i ∉ Node.area o :: (lists o).map .page := fun hm =>
    hfree o (page_mem.mp hm)
  obtain ⟨after, hadd, hring, hother⟩ := listAdd_ring (h.ring o ho) hnew
  have hlists : ∀ {o' j}, j ∈ Function.update lists o (i :: lists o) o' ↔
      j ∈ lists o' ∨ o' = o ∧ j = i := fun {o' j} => by
    by_cases he : o' = o
    · subst he
      simp [or_comm]
    · simp [he]
  refine ⟨after, hadd, fun o' ho' => ?_, fun o' j hj => ?_, fun o' o'' j hj hj' => ?_,
    fun j hj hno => ?_⟩
  · by_cases he : o' = o
    · subst he
      rwa [Function.update_self]
    · rw [Function.update_of_ne he]
      have hsame : ∀ x ∈ Node.area o' :: (lists o').map .page, after.next x = links.next x ∧
          after.prev x = links.prev x := fun x hx => hother x (h.disjoint he hx) fun hxi =>
        hfree o' (page_mem.mp (hxi ▸ hx))
      exact (h.ring o' ho').congr (fun x hx => (hsame x hx).1) fun x hx => (hsame x hx).2
  · rcases hlists.mp hj with hj | ⟨rfl, rfl⟩
    · exact h.range o' j hj
    · exact ⟨ho, hi⟩
  · rcases hlists.mp hj with hm | ⟨h1, rfl⟩
    · rcases hlists.mp hj' with hm' | ⟨-, rfl⟩
      · exact h.apart o' o'' j hm hm'
      · exact absurd hm (hfree o')
    · rcases hlists.mp hj' with hm' | ⟨h2, -⟩
      · exact absurd hm' (hfree o'')
      · exact h1.trans h2.symm
  · have hji : j ≠ i := fun he => hno o (hlists.mpr (Or.inr ⟨rfl, he⟩))
    have hold : ∀ o', j ∉ lists o' := fun o' hm => hno o' (hlists.mpr (Or.inl hm))
    obtain ⟨h1, h2⟩ := hother (.page j) (fun hm => hold o (page_mem.mp hm))
      fun he => hji (Node.page.inj he)
    rw [h1, h2]
    exact h.alone j hj hold

/-- **`list_del_init` of a page that is on a ring.** -/
theorem del (h : Rings links lists) (hi : i ∈ lists o) :
    ∃ after, ListHead.listDelInit (.page i) links = some after ∧
      Rings after (Function.update lists o ((lists o).erase i)) := by
  obtain ⟨ho, -⟩ := h.range o i hi
  obtain ⟨l₁, l₂, hnot, hl, herase⟩ := List.exists_erase_eq hi
  have hring := h.ring o ho
  rw [hl, List.map_append, List.map_cons] at hring
  obtain ⟨after, hdel, hring', halone, hother⟩ := listDelInit_ring hring
  have hother' : ∀ x ∉ Node.area o :: (lists o).map .page, after.next x = links.next x ∧
      after.prev x = links.prev x := by
    rw [hl, List.map_append, List.map_cons]
    exact hother
  have hlists : ∀ {o' j}, j ∈ Function.update lists o ((lists o).erase i) o' ↔
      j ∈ lists o' ∧ j ≠ i := fun {o' j} => by
    by_cases he : o' = o
    · subst he
      rw [Function.update_self, (h.nodup o').mem_erase_iff, and_comm]
    · rw [Function.update_of_ne he]
      exact (and_iff_left_of_imp fun hj => by
        rintro rfl
        exact he (h.apart o' o j hj hi)).symm
  refine ⟨after, hdel, fun o' ho' => ?_, fun o' j hj => h.range o' j (hlists.mp hj).1,
    fun o' o'' j hj hj' => h.apart o' o'' j (hlists.mp hj).1 (hlists.mp hj').1, fun j hj hno => ?_⟩
  · by_cases he : o' = o
    · subst he
      rw [Function.update_self, herase, List.map_append]
      exact hring'
    · rw [Function.update_of_ne he]
      exact (h.ring o' ho').congr (fun x hx => (hother' x (h.disjoint he hx)).1)
        fun x hx => (hother' x (h.disjoint he hx)).2
  · by_cases hji : j = i
    · rw [hji]
      exact ring_nil.mp halone
    · have hold : ∀ o', j ∉ lists o' := fun o' hm => hno o' (hlists.mpr ⟨hm, hji⟩)
      obtain ⟨h1, h2⟩ := hother' (.page j) fun hm => hold o (page_mem.mp hm)
      rw [h1, h2]
      exact h.alone j hj hold

theorem empty_iff (h : Rings links lists) (ho : Order o) :
    listEmpty (.area o) links = true ↔ lists o = [] := by
  rw [listEmpty_iff (h.ring o ho), List.map_eq_nil_iff]

/-- A ring has at most the nodes of all pages. -/
theorem length_le (h : Rings links lists) (o : ℕ) : (lists o).length ≤ nPages := by
  have hsub : lists o ⊆ List.range nPages := fun i hi => List.mem_range.mpr (h.range o i hi).2
  have hle := ((h.nodup o).subperm hsub).length_le
  rwa [List.length_range] at hle

/-- **Each traversal comes to its end.** -/
theorem forEach (h : Rings links lists) (ho : Order o) {n : ℕ} (hn : nPages < n) :
    listForEach (.area o) links n (links.next (.area o)) = some ((lists o).map .page) := by
  refine listForEach_ring (h.ring o ho) ?_
  rw [List.length_map]
  exact (h.length_le o).trans_lt hn

end Rings

/-! ### The rings of `buddy_init` -/

/-- After the two loops of `buddy_init` each node points to itself. -/
theorem init_rings (links : Links Node) : Rings
    ((List.range' minOrder (maxOrder + 1 - minOrder)).foldl (fun l o => initListHead (.area o) l)
      ((List.range nPages).foldl (fun l i => initListHead (.page i) l) links)) fun _ => [] := by
  refine ⟨fun o ho => ?_, fun o i hi => absurd hi List.not_mem_nil,
    fun o o' i hi => absurd hi List.not_mem_nil, fun i hi _ => ?_⟩
  · refine foldl_initListHead Node.area (Or.inr (List.mem_map_of_mem ?_))
    rw [List.mem_range'_1]
    obtain ⟨h1, h2⟩ := ho
    exact ⟨h1, by omega⟩
  · refine ring_nil.mp (foldl_initListHead Node.area (Or.inl ?_))
    exact foldl_initListHead Node.page (Or.inr (List.mem_map_of_mem (List.mem_range.mpr hi)))

end Eecs678.Buddy.FreeRings
