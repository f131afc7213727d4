import Mathlib.Data.List.Chain
import Mathlib.Data.List.Nodup
import Mathlib.Logic.Function.Basic

/-!
# Doubly linked rings

A memory gives each node its `next` and its `prev` pointer. `Ring m head l`: from `head` the `next` pointers
lead through the nodes of `l`, in this order, back to `head`, and the `prev` pointers lead the other way. A
node that points to itself both ways is a ring of its own. A ring grows by `Ring.insert`, shrinks by
`Ring.remove`, and does not see what is written elsewhere (`Ring.congr`).
-/

namespace Eecs678.Lib.LinkedRing

variable {A : Type}

/-- The pointers of all nodes; `none` is `NULL`. -/
structure Links (A : Type) where
  next : A → Option A
  prev : A → Option A

/-- Two nodes that point to each other. -/
def Linked (m : Links A) (x y : A) : Prop := m.next x = some y ∧ m.prev y = some x

/-- The ring of `head` and the nodes of `l`. -/
structure Ring (m : Links A) (head : A) (l : List A) : Prop where
  chain : (head :: (l ++ [head])).IsChain (Linked m)
  nodup : (head :: l).Nodup

variable {m m' : Links A} {head new e a b : A} {l l₁ l₂ : List A}

theorem ring_nil : Ring m a [] ↔ m.next a = some a ∧ m.prev a = some a :=
  ⟨fun h => (List.isChain_cons_cons.mp h.chain).1, fun h =>
    ⟨List.isChain_cons_cons.mpr ⟨h, List.isChain_singleton a⟩, List.nodup_singleton a⟩⟩

/-- A chain reads `next` of all nodes but the last one, and `prev` of all but the first one. -/
theorem chain_congr : ∀ {l : List A}, l.IsChain (Linked m) →
    (∀ x ∈ l.dropLast, m'.next x = m.next x) → (∀ x ∈ l.tail, m'.prev x = m.prev x) →
      l.IsChain (Linked m')
  | [], _, _, _ => List.isChain_nil
  | [a], _, _, _ => List.isChain_singleton a
  | a :: b :: l, h, hn, hp => by
    obtain ⟨⟨h1, h2⟩, hl⟩ := List.isChain_cons_cons.mp h
    refine List.isChain_cons_cons.mpr ⟨⟨?_, ?_⟩, ?_⟩
    · rw [hn a (by simp), h1]
    · rw [hp b (by simp), h2]
    · refine chain_congr hl (fun x hx => hn x ?_) fun x hx => hp x (List.mem_cons_of_mem b hx)
      rw [List.dropLast_cons_of_ne_nil (List.cons_ne_nil b l)]
      exact List.mem_cons_of_mem a hx

/-- **A ring does not see what is written elsewhere.** -/
theorem Ring.congr (h : Ring m head l) (hn : ∀ x ∈ head :: l, m'.next x = m.next x)
    (hp : ∀ x ∈ head :: l, m'.prev x = m.prev x) : Ring m' head l := by
  refine ⟨chain_congr h.chain (fun x hx => hn x ?_) fun x hx => hp x ?_, h.nodup⟩
  · rwa [← List.cons_append, List.dropLast_concat] at hx
  · exact (List.perm_append_singleton head l).mem_iff.mp hx

/-! ### Reading -/

theorem chain_cons_iff {R : A → A → Prop} : (b :: (l ++ [a])).IsChain R ↔
    R b (l.headD a) ∧ (l ++ [a]).IsChain R := by
  cases l with
  | nil => exact List.isChain_cons_cons
  | cons c l => exact List.isChain_cons_cons

theorem Ring.next_head (h : Ring m head l) : m.next head = some (l.headD head) :=
  (chain_cons_iff.mp h.chain).1.1

/-- **Each member of a ring can be its head.** -/
theorem Ring.rotate (h : Ring m head (l₁ ++ a :: l₂)) : Ring m a (l₂ ++ head :: l₁) := by
  have hc := h.chain
  rw [List.append_assoc, List.cons_append, ← List.cons_append, List.isChain_split] at hc
  refine ⟨?_, ?_⟩
  · rw [List.append_assoc, List.cons_append, ← List.cons_append, List.isChain_split]
    exact ⟨hc.2, hc.1⟩
  · have hperm : (a :: l₂ ++ head :: l₁).Perm (head :: l₁ ++ a :: l₂) := List.perm_append_comm
    exact hperm.nodup_iff.mpr h.nodup

theorem headD_mem (l : List A) (a : A) : l.headD a ∈ a :: l := by
  cases l with
  | nil => exact List.mem_cons_self ..
  | cons b l => exact List.mem_cons_of_mem a (List.mem_cons_self ..)

/-- Behind the head: only `prev` of the first node is read from the head. -/
theorem rest_congr (hc : (l ++ [a]).IsChain (Linked m)) (hnd : (a :: l).Nodup)
    (hn : ∀ x ∈ l, m'.next x = m.next x)
    (hp : ∀ x ∈ a :: l, x ≠ l.headD a → m'.prev x = m.prev x) : (l ++ [a]).IsChain (Linked m') := by
  refine chain_congr hc (fun x hx => hn x ?_) fun x hx => hp x ?_ ?_
  · rwa [List.dropLast_concat] at hx
  · exact (List.perm_append_singleton a l).mem_iff.mp (List.mem_of_mem_tail hx)
  · have hnd' : (l ++ [a]).Nodup := (List.perm_append_singleton a l).nodup_iff.mpr hnd
    cases l with
    | nil => simp at hx
    | cons b l =>
      rintro rfl
      exact (List.nodup_cons.mp hnd').1 hx

variable [DecidableEq A]

/-! ### Writes -/

def setNext (a : A) (p : Option A) (m : Links A) : Links A := { m with next := Function.update m.next a p }

def setPrev (a : A) (p : Option A) (m : Links A) : Links A := { m with prev := Function.update m.prev a p }

@[simp] theorem setNext_next (a x : A) (p : Option A) (m : Links A) :
    (setNext a p m).next x = if x = a then p else m.next x := Function.update_apply ..

@[simp] theorem setNext_prev (a : A) (p : Option A) (m : Links A) : (setNext a p m).prev = m.prev := rfl

@[simp] theorem setPrev_next (a : A) (p : Option A) (m : Links A) : (setPrev a p m).next = m.next := rfl

@[simp] theorem setPrev_prev (a x : A) (p : Option A) (m : Links A) :
    (setPrev a p m).prev x = if x = a then p else m.prev x := Function.update_apply ..

/-- A node points to itself. -/
def setAlone (a : A) (m : Links A) : Links A := setPrev a (some a) (setNext a (some a) m)

/-- A node is put between two others. -/
def insert (new a b : A) (m : Links A) : Links A :=
  setNext a (some new) (setPrev new (some a) (setNext new (some b) (setPrev b (some new) m)))

/-- What is between two nodes is left out. -/
def unlink (a b : A) (m : Links A) : Links A := setNext a (some b) (setPrev b (some a) m)

theorem insert_other {x : A} (hn : x ≠ new) (ha : x ≠ a) (hb : x ≠ b) :
    (insert new a b m).next x = m.next x ∧ (insert new a b m).prev x = m.prev x := by
  constructor <;> simp [insert, hn, ha, hb]

theorem unlink_other {x : A} (he : x ≠ e) (ha : x ≠ a) (hb : x ≠ b) :
    (setAlone e (unlink a b m)).next x = m.next x ∧ (setAlone e (unlink a b m)).prev x = m.prev x := by
  constructor <;> simp [setAlone, unlink, he, ha, hb]

theorem ring_setAlone (a : A) (m : Links A) : Ring (setAlone a m) a [] :=
  ring_nil.mpr ⟨by simp [setAlone], by simp [setAlone]⟩

/-- **A node is put behind the head.** -/
theorem Ring.insert (h : Ring m a l) (hb : m.next a = some b) (hnew : new ∉ a :: l) :
    Ring (insert new a b m) a (new :: l) := by
  obtain ⟨hne, hnl⟩ := not_or.mp (mt List.mem_cons.mpr hnew)
  obtain ⟨ha, hnd⟩ := List.nodup_cons.mp h.nodup
  have hfirst : l.headD a = b := Option.some.inj (h.next_head.symm.trans hb)
  have hbn : b ≠ new := fun he => hnew (he ▸ hfirst ▸ headD_mem l a)
  refine ⟨?_, ?_⟩
  · rw [List.cons_append, List.isChain_cons_cons, chain_cons_iff, hfirst]
    refine ⟨⟨?_, ?_⟩, ⟨?_, ?_⟩, rest_congr (chain_cons_iff.mp h.chain).2 h.nodup (fun x hx => ?_)
      fun x hx hxb => ?_⟩
    · simp [LinkedRing.insert]
    · simp [LinkedRing.insert]
    · simp [LinkedRing.insert, hne]
    · simp [LinkedRing.insert, hbn]
    · have h1 : x ≠ a := fun he => ha (he ▸ hx)
      have h2 : x ≠ new := fun he => hnl (he ▸ hx)
      simp [LinkedRing.insert, h1, h2]
    · have h1 : x ≠ new := fun he => hnew (he ▸ hx)
      have h2 : x ≠ b := hfirst ▸ hxb
      simp [LinkedRing.insert, h1, h2]
  · rw [List.nodup_cons, List.mem_cons, not_or, List.nodup_cons]
    exact ⟨⟨Ne.symm hne, ha⟩, hnl, hnd⟩

/-- The node behind the head is left out. -/
theorem Ring.pop (h : Ring m a (e :: l)) (hb : m.next e = some b) :
    Ring (setAlone e (unlink a b m)) a l := by
  obtain ⟨hae, hnd⟩ := List.nodup_cons.mp h.nodup
  obtain ⟨he, hl⟩ := List.nodup_cons.mp hnd
  obtain ⟨hne, ha⟩ := not_or.mp (mt List.mem_cons.mpr hae)
  obtain ⟨⟨h1, -⟩, hc⟩ := chain_cons_iff.mp (List.isChain_cons_cons.mp h.chain).2
  have hfirst : l.headD a = b := Option.some.inj (h1.symm.trans hb)
  have hmem : ∀ x ∈ a :: l, x ≠ e := by
    rintro x hx rfl
    rcases List.mem_cons.mp hx with hxa | hxl
    · exact hne hxa.symm
    · exact he hxl
  have hbe : b ≠ e := hmem b (hfirst ▸ headD_mem l a)
  have hnd' : (a :: l).Nodup := List.nodup_cons.mpr ⟨ha, hl⟩
  refine ⟨chain_cons_iff.mpr ⟨⟨?_, ?_⟩, rest_congr hc hnd' (fun x hx => ?_) fun x hx hxb => ?_⟩, hnd'⟩
  · rw [hfirst]
    simp [setAlone, unlink, hne]
  · rw [hfirst]
    simp [setAlone, unlink, hbe]
  · have h2 : x ≠ a := fun hxa => ha (hxa ▸ hx)
    simp [setAlone, unlink, h2, hmem x (List.mem_cons_of_mem a hx)]
  · have h2 : x ≠ b := hfirst ▸ hxb
    simp [setAlone, unlink, h2, hmem x hx]

/-- **A member is left out of its ring.** -/
theorem Ring.remove (h : Ring m head (l₁ ++ e :: l₂)) : ∃ a b, m.prev e = some a ∧ m.next e = some b ∧
    a ∈ head :: l₁ ∧ b ∈ head :: l₂ ∧ Ring (setAlone e (unlink a b m)) head (l₁ ++ l₂) := by
  obtain ⟨b, hb, hmem⟩ : ∃ b, m.next e = some b ∧ b ∈ head :: l₂ := by
    refine ⟨l₂.headD head, ?_, headD_mem l₂ head⟩
    have hnext := h.rotate.next_head
    cases l₂ with
    | nil => exact hnext
    | cons => exact hnext
  rcases List.eq_nil_or_concat' l₁ with rfl | ⟨l, a, rfl⟩
  · exact ⟨head, b, (List.isChain_cons_cons.mp h.chain).1.2, hb, List.mem_cons_self .., hmem, h.pop hb⟩
  · -- the node before it is made the head
    rw [List.append_assoc, List.singleton_append] at h
    have hr : Ring m a (e :: (l₂ ++ head :: l)) := h.rotate
    have hpop := (hr.pop hb).rotate
    refine ⟨a, b, (List.isChain_cons_cons.mp hr.chain).1.2, hb, by simp, hmem, ?_⟩
    rwa [List.append_assoc, List.singleton_append]

end Eecs678.Lib.LinkedRing
