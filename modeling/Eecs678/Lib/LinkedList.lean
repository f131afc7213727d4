import Mathlib.Data.List.Nodup
import Mathlib.Logic.Function.Basic

/-!
# Singly linked lists in memory

A memory gives the node at an address, if there is one. `Seg mem p l q` says that from the pointer `p`
the nodes lead, in the order of `l`, to the pointer `q`; each entry of `l` is an address and the item
there. `Seg.relink` and `Seg.congr` are the two ways in which a segment meets a write: at its last node,
and elsewhere. A loop over a list has a cursor in it (`At`), which can go on (`At.next`), insert
(`At.insert`) and remove (`At.remove`).
-/

namespace Eecs678.Lib.LinkedList

variable {A α : Type}

structure Node (A α : Type) where
  item : α
  next : Option A

/-- The nodes that are allocated. -/
abbrev Mem (A α : Type) : Type := A → Option (Node A α)

/-- The nodes from `p` to `q`. -/
def Seg (mem : Mem A α) : Option A → List (A × α) → Option A → Prop
  | p, [], q => p = q
  | p, (a, x) :: l, q => p = some a ∧ ∃ next, mem a = some ⟨x, next⟩ ∧ Seg mem next l q

/-- The addresses of a segment. -/
abbrev addrs (l : List (A × α)) : List A := l.map Prod.fst

/-- The items of a segment. -/
abbrev items (l : List (A × α)) : List α := l.map Prod.snd

/-- The pointer to the last node of a segment. -/
def lastAddr (l : List (A × α)) : Option A := l.getLast?.map Prod.fst

/-- A whole list, whose nodes are different. -/
structure Chain (mem : Mem A α) (top : Option A) (l : List (A × α)) : Prop where
  seg : Seg mem top l none
  nodup : (addrs l).Nodup

variable {mem mem' : Mem A α} {p q r : Option A} {l l' : List (A × α)} {a : A} {x : α}

theorem chain_nil : Chain (α := α) mem none [] := ⟨rfl, List.nodup_nil⟩

theorem Seg.append : ∀ {l : List (A × α)} {p : Option A},
    Seg mem p (l ++ l') q ↔ ∃ r, Seg mem p l r ∧ Seg mem r l' q
  | [], p => by
    constructor
    · intro h
      exact ⟨p, rfl, h⟩
    · rintro ⟨r, rfl, h⟩
      exact h
  | (a, x) :: l, p => by
    constructor
    · rintro ⟨hp, next, hn, h⟩
      obtain ⟨r, h1, h2⟩ := Seg.append.mp h
      exact ⟨r, ⟨hp, next, hn, h1⟩, h2⟩
    · rintro ⟨r, ⟨hp, next, hn, h1⟩, h2⟩
      exact ⟨hp, next, hn, Seg.append.mpr ⟨r, h1, h2⟩⟩

/-- A segment does not see what is written elsewhere. -/
theorem Seg.congr : ∀ {l : List (A × α)} {p : Option A}, (∀ a ∈ addrs l, mem' a = mem a) →
    Seg mem p l q → Seg mem' p l q
  | [], p, _, h => h
  | (a, x) :: l, p, heq, ⟨hp, next, hn, h⟩ => by
    refine ⟨hp, next, ?_, Seg.congr (fun b hb => heq b (List.mem_cons_of_mem _ hb)) h⟩
    rw [heq a (List.mem_cons_self ..), hn]

/-- The addresses of a segment are allocated. -/
theorem Seg.allocated : ∀ {l : List (A × α)} {p : Option A}, Seg mem p l q →
    ∀ b ∈ addrs l, mem b ≠ none
  | [], p, _, b, hb => absurd hb List.not_mem_nil
  | (a, x) :: l, p, ⟨_, next, hn, h⟩, b, hb => by
    rcases List.mem_cons.mp hb with rfl | hb
    · rw [hn]
      exact Option.some_ne_none _
    · exact h.allocated b hb

theorem Seg.not_mem (h : Seg mem p l q) (ha : mem a = none) : a ∉ addrs l :=
  fun hm => h.allocated a hm ha

/-! ### Cursors -/

/-- A cursor: `t` points to the node after `pre`, and from there the rest is `l`. -/
structure At (mem : Mem A α) (top : Option A) (pre : List (A × α)) (t : Option A)
    (l : List (A × α)) : Prop where
  before : Seg mem top pre t
  after : Seg mem t l none
  nodup : (addrs (pre ++ l)).Nodup

variable {top t : Option A} {pre : List (A × α)}

theorem Chain.at_start (h : Chain mem top l) : At mem top [] top l := ⟨rfl, h.seg, h.nodup⟩

theorem At.chain (h : At mem top pre t l) : Chain mem top (pre ++ l) :=
  ⟨Seg.append.mpr ⟨t, h.before, h.after⟩, h.nodup⟩

theorem Chain.at (h : Chain mem top (pre ++ l)) : ∃ t, At mem top pre t l := by
  obtain ⟨t, h1, h2⟩ := Seg.append.mp h.seg
  exact ⟨t, h1, h2, h.nodup⟩

theorem At.nodup_pre (h : At mem top pre t l) : (addrs pre).Nodup := by
  have hnd := h.nodup
  rw [addrs, List.map_append] at hnd
  exact (List.nodup_append.mp hnd).1

theorem At.disjoint (h : At mem top pre t l) : ∀ b ∈ addrs pre, b ∉ addrs l := by
  have hnd := h.nodup
  rw [addrs, List.map_append] at hnd
  exact fun b hb hb' => (List.nodup_append.mp hnd).2.2 b hb b hb' rfl

/-- **The cursor goes on.** -/
theorem At.next (h : At mem top pre t ((a, x) :: l)) :
    ∃ next, t = some a ∧ mem a = some ⟨x, next⟩ ∧ At mem top (pre ++ [(a, x)]) next l := by
  obtain ⟨ht, next, hn, hl⟩ := h.after
  refine ⟨next, ht, hn, ⟨Seg.append.mpr ⟨t, h.before, ht, next, hn, rfl⟩, hl, ?_⟩⟩
  rw [List.append_assoc]
  exact h.nodup

/-- The cursor is at the top only at the start. -/
theorem At.top_iff (h : At mem top pre (some a) ((a, x) :: l)) : some a = top ↔ pre = [] := by
  constructor
  · intro htop
    rcases pre with _ | ⟨⟨b, y⟩, pre⟩
    · rfl
    · have hb : top = some b := h.before.1
      rw [hb, Option.some.injEq] at htop
      exact absurd (List.mem_cons_self ..) (htop ▸ h.disjoint b (List.mem_cons_self ..))
  · rintro rfl
    exact h.before.symm

theorem lastAddr_append (l : List (A × α)) (a : A) (x : α) : lastAddr (l ++ [(a, x)]) = some a := by
  simp [lastAddr]

variable [DecidableEq A]

/-! ### Writes -/

/-- `node->next = q`. -/
def setNext (a : A) (q : Option A) (mem : Mem A α) : Mem A α :=
  Function.update mem a ((mem a).map fun node => { node with next := q })

/-- A new node. -/
def newNode (a : A) (x : α) (q : Option A) (mem : Mem A α) : Mem A α :=
  Function.update mem a (some ⟨x, q⟩)

/-- `free(node)`. -/
def free (a : A) (mem : Mem A α) : Mem A α := Function.update mem a none

theorem Seg.update_of_not_mem {b : A} (h : Seg mem p l q) (hb : b ∉ addrs l)
    (node : Option (Node A α)) : Seg (Function.update mem b node) p l q := by
  refine h.congr fun c hc => Function.update_of_ne ?_ _ _
  rintro rfl
  exact hb hc

/-- **The last node of a segment leads to another pointer.** -/
theorem Seg.relink (h : Seg mem p (l ++ [(a, x)]) q) (ha : a ∉ addrs l) (r : Option A) :
    Seg (setNext a r mem) p (l ++ [(a, x)]) r := by
  obtain ⟨s, hl, hs, next, hn, -⟩ := Seg.append.mp h
  refine Seg.append.mpr ⟨s, hl.update_of_not_mem ha _, hs, r, ?_, rfl⟩
  rw [setNext, Function.update_self, hn]
  rfl

/-! ### Insertion and removal between two segments -/

/-- The pointer to the first node, or to the one after `prev`, is changed to `r`. -/
def link (prev : Option A) (r : Option A) (top : Option A) (mem : Mem A α) : Option A × Mem A α :=
  match prev with
  | none => (r, mem)
  | some b => (top, setNext b r mem)

/-- **After `link` the first segment leads to `r`.** -/
theorem Seg.link (h : Seg mem p l q) (hnd : (addrs l).Nodup) (r : Option A) :
    Seg (link (lastAddr l) r p mem).2 (link (lastAddr l) r p mem).1 l r := by
  rcases List.eq_nil_or_concat' l with rfl | ⟨l, ⟨b, y⟩, rfl⟩
  · rfl
  · have hb : b ∉ addrs l := by
      rw [addrs, List.map_append, List.nodup_append] at hnd
      exact fun hm => hnd.2.2 b hm b (List.mem_singleton_self b) rfl
    rw [lastAddr_append]
    exact h.relink hb r

/-- `link` leaves other nodes alone. -/
theorem link_of_not_mem (ha : a ∉ addrs l) : (link (lastAddr l) r p mem).2 a = mem a := by
  rcases List.eq_nil_or_concat' l with rfl | ⟨l, ⟨b, y⟩, rfl⟩
  · rfl
  · have hne : a ≠ b := by
      rintro rfl
      exact ha (by simp)
    rw [lastAddr_append]
    exact Function.update_of_ne hne _ _

/-- `link` leaves other segments alone. -/
theorem Seg.link_of_disjoint {s : Option A} {top : Option A} (h : Seg mem r l' s)
    (hd : ∀ b ∈ addrs l, b ∉ addrs l') :
    Seg (LinkedList.link (lastAddr l) q top mem).2 r l' s := by
  rcases List.eq_nil_or_concat' l with rfl | ⟨l, ⟨b, y⟩, rfl⟩
  · exact h
  · have hlast : lastAddr (l ++ [(b, y)]) = some b := by simp [lastAddr]
    rw [hlast]
    exact h.update_of_not_mem (hd b (by simp)) _

/-- **Insertion at the cursor.** -/
theorem At.insert {new : A} (h : At mem top pre t l) (hnew : mem new = none) (x : α) :
    Chain (LinkedList.link (lastAddr pre) (some new) top (newNode new x t mem)).2
      (LinkedList.link (lastAddr pre) (some new) top (newNode new x t mem)).1
      (pre ++ (new, x) :: l) := by
  have hpre := h.before.not_mem hnew
  have hl := h.after.not_mem hnew
  have hseg : Seg (newNode new x t mem) (some new) ((new, x) :: l) none :=
    ⟨rfl, t, Function.update_self .., h.after.update_of_not_mem hl _⟩
  have hdisj : ∀ b ∈ addrs pre, b ∉ addrs ((new, x) :: l) := by
    intro b hb hb'
    rcases List.mem_cons.mp hb' with rfl | hb'
    · exact hpre hb
    · exact h.disjoint b hb hb'
  refine ⟨Seg.append.mpr ⟨some new, (h.before.update_of_not_mem hpre _).link h.nodup_pre _,
    hseg.link_of_disjoint hdisj⟩, ?_⟩
  have hnd := h.nodup
  rw [addrs, List.map_append] at hnd ⊢
  rw [List.map_cons, List.nodup_middle, List.nodup_cons, List.mem_append, not_or]
  exact ⟨⟨hpre, hl⟩, hnd⟩

/-- **Removal at the cursor**, which is then at the node after it. -/
theorem At.remove {next : Option A} (h : At mem top pre (some a) ((a, x) :: l))
    (ha : mem a = some ⟨x, next⟩) :
    At (free a (link (lastAddr pre) next top mem).2) (link (lastAddr pre) next top mem).1
      pre next l := by
  obtain ⟨-, next', hn, hl⟩ := h.after
  obtain rfl : next' = next := by
    rw [ha] at hn
    cases hn
    rfl
  have hdisj := h.disjoint
  have hnd := h.nodup
  rw [addrs, List.map_append, List.map_cons, List.nodup_middle, List.nodup_cons, List.mem_append,
    not_or] at hnd
  refine ⟨((h.before.link h.nodup_pre _).update_of_not_mem hnd.1.1 _),
    (hl.link_of_disjoint fun b hb hb' => hdisj b hb (List.mem_cons_of_mem _ hb')).update_of_not_mem
      hnd.1.2 _, ?_⟩
  rw [addrs, List.map_append]
  exact hnd.2

end Eecs678.Lib.LinkedList
