import Eecs678.Quash.PoolModel
import Eecs678.Quash.DequeRefines

/-!
# The ranges of the memory pool

The pools in the deque lie in blocks that are apart, and each `next` stays inside its pool (`Layout`).
Between calls the last pool is a real one, and what was handed out lies below `next` of the pools
(`Inv`). `pool_ranges` says that a request is then answered with a range of its own, or ends the program,
exactly when `pool.next - pool.pool + size` does not wrap.
-/

namespace Eecs678.Quash.PoolRanges

open Eecs678.Lib.Spans Eecs678.Quash.DequeModel Eecs678.Quash.DequeRefines Eecs678.Quash.PoolModel

variable (mem : Memory) {s s' : Pools} {l : List MemoryPool} {ranges : List Span} {p : MemoryPool}

/-! ### Making a pool -/

/-- A new pool was made in a block of its own. -/
structure Obtained (p : MemoryPool) (s s' : Pools) : Prop where
  fresh : Fresh ⟨p.pool, p.size⟩ s.blocks
  blocks : s'.blocks = ⟨p.pool, p.size⟩ :: s.blocks
  next : p.next = p.pool
  size_pos : 0 < p.size
  poolDeq : s'.poolDeq = s.poolDeq

/-- Only the number of calls changed. -/
def Untouched (s s' : Pools) : Prop := s'.blocks = s.blocks ∧ s'.poolDeq = s.poolDeq

theorem Obtained.of_untouched {s₁ : Pools} (h : Obtained p s₁ s') (hu : Untouched s s₁) :
    Obtained p s s' :=
  ⟨hu.1 ▸ h.fresh, hu.1 ▸ h.blocks, h.next, h.size_pos, h.poolDeq.trans hu.2⟩

theorem initializePool_spec {size : ℕ} (hs : 0 < size) (s : Pools) :
    ((initializePool mem size s).1.pool = 0 ∧ Untouched s (initializePool mem size s).2) ∨
      (Obtained (initializePool mem size s).1 s (initializePool mem size s).2 ∧
        (initializePool mem size s).1.size = size) := by
  by_cases hf : Fresh ⟨mem.answers s.calls, size⟩ s.blocks
  · have he : initializePool mem size s = (⟨mem.answers s.calls, size, mem.answers s.calls⟩,
        { s with calls := s.calls + 1, blocks := ⟨mem.answers s.calls, size⟩ :: s.blocks }) := by
      have hb : mem.answers s.calls ≠ 0 := hf.1.ne'
      unfold initializePool malloc
      simp only [if_neg hs.ne', if_pos hf, if_neg hb]
    rw [he]
    exact Or.inr ⟨⟨hf, rfl, rfl, hs, rfl⟩, rfl⟩
  · have he : initializePool mem size s = (⟨0, 0, 0⟩, { s with calls := s.calls + 1 }) := by
      unfold initializePool malloc
      simp only [if_neg hs.ne', if_neg hf, if_true]
    rw [he]
    exact Or.inl ⟨rfl, rfl, rfl⟩

/-- **Low memory**: a pool of at least the required size, or the end of the program. -/
theorem lowMemoryLoop_spec {required : ℕ} (hr : 0 < required) : ∀ (n : ℕ) {failed : ℕ} (s : Pools),
    (failed ≤ required ∨ failed < 2 ^ n) →
      lowMemoryLoop mem required (n + 1) failed s = .error .exit ∨
        ∃ p s', lowMemoryLoop mem required (n + 1) failed s = .ok (p, s') ∧ Obtained p s s' ∧
          required ≤ p.size
  | 0, failed, s, h => by
    left
    unfold lowMemoryLoop
    rw [if_pos (by omega)]
  | n + 1, failed, s, h => by
    unfold lowMemoryLoop
    by_cases hle : failed ≤ required
    · rw [if_pos hle]
      exact Or.inl rfl
    · rw [if_neg hle]
      simp only
      have hreq : required ≤ if failed / 2 < required then required else failed / 2 := by
        split_ifs <;> omega
      have hnext : (if failed / 2 < required then required else failed / 2) ≤ required ∨
          (if failed / 2 < required then required else failed / 2) < 2 ^ n := by
        have hpow : 2 ^ (n + 1) = 2 * 2 ^ n := pow_succ' 2 n
        split_ifs <;> omega
      generalize (if failed / 2 < required then required else failed / 2) = request at hreq hnext ⊢
      rcases initializePool_spec mem (show 0 < request by omega) s with ⟨h0, hu⟩ | ⟨ho, hsize⟩
      · rw [if_neg (not_not.mpr h0)]
        rcases lowMemoryLoop_spec hr n (initializePool mem request s).2 hnext with he | ⟨p, s', he, ho, hp⟩
        · exact Or.inl he
        · exact Or.inr ⟨p, s', he, ho.of_untouched hu, hp⟩
      · rw [if_pos ho.fresh.1.ne']
        exact Or.inr ⟨_, _, rfl, ho, hsize.symm ▸ hreq⟩

theorem obtainPool_spec {required size : ℕ} (hr : 0 < required) (hle : required ≤ size)
    (hs : size < 2 ^ 64) (s : Pools) : obtainPool mem required size s = .error .exit ∨
      ∃ p s', obtainPool mem required size s = .ok (p, s') ∧ Obtained p s s' ∧ required ≤ p.size := by
  unfold obtainPool
  simp only
  rcases initializePool_spec mem (show 0 < size by omega) s with ⟨h0, hu⟩ | ⟨ho, hsize⟩
  · rw [if_pos h0]
    rcases lowMemoryLoop_spec mem hr 64 (initializePool mem size s).2 (Or.inr hs) with
      he | ⟨p, s', he, ho, hp⟩
    · exact Or.inl he
    · exact Or.inr ⟨p, s', he, ho.of_untouched hu, hp⟩
  · rw [if_neg ho.fresh.1.ne']
    exact Or.inr ⟨_, _, rfl, ho, hsize.symm ▸ hle⟩

/-! ### The deque of pools -/

/-- Without the memory to grow, `push_back` ends the program. -/
theorem pushBack_cases {α : Type} {size : ℕ} (granted : Bool) {d : Deque α} {cells : List (Option α)}
    {l : List α} (h : Rep size d cells l) (hs : 0 < size) (hs' : size < 2 ^ 60) (a : α) :
    d.pushBack size granted a = .error .noMemory ∨
      ∃ d' cells', d.pushBack size granted a = .ok d' ∧ Rep size d' cells' (l ++ [a]) := by
  have hb : 2 * d.cap * size < 2 ^ 64 := by
    rcases h.bytes with h1 | h1
    · rw [h1]
      omega
    · rw [mul_assoc]
      omega
  by_cases hg : d.full → Served α size granted (2 * d.cap)
  · exact Or.inr (h.pushBack_spec hs a hg)
  · left
    obtain ⟨hfull, hno⟩ := Classical.not_imp.mp hg
    have hcap : sizeT (2 * d.cap) = 2 * d.cap := by
      have hc := h.cap_lt hs
      exact_mod_cast sizeT_natCast (show 2 * d.cap < 2 ^ 64 by omega)
    have hnone : alloc α size granted (2 * d.cap) = none := by
      by_contra hne
      exact hno ⟨hb, Option.isSome_iff_ne_none.mpr hne⟩
    unfold Deque.pushBack Deque.onPush
    rw [if_pos hfull, h.cells_eq]
    simp only [bind, Except.bind, hcap, hnone]

/-- **What the pools keep**: each is a placeholder or lies in a block, with `next` inside, and two of them
never meet. -/
structure Layout (s : Pools) (l : List MemoryPool) : Prop where
  rep : ∃ cells, Rep poolBytes s.poolDeq cells l
  block : ∀ b ∈ s.blocks, 0 < b.base ∧ b.stop < 2 ^ 64
  pools : ∀ p ∈ l, p = ⟨0, 0, 0⟩ ∨
    (⟨p.pool, p.size⟩ ∈ s.blocks ∧ 0 < p.size ∧ p.pool ≤ p.next ∧ p.next ≤ p.pool + p.size)
  apart : l.Pairwise fun p q => p.pool = 0 ∨ q.pool = 0 ∨ Apart ⟨p.pool, p.size⟩ ⟨q.pool, q.size⟩

namespace Layout

theorem real (h : Layout s l) (hp : p ∈ l) (h0 : p.pool ≠ 0) : ⟨p.pool, p.size⟩ ∈ s.blocks ∧
    0 < p.size ∧ p.pool ≤ p.next ∧ p.next ≤ p.pool + p.size := by
  rcases h.pools p hp with rfl | h
  · exact absurd rfl h0
  · exact h

theorem between (h : Layout s l) (hp : p ∈ l) : p.pool ≤ p.next ∧ p.next ≤ p.pool + p.size := by
  rcases h.pools p hp with rfl | h
  · exact ⟨le_rfl, le_rfl⟩
  · exact h.2.2

/-- A placeholder, or a pool just obtained, is pushed. -/
theorem push {s₁ : Pools} (h : Layout s l)
    (hp : (p = ⟨0, 0, 0⟩ ∧ s₁ = s) ∨ Obtained p s s₁) :
    pushPool mem p s₁ = .error (.deque .noMemory) ∨
      ∃ s', pushPool mem p s₁ = .ok s' ∧ Layout s' (l ++ [p]) := by
  have hdeq : s₁.poolDeq = s.poolDeq := by
    rcases hp with ⟨-, rfl⟩ | ho
    · rfl
    · exact ho.poolDeq
  obtain ⟨cells, hrep⟩ := h.rep
  unfold pushPool
  rw [hdeq]
  rcases pushBack_cases (mem.granted s₁.pushes) hrep (by decide) (by decide) p with
    he | ⟨d', cells', he, hrep'⟩
  · rw [he]
    exact Or.inl rfl
  · rw [he]
    refine Or.inr ⟨{ s₁ with poolDeq := d', pushes := s₁.pushes + 1 }, rfl, ⟨cells', hrep'⟩, ?_, ?_, ?_⟩
    · rcases hp with ⟨-, rfl⟩ | ho
      · exact h.block
      · intro b hb
        rcases List.mem_cons.mp (ho.blocks ▸ hb : b ∈ _ :: s.blocks) with rfl | hb
        · exact ⟨ho.fresh.1, ho.fresh.2.1⟩
        · exact h.block b hb
    · intro q hq
      rcases List.mem_append.mp hq with hq | hq
      · refine (h.pools q hq).imp_right fun hreal => ⟨?_, hreal.2⟩
        rcases hp with ⟨-, rfl⟩ | ho
        · exact hreal.1
        · exact ho.blocks ▸ List.mem_cons_of_mem _ hreal.1
      · rw [List.mem_singleton.mp hq]
        rcases hp with ⟨rfl, -⟩ | ho
        · exact Or.inl rfl
        · refine Or.inr ⟨ho.blocks ▸ List.mem_cons_self .., ho.size_pos, ho.next.ge, ?_⟩
          rw [ho.next]
          omega
    · refine List.pairwise_append.mpr ⟨h.apart, List.pairwise_singleton _ _, fun q hq p' hp' => ?_⟩
      rw [List.mem_singleton.mp hp']
      rcases hp with ⟨rfl, -⟩ | ho
      · exact Or.inr (Or.inl rfl)
      · rcases h.pools q hq with rfl | hreal
        · exact Or.inl rfl
        · exact Or.inr (Or.inr (ho.fresh.2.2 _ hreal.1).symm)

end Layout

/-! ### The loop -/

/-- No request of the loop from `length` pools on is large enough, until `2` is shifted too far. -/
def Hopeless (size initSize length : ℕ) : Prop :=
  ∀ k, length ≤ k → k ≤ 30 → sizeT (initSize * 2 ^ k) < size

theorem twoShifted_ok {n : ℕ} (h : 1 ≤ n) (h' : n ≤ 30) :
    twoShifted (sizeT (n - 1)) = .ok (2 ^ n) := by
  have hn : sizeT ((n : ℤ) - 1) = n - 1 := by
    unfold sizeT
    omega
  rw [twoShifted, hn, if_pos (by omega), ← pow_succ', Nat.sub_add_cancel h]

theorem twoShifted_error {n : ℕ} (h : 31 ≤ n) (h' : n < 2 ^ 63) :
    twoShifted (sizeT (n - 1)) = .error .shift := by
  have hn : sizeT ((n : ℤ) - 1) = n - 1 := by
    unfold sizeT
    omega
  rw [twoShifted, hn, if_neg (by omega)]

/-- A round makes a placeholder or a pool that is large enough. -/
theorem nextPool_spec {size newPoolSize : ℕ} (hs : 0 < size) (hn : newPoolSize < 2 ^ 64) (s : Pools) :
    nextPool mem size newPoolSize s = .error .exit ∨
      ∃ p s', nextPool mem size newPoolSize s = .ok (p, s') ∧
        ((p = ⟨0, 0, 0⟩ ∧ s' = s ∧ newPoolSize < size) ∨ (Obtained p s s' ∧ size ≤ p.size)) := by
  unfold nextPool
  split_ifs with hlt
  · exact Or.inr ⟨⟨0, 0, 0⟩, s, rfl, Or.inl ⟨rfl, rfl, hlt⟩⟩
  · rcases obtainPool_spec mem hs (not_lt.mp hlt) hn s with he | ⟨p, s', he, ho, hp⟩
    · exact Or.inl he
    · exact Or.inr ⟨p, s', he, Or.inr ⟨ho, hp⟩⟩

/-- The ways the program may end in a request. -/
inductive Ended (size initSize length : ℕ) : Halt → Prop
  | exit : Ended size initSize length .exit
  | noMemory : Ended size initSize length (.deque .noMemory)
  | shift : Hopeless size initSize length → Ended size initSize length .shift

theorem Ended.of_succ {size initSize length : ℕ} {e : Halt} (h : Ended size initSize (length + 1) e)
    (hlt : sizeT (initSize * 2 ^ length) < size) : Ended size initSize length e := by
  cases h with
  | exit => exact .exit
  | noMemory => exact .noMemory
  | shift hh =>
    refine .shift fun k hk hk' => ?_
    rcases Nat.eq_or_lt_of_le hk with rfl | hk
    · exact hlt
    · exact hh k hk hk'

/-- A pool with room ends the loop. -/
theorem allocLoop_room {size initSize n : ℕ} (h : ¬ p.size < sizeT (p.next - p.pool + size)) :
    allocLoop mem size initSize (n + 1) p s = .ok (p, s) := by
  rw [allocLoop, if_neg h]

/-- **The loop** ends with a last pool that has room, or ends the program. -/
theorem allocLoop_spec {size : ℕ} (initSize : ℕ) (hsz : size < 2 ^ 64) : ∀ (n : ℕ) {l : List MemoryPool}
    {p : MemoryPool} {s : Pools}, Layout s (l ++ [p]) → 31 ≤ n + (l ++ [p]).length →
      (p.pool ≠ 0 ∨ 0 < size) →
        (∃ e, allocLoop mem size initSize (n + 1) p s = .error e ∧
          Ended size initSize (l ++ [p]).length e) ∨
        ∃ l' p' s', allocLoop mem size initSize (n + 1) p s = .ok (p', s') ∧ Layout s' (l' ++ [p']) ∧
          p'.pool ≠ 0 ∧ sizeT (p'.next - p'.pool + size) ≤ p'.size ∧
            ((p' = p ∧ s' = s ∧ l' = l) ∨ (p'.next = p'.pool ∧ ∀ q ∈ l ++ [p], q ∈ l')) := by
  intro n l p s hlay hn hreal
  have hp : p ∈ l ++ [p] := List.mem_append_right _ (List.mem_singleton_self p)
  by_cases hroom : p.size < sizeT (p.next - p.pool + size)
  · obtain ⟨cells, hrep⟩ := hlay.rep
    have hlen := hrep.length_eq (by decide)
    have hlt : (l ++ [p]).length < 2 ^ 63 := hrep.length_lt.trans (hrep.cap_lt (by decide))
    have hpos : 1 ≤ (l ++ [p]).length := List.length_pos_of_mem hp
    -- an empty request has room everywhere
    have hsize : 0 < size := by
      obtain ⟨h1, h2⟩ := hlay.between hp
      rcases Nat.eq_zero_or_pos size with rfl | hs
      · have hu : sizeT ((p.next : ℤ) - p.pool + (0 : ℕ)) ≤ p.next - p.pool := by
          unfold sizeT
          omega
        omega
      · exact hs
    unfold allocLoop
    rw [if_pos hroom, hlen]
    by_cases h31 : 31 ≤ (l ++ [p]).length
    · left
      refine ⟨.shift, ?_, .shift fun k hk hk' => by omega⟩
      simp only [lift, bind, Except.bind, twoShifted_error h31 hlt]
    · simp only [lift, bind, Except.bind, twoShifted_ok hpos (by omega)]
      have hnew : sizeT ((initSize : ℤ) * ((2 ^ (l ++ [p]).length : ℕ) : ℤ)) < 2 ^ 64 := by
        unfold sizeT
        omega
      obtain ⟨m, rfl⟩ : ∃ m, n = m + 1 := ⟨n - 1, by omega⟩
      rcases nextPool_spec mem hsize hnew s with he | ⟨p₁, s₁, he, hp₁⟩
      · exact Or.inl ⟨.exit, by rw [he], .exit⟩
      · rw [he]
        have hpush := hlay.push mem (hp₁.imp (fun h => ⟨h.1, h.2.1⟩) fun h => h.1)
        simp only
        rcases hpush with hpush | ⟨s₂, hpush, hlay₂⟩
        · exact Or.inl ⟨_, by rw [hpush], .noMemory⟩
        · rw [hpush]
          rcases hp₁ with ⟨rfl, -, hsmall⟩ | ⟨ho, hle⟩
          · -- a placeholder makes the next request twice as large
            have hlen₂ : ((l ++ [p]) ++ [(⟨0, 0, 0⟩ : MemoryPool)]).length = (l ++ [p]).length + 1 :=
              List.length_append
            rcases allocLoop_spec initSize hsz m hlay₂ (by omega) (Or.inr hsize) with ⟨e, he, hend⟩ |
              ⟨l', p', s', he, hlay', h1, h2, h3⟩
            · rw [hlen₂] at hend
              exact Or.inl ⟨e, he, hend.of_succ (by exact_mod_cast hsmall)⟩
            · refine Or.inr ⟨l', p', s', he, hlay', h1, h2, Or.inr ?_⟩
              rcases h3 with ⟨rfl, -, -⟩ | ⟨h3, h4⟩
              · exact absurd rfl h1
              · exact ⟨h3, fun q hq => h4 q (List.mem_append_left _ hq)⟩
          · -- the pool just made has room
            have hu : sizeT ((p₁.next : ℤ) - p₁.pool + size) = size := by
              rw [ho.next]
              unfold sizeT
              omega
            refine Or.inr ⟨l ++ [p], p₁, s₂, allocLoop_room mem (by omega), hlay₂, ho.fresh.1.ne',
              by omega, Or.inr ⟨ho.next, fun q hq => hq⟩⟩
  · refine Or.inr ⟨l, p, s, allocLoop_room mem hroom, hlay, ?_, not_lt.mp hroom, Or.inl ⟨rfl, rfl, rfl⟩⟩
    rcases hlay.pools p hp with rfl | hreal'
    · rcases hreal with h0 | hs
      · exact h0
      · refine absurd ?_ hroom
        unfold sizeT
        simp only
        omega
    · exact (hlay.block _ hreal'.1).1.ne'

/-! ### Requests -/

/-- **What holds between calls**: the last pool is a real one, and the ranges handed out are apart and lie
below `next` of the pools. -/
structure Inv (s : Pools) (l : List MemoryPool) (p : MemoryPool) (ranges : List Span) : Prop where
  layout : Layout s (l ++ [p])
  back : p.pool ≠ 0
  inside : ∀ r ∈ ranges, ∃ q ∈ l ++ [p], q.pool ≠ 0 ∧ q.pool ≤ r.base ∧ r.stop ≤ q.next
  apart : ranges.Pairwise Apart

/-- The request does not wrap `pool.next - pool.pool + size` for the last pool. -/
def NoWrap (size : ℕ) (s : Pools) : Prop :=
  ∀ p, s.poolDeq.peekBack = .ok p → p.next - p.pool + size < 2 ^ 64

theorem noWrap_iff {size : ℕ} (h : s.poolDeq.peekBack = .ok p) :
    NoWrap size s ↔ p.next - p.pool + size < 2 ^ 64 := by
  refine ⟨fun hno => hno p h, fun hlt q hq => ?_⟩
  rw [h, Except.ok.injEq] at hq
  exact hq ▸ hlt

theorem peekBack_eq (h : Layout s (l ++ [p])) : s.poolDeq.peekBack = .ok p := by
  obtain ⟨cells, hrep⟩ := h.rep
  exact hrep.peekBack_eq (by decide)

/-- The initial size is the one of the first pool. -/
theorem peekFront_eq (h : Layout s (l ++ [p])) : ∃ first, s.poolDeq.peekFront = .ok first ∧
    (l ++ [p]).head? = some first := by
  obtain ⟨cells, hrep⟩ := h.rep
  cases hl : l ++ [p] with
  | nil => simp at hl
  | cons first t =>
    rw [hl] at hrep
    exact ⟨first, hrep.peekFront_eq, rfl⟩

/-- The record of the last pool is written back. -/
theorem Layout.update (h : Layout s (l ++ [p])) (p' : MemoryPool) (hpool : p'.pool = p.pool)
    (hsize : p'.size = p.size) (hnext : p'.pool ≤ p'.next ∧ p'.next ≤ p'.pool + p'.size)
    (h0 : p.pool ≠ 0) : ∃ d, s.poolDeq.updateBack p' = .ok d ∧
      Layout { s with poolDeq := d } (l ++ [p']) := by
  obtain ⟨cells, hrep⟩ := h.rep
  obtain ⟨d, cells', hd, hrep'⟩ := hrep.updateBack_spec (by decide) p'
  have hreal := h.real (List.mem_append_right _ (List.mem_singleton_self p)) h0
  refine ⟨d, hd, ⟨cells', hrep'⟩, h.block, fun q hq => ?_, ?_⟩
  · rcases List.mem_append.mp hq with hq | hq
    · exact h.pools q (List.mem_append_left _ hq)
    · rw [List.mem_singleton.mp hq]
      refine Or.inr ⟨?_, by omega, hnext⟩
      rw [hpool, hsize]
      exact hreal.1
  · obtain ⟨h1, -, h2⟩ := List.pairwise_append.mp h.apart
    refine List.pairwise_append.mpr ⟨h1, List.pairwise_singleton _ _, fun q hq q' hq' => ?_⟩
    rw [List.mem_singleton.mp hq', hpool, hsize]
    exact h2 q hq p (List.mem_singleton_self p)

/-- **The range taken from the last pool meets no earlier one.** -/
theorem Inv.take (h : Inv s l p ranges) {s₁ : Pools} {l₁ : List MemoryPool} {p₁ : MemoryPool} {size : ℕ}
    (hlay : Layout s₁ (l₁ ++ [p₁])) (h0 : p₁.pool ≠ 0) (hroom : p₁.next + size ≤ p₁.pool + p₁.size)
    (hwhere : (p₁ = p ∧ s₁ = s ∧ l₁ = l) ∨ (p₁.next = p₁.pool ∧ ∀ q ∈ l ++ [p], q ∈ l₁)) :
    ∀ r ∈ ranges, Apart ⟨p₁.next, size⟩ r := by
  intro r hr
  obtain ⟨q, hq, hq0, hlo, hhi⟩ := h.inside r hr
  have hcase : q = p₁ ∨ q ∈ l₁ := by
    rcases hwhere with ⟨rfl, -, rfl⟩ | ⟨-, hsub⟩
    · exact (List.mem_append.mp hq).symm.imp_left List.mem_singleton.mp
    · exact Or.inr (hsub q hq)
  have hp₁ := (hlay.between (List.mem_append_right _ (List.mem_singleton_self p₁))).1
  rcases hcase with rfl | hq₁
  · exact Or.inr hhi
  · have hbetween := hlay.between (List.mem_append_left _ hq₁)
    have hblocks : Apart ⟨q.pool, q.size⟩ ⟨p₁.pool, p₁.size⟩ :=
      (((List.pairwise_append.mp hlay.apart).2.2 q hq₁ p₁ (List.mem_singleton_self p₁)).resolve_left
        hq0).resolve_left h0
    have hrq : Within r ⟨q.pool, q.size⟩ := ⟨hlo, hhi.trans hbetween.2⟩
    have hnew : Within ⟨p₁.next, size⟩ ⟨p₁.pool, p₁.size⟩ := ⟨hp₁, hroom⟩
    exact (hrq.apart hnew hblocks).symm

/-- Between calls the assertions before the loop hold. -/
theorem alloc_entered {size : ℕ} {first : MemoryPool} (h : Layout s (l ++ [p])) (h0 : p.pool ≠ 0)
    (hfirst : s.poolDeq.peekFront = .ok first) : memoryPoolAlloc mem size s = (do
      let (pool, s) ← allocLoop mem size first.size 31 p s
      let back ← lift s.poolDeq.peekBack
      if pool.next ≠ back.next then .error .assertion
      let d ← lift (s.poolDeq.updateBack { pool with next := sizeT (pool.next + size) })
      return (pool.next, { s with poolDeq := d })) := by
  obtain ⟨cells, hrep⟩ := h.rep
  have hreal := h.real (List.mem_append_right _ (List.mem_singleton_self p)) h0
  have hempty : s.poolDeq.isEmpty = .ok false := by
    rw [hrep.isEmpty_eq]
    simp
  unfold memoryPoolAlloc
  rw [hempty, peekBack_eq h, hfirst]
  simp only [lift, bind, Except.bind]
  rw [if_neg (by simp), if_neg (by omega)]

theorem alloc_error {size : ℕ} {first : MemoryPool} {e : Halt} (h : Layout s (l ++ [p]))
    (h0 : p.pool ≠ 0) (hfirst : s.poolDeq.peekFront = .ok first)
    (hloop : allocLoop mem size first.size 31 p s = .error e) :
    memoryPoolAlloc mem size s = .error e := by
  rw [alloc_entered mem h h0 hfirst, hloop]
  rfl

/-- The last assertion holds too, and the record is written back. -/
theorem alloc_eq {size : ℕ} {first p₁ : MemoryPool} {s₁ : Pools} {l₁ : List MemoryPool}
    (h : Layout s (l ++ [p])) (h0 : p.pool ≠ 0) (hfirst : s.poolDeq.peekFront = .ok first)
    (hloop : allocLoop mem size first.size 31 p s = .ok (p₁, s₁)) (h₁ : Layout s₁ (l₁ ++ [p₁]))
    {d : Deque MemoryPool}
    (hd : s₁.poolDeq.updateBack { p₁ with next := sizeT (p₁.next + size) } = .ok d) :
    memoryPoolAlloc mem size s = .ok (p₁.next, { s₁ with poolDeq := d }) := by
  rw [alloc_entered mem h h0 hfirst, hloop]
  simp only [lift, bind, Except.bind, pure, Except.pure, peekBack_eq h₁]
  rw [if_neg (by simp)]
  simp only [hd]

/-- **A request that does not wrap** ends the program, or takes a range of the last pool. -/
theorem alloc_spec {size : ℕ} (h : Inv s l p ranges) (hsz : size < 2 ^ 64)
    (hno : p.next - p.pool + size < 2 ^ 64) {first : MemoryPool}
    (hfirst : s.poolDeq.peekFront = .ok first) :
    (∃ e, memoryPoolAlloc mem size s = .error e ∧ Ended size first.size (l ++ [p]).length e) ∨
      ∃ ret s' l' p', memoryPoolAlloc mem size s = .ok (ret, s') ∧
        Inv s' l' p' (⟨ret, size⟩ :: ranges) := by
  have hpos : 1 ≤ (l ++ [p]).length := by simp
  rcases allocLoop_spec mem first.size hsz 30 h.layout (by omega)
    (Or.inl h.back) with ⟨e, he, hend⟩ | ⟨l₁, p₁, s₁, he, hlay, h0, hroom, hwhere⟩
  · exact Or.inl ⟨e, alloc_error mem h.layout h.back hfirst he, hend⟩
  · right
    have hp₁ : p₁ ∈ l₁ ++ [p₁] := List.mem_append_right _ (List.mem_singleton_self p₁)
    obtain ⟨hlo, hhi⟩ := hlay.between hp₁
    have hstop : p₁.pool + p₁.size < 2 ^ 64 := (hlay.block _ (hlay.real hp₁ h0).1).2
    have hno₁ : p₁.next - p₁.pool + size < 2 ^ 64 := by
      rcases hwhere with ⟨rfl, -, -⟩ | ⟨hnext, -⟩
      · exact hno
      · omega
    have hfit : p₁.next + size ≤ p₁.pool + p₁.size := by
      have hu : sizeT ((p₁.next : ℤ) - p₁.pool + size) = p₁.next - p₁.pool + size := by
        unfold sizeT
        omega
      omega
    have hnext : sizeT ((p₁.next : ℤ) + size) = p₁.next + size := by
      unfold sizeT
      omega
    obtain ⟨d, hd, hlay'⟩ := hlay.update { p₁ with next := sizeT (p₁.next + size) } rfl rfl
      (by simp only [hnext]; omega) h0
    refine ⟨p₁.next, _, l₁, { p₁ with next := sizeT (p₁.next + size) },
      alloc_eq mem h.layout h.back hfirst he hlay hd, hlay', h0, fun r hr => ?_,
      List.pairwise_cons.mpr ⟨h.take hlay h0 hfit hwhere, h.apart⟩⟩
    rcases List.mem_cons.mp hr with rfl | hr
    · exact ⟨_, List.mem_append_right _ (List.mem_singleton_self _), h0, hlo, hnext.ge⟩
    · obtain ⟨q, hq, hq0, hqlo, hqhi⟩ := h.inside r hr
      rcases hwhere with ⟨rfl, -, rfl⟩ | ⟨-, hsub⟩
      · rcases List.mem_append.mp hq with hq | hq
        · exact ⟨q, List.mem_append_left _ hq, hq0, hqlo, hqhi⟩
        · rw [List.mem_singleton.mp hq] at hqlo hqhi
          refine ⟨_, List.mem_append_right _ (List.mem_singleton_self _), h0, hqlo, ?_⟩
          simp only [hnext]
          omega
      · exact ⟨q, List.mem_append_left _ (hsub q hq), hq0, hqlo, hqhi⟩

/-- **A request that wraps** gets `next` whatever its size. -/
theorem alloc_wrap {size : ℕ} (h : Inv s l p ranges) (hsz : size < 2 ^ 64)
    (hw : 2 ^ 64 ≤ p.next - p.pool + size) {first : MemoryPool}
    (hfirst : s.poolDeq.peekFront = .ok first) :
    ∃ s', memoryPoolAlloc mem size s = .ok (p.next, s') ∧ s'.blocks = s.blocks := by
  obtain ⟨hlo, hhi⟩ := h.layout.between (List.mem_append_right _ (List.mem_singleton_self p))
  have hroom : ¬ p.size < sizeT ((p.next : ℤ) - p.pool + size) := by
    unfold sizeT
    omega
  obtain ⟨cells, hrep⟩ := h.layout.rep
  obtain ⟨d, -, hd, -⟩ := hrep.updateBack_spec (by decide) { p with next := sizeT (p.next + size) }
  exact ⟨_, alloc_eq mem h.layout h.back hfirst (allocLoop_room mem hroom) h.layout hd, rfl⟩

/-- **The start**: the first pool is made, or the program ends. -/
theorem initialize_spec {size : ℕ} (hsz : size < 2 ^ 64) :
    initializeMemoryPool mem size = .error .exit ∨
      initializeMemoryPool mem size = .error (.deque .noMemory) ∨
        ∃ s p, initializeMemoryPool mem size = .ok s ∧ Inv s [] p [] := by
  have hone : 1 ≤ (if size = 0 then 1 else size) ∧ (if size = 0 then 1 else size) < 2 ^ 64 := by
    split_ifs <;> omega
  unfold initializeMemoryPool
  generalize (if size = 0 then 1 else size) = n at hone
  cases hnew : newDestructable MemoryPool poolBytes (mem.granted 0) 10 with
  | error e =>
    have he : e = .noMemory := by
      unfold newDestructable newDeque at hnew
      split at hnew
      · exact (Except.error.inj hnew).symm
      · simp [bind, Except.bind, pure, Except.pure] at hnew
    exact Or.inr (Or.inl (by rw [he]; rfl))
  | ok d =>
    obtain ⟨cells, hrep⟩ := newDeque_rep (by decide) (by decide) (Or.inr hnew)
    have hlay : Layout ⟨d, [], 0, 1⟩ [] :=
      ⟨⟨cells, hrep⟩, by simp, by simp, List.Pairwise.nil⟩
    simp only [lift, bind, Except.bind]
    rcases obtainPool_spec mem one_pos hone.1 hone.2 ⟨d, [], 0, 1⟩ with he | ⟨p, s₁, he, ho, -⟩
    · exact Or.inl (by rw [he])
    · rw [he]
      rcases hlay.push mem (Or.inr ho) with hp | ⟨s₂, hp, hlay₂⟩
      · exact Or.inr (Or.inl hp)
      · exact Or.inr (Or.inr ⟨s₂, p, hp, hlay₂, ho.fresh.1.ne', by simp, List.Pairwise.nil⟩)

/-! ### Runs -/

/-- A run up to the state `s`, in which requests that did not wrap got `ranges`. -/
inductive Run (mem : Memory) : Pools → List Span → Prop
  | start {s : Pools} (size : ℕ) : size < 2 ^ 64 → initializeMemoryPool mem size = .ok s → Run mem s []
  | alloc {s s' : Pools} {ranges : List Span} {ret : ℕ} (size : ℕ) : Run mem s ranges → size < 2 ^ 64 →
      NoWrap size s → memoryPoolAlloc mem size s = .ok (ret, s') → Run mem s' (⟨ret, size⟩ :: ranges)

theorem Run.inv (h : Run mem s ranges) : ∃ l p, Inv s l p ranges := by
  induction h with
  | @start s size hsz hs =>
    rcases initialize_spec mem hsz with he | he | ⟨s', p, he, hinv⟩
    · rw [he] at hs
      simp at hs
    · rw [he] at hs
      simp at hs
    · rw [he, Except.ok.injEq] at hs
      exact ⟨[], p, hs ▸ hinv⟩
  | @alloc s s' ranges ret size _ hsz hno hs ih =>
    obtain ⟨l, p, hinv⟩ := ih
    obtain ⟨first, hfirst, -⟩ := peekFront_eq hinv.layout
    rcases alloc_spec mem hinv hsz (hno p (peekBack_eq hinv.layout)) hfirst with
      ⟨e, he, -⟩ | ⟨ret', s₁, l', p', he, hinv'⟩
    · rw [he] at hs
      simp at hs
    · rw [he, Except.ok.injEq, Prod.mk.injEq] at hs
      obtain ⟨rfl, rfl⟩ := hs
      exact ⟨l', p', hinv'⟩

/-- The request ends the program, or gets a range inside one block and apart from the ones before. The
program ends because there is no memory, or because no pool that the loop may still ask for, before it
shifts `2` too far, is large enough. -/
def Answered (mem : Memory) (size : ℕ) (s : Pools) (ranges : List Span) : Prop :=
  (∃ e first length, memoryPoolAlloc mem size s = .error e ∧ s.poolDeq.peekFront = .ok first ∧
    s.poolDeq.length = .ok length ∧ Ended size first.size length e) ∨
  ∃ ret s', memoryPoolAlloc mem size s = .ok (ret, s') ∧ (∃ b ∈ s'.blocks, Within ⟨ret, size⟩ b) ∧
    ∀ r ∈ ranges, Apart ⟨ret, size⟩ r

/-- **Memory pool ranges.** In every run of requests that do not wrap: the start makes a pool or ends the
program; the ranges handed out are apart and each lies inside one block; the last pool is a real one and
`next` of every pool stays inside it; and the next request is answered with a range of its own, or ends
the program, exactly when it does not wrap. -/
theorem pool_ranges (h : Run mem s ranges) :
    (∀ size < 2 ^ 64, initializeMemoryPool mem size = .error .exit ∨
      initializeMemoryPool mem size = .error (.deque .noMemory) ∨
        ∃ s, initializeMemoryPool mem size = .ok s) ∧
    ranges.Pairwise Apart ∧ (∀ r ∈ ranges, ∃ b ∈ s.blocks, Within r b) ∧
    (∃ pools back, s.poolDeq.apply = .ok pools ∧ (∀ p ∈ pools, p.pool ≤ p.next ∧ p.next ≤ p.pool + p.size) ∧
      s.poolDeq.peekBack = .ok back ∧ back.pool ≠ 0 ∧ back.size ≠ 0 ∧ back.next ≠ 0) ∧
    ∀ size < 2 ^ 64, Answered mem size s ranges ↔ NoWrap size s := by
  obtain ⟨l, p, hinv⟩ := h.inv
  have hlast : p ∈ l ++ [p] := List.mem_append_right _ (List.mem_singleton_self p)
  have hback := hinv.back
  obtain ⟨-, hsize, hnext, -⟩ := hinv.layout.real hlast hback
  obtain ⟨cells, hrep⟩ := hinv.layout.rep
  obtain ⟨first, hfirst, -⟩ := peekFront_eq hinv.layout
  have hwithin : ∀ {s : Pools} {l : List MemoryPool} {p : MemoryPool} {ranges : List Span},
      Inv s l p ranges → ∀ r ∈ ranges, ∃ b ∈ s.blocks, Within r b := by
    intro s l p ranges hinv r hr
    obtain ⟨q, hq, hq0, hlo, hhi⟩ := hinv.inside r hr
    exact ⟨_, (hinv.layout.real hq hq0).1, hlo, hhi.trans (hinv.layout.between hq).2⟩
  refine ⟨fun size hsz => ?_, hinv.apart, hwithin hinv, ⟨l ++ [p], p, hrep.apply_eq (by decide),
    fun q hq => hinv.layout.between hq, peekBack_eq hinv.layout, hback, by omega, by omega⟩,
    fun size hsz => ⟨fun hans => (noWrap_iff (peekBack_eq hinv.layout)).mpr ?_, fun hno => ?_⟩⟩
  · exact (initialize_spec mem hsz).imp_right fun h => h.imp_right fun ⟨s, _, hs, _⟩ => ⟨s, hs⟩
  · -- a request that wraps gets a range that no block has room for
    by_contra hw
    obtain ⟨s', he, hblocks⟩ := alloc_wrap mem hinv hsz (not_lt.mp hw) hfirst
    rcases hans with ⟨e, _, _, he', -⟩ | ⟨ret, s₁, he', ⟨b, hb, -, hstop⟩, -⟩
    · rw [he] at he'
      simp at he'
    · rw [he, Except.ok.injEq, Prod.mk.injEq] at he'
      obtain ⟨rfl, rfl⟩ := he'
      rw [hblocks] at hb
      have hlt := (hinv.layout.block b hb).2
      have hle : p.next + size ≤ b.stop := hstop
      omega
  · rcases alloc_spec mem hinv hsz (hno p (peekBack_eq hinv.layout)) hfirst with
      ⟨e, he, hend⟩ | ⟨ret, s', l', p', he, hinv'⟩
    · exact Or.inl ⟨e, first, _, he, hfirst, hrep.length_eq (by decide), hend⟩
    · exact Or.inr ⟨ret, s', he, hwithin hinv' _ (List.mem_cons_self ..),
        (List.pairwise_cons.mp hinv'.apart).1⟩

/-- `malloc` gives a block at each multiple of 4096 in turn. -/
def pages : Memory := ⟨fun k => 4096 * (k + 1), fun _ => true⟩

/-- A request that wraps lets the next one have a range that was handed out before. -/
theorem pool_overlap : (do
    let s ← initializeMemoryPool pages 16
    let (first, s) ← memoryPoolAlloc pages 8 s
    let (second, s) ← memoryPoolAlloc pages (2 ^ 64 - 8) s
    let (third, s) ← memoryPoolAlloc pages 8 s
    return (first, second, third, s.blocks)) =
      (.ok (4096, 4104, 4096, [⟨4096, 16⟩]) : Except Halt (ℕ × ℕ × ℕ × List Span)) := by
  decide

/-- After a request that the first pool of 16 bytes has room for and one that needs a second pool, eight
bytes are answered with a range of their own, and a request that wraps is not. -/
theorem pool_ranges_two : ∃ s, Run pages s [⟨8192, 16⟩, ⟨4096, 8⟩] ∧
    Answered pages 8 s [⟨8192, 16⟩, ⟨4096, 8⟩] ∧
    ¬ Answered pages (2 ^ 64 - 16) s [⟨8192, 16⟩, ⟨4096, 8⟩] := by
  obtain ⟨s₀, h₀, hb₀⟩ : ∃ s, initializeMemoryPool pages 16 = .ok s ∧
      s.poolDeq.peekBack = .ok ⟨4096, 16, 4096⟩ := ⟨_, rfl, rfl⟩
  obtain ⟨s₁, h₁, hb₁⟩ : ∃ s, memoryPoolAlloc pages 8 s₀ = .ok (4096, s) ∧
      s.poolDeq.peekBack = .ok ⟨4096, 16, 4104⟩ := by
    cases h₀
    exact ⟨_, rfl, rfl⟩
  obtain ⟨s₂, h₂, hb₂⟩ : ∃ s, memoryPoolAlloc pages 16 s₁ = .ok (8192, s) ∧
      s.poolDeq.peekBack = .ok ⟨8192, 32, 8208⟩ := by
    cases h₀
    cases h₁
    exact ⟨_, rfl, rfl⟩
  have hrun : Run pages s₂ [⟨8192, 16⟩, ⟨4096, 8⟩] :=
    .alloc 16 (.alloc 8 (.start 16 (by decide) h₀) (by decide) ((noWrap_iff hb₀).mpr (by decide)) h₁)
      (by decide) ((noWrap_iff hb₁).mpr (by decide)) h₂
  have hanswered := (pool_ranges pages hrun).2.2.2.2
  refine ⟨s₂, hrun, (hanswered 8 (by decide)).mpr ((noWrap_iff hb₂).mpr (by decide)), fun h => ?_⟩
  exact absurd ((noWrap_iff hb₂).mp ((hanswered _ (by decide)).mp h)) (by decide)

end Eecs678.Quash.PoolRanges
