import Eecs678.Quash.PoolRanges
import Mathlib.Data.Nat.ModEq

/-!
# The alignment of pool memory

A pool gives out its bytes one after the other, whatever is stored in them: the address of a request is
the start of its pool and the sizes of the requests that the pool has served before (`answers_modEq`). With
pools from `malloc` it is aligned exactly if these sizes add up to a multiple of the alignment
(`aligned_iff`).
-/

namespace Eecs678.Quash.PoolAlignment

open Eecs678.Quash.DequeModel Eecs678.Quash.DequeRefines Eecs678.Quash.PoolModel
open Eecs678.Quash.PoolRanges

/-! ### Requests -/

/-- A call of `memory_pool_alloc`, by what is stored in the memory. -/
inductive Request
  /-- `memory_pool_strdup`, of a string of this length. -/
  | strdup (length : ℕ)
  /-- The array of a `MPStrBuilder`. -/
  | mpStrBuilder (cap : ℕ)
  /-- The array of a `CmdStrs`. -/
  | cmdStrs (cap : ℕ)
  /-- The array of a `Cmds`. -/
  | cmds (cap : ℕ)
  /-- The `char**` of an `echo` without arguments. -/
  | echo
deriving DecidableEq, Repr

/-- `sizeof(char*)`. -/
def pointerBytes : ℕ := 8

/-- `sizeof(CommandHolder)`. -/
def holderBytes : ℕ := 56

/-- The argument of `memory_pool_alloc`. -/
def Request.size : Request → ℕ
  | strdup length => sizeT (length + 1)
  | mpStrBuilder cap => sizeT cap
  | cmdStrs cap => sizeT (cap * pointerBytes)
  | cmds cap => sizeT (cap * holderBytes)
  | echo => pointerBytes

/-- The alignment of the type that is stored: a `CommandHolder` has pointers in it. -/
def Request.align : Request → ℕ
  | strdup _ => 1
  | mpStrBuilder _ => 1
  | cmdStrs _ => pointerBytes
  | cmds _ => pointerBytes
  | echo => pointerBytes

/-- The alignment of what `malloc` gives. -/
def maxAlign : ℕ := 16

theorem Request.align_dvd (r : Request) : r.align ∣ maxAlign := by
  cases r with
  | strdup => exact one_dvd _
  | mpStrBuilder => exact one_dvd _
  | cmdStrs => exact ⟨2, rfl⟩
  | cmds => exact ⟨2, rfl⟩
  | echo => exact ⟨2, rfl⟩

/-- The test of the loop of `memory_pool_alloc`: the pool has room for the request. -/
def HasRoom (size : ℕ) (p : MemoryPool) : Prop := ¬ p.size < sizeT (p.next - p.pool + size)

instance (size : ℕ) (p : MemoryPool) : Decidable (HasRoom size p) := inferInstanceAs (Decidable (¬ _))

/-- A request with the address it got, and the bytes that its pool had given out before. -/
structure Answer where
  request : Request
  used : ℕ
  address : ℕ
deriving DecidableEq, Repr

/-- The answers to a sequence of requests, up to the one that ends the program; the last pool has given
out `used` bytes before. -/
def answers (mem : Memory) : ℕ → List Request → Pools → List Answer
  | _, [], _ => []
  | used, r :: rs, s =>
    match s.poolDeq.peekBack, memoryPoolAlloc mem r.size s with
    | .ok p, .ok (address, s') =>
      let used := if HasRoom r.size p then used else 0
      ⟨r, used, address⟩ :: answers mem (used + r.size) rs s'
    | _, _ => []

variable {mem : Memory} {s s' : Pools} {p p' : MemoryPool}

/-! ### New pools -/

theorem except_bind {ε β γ : Type} {x : Except ε β} {f : β → Except ε γ} {c : γ}
    (h : x >>= f = .ok c) : ∃ b, x = .ok b ∧ f b = .ok c := by
  cases x with
  | error e => cases h
  | ok b => exact ⟨b, rfl, h⟩

/-- The pool starts at an aligned address. -/
theorem initializePool_aligned (hmem : ∀ k, maxAlign ∣ mem.answers k) (size : ℕ) (s : Pools) :
    maxAlign ∣ (initializePool mem size s).1.next ∧ (initializePool mem size s).2.poolDeq = s.poolDeq := by
  by_cases h0 : size = 0
  · rw [initializePool, if_pos h0]
    exact ⟨dvd_zero _, rfl⟩
  · unfold initializePool malloc
    by_cases hf : Fresh ⟨mem.answers s.calls, size⟩ s.blocks
    · simp only [if_neg h0, if_pos hf, if_neg hf.1.ne']
      exact ⟨hmem _, trivial⟩
    · simp only [if_neg h0, if_neg hf, if_true]
      exact ⟨dvd_zero _, trivial⟩

theorem lowMemoryLoop_aligned (hmem : ∀ k, maxAlign ∣ mem.answers k) (required : ℕ) :
    ∀ {n failed : ℕ} {s : Pools}, lowMemoryLoop mem required n failed s = .ok (p, s') →
      maxAlign ∣ p.next ∧ s'.poolDeq = s.poolDeq
  | n + 1, failed, s, h => by
    unfold lowMemoryLoop at h
    split_ifs at h with hle
    simp only at h
    generalize (if failed / 2 < required then required else failed / 2) = request at h
    have hnew := initializePool_aligned hmem request s
    split_ifs at h with h0
    · obtain ⟨rfl, rfl⟩ := Prod.mk.inj (Except.ok.inj h)
      exact hnew
    · obtain ⟨h1, h2⟩ := lowMemoryLoop_aligned hmem required h
      exact ⟨h1, h2.trans hnew.2⟩

theorem obtainPool_aligned (hmem : ∀ k, maxAlign ∣ mem.answers k) {required size : ℕ}
    (h : obtainPool mem required size s = .ok (p, s')) : maxAlign ∣ p.next ∧ s'.poolDeq = s.poolDeq := by
  have hnew := initializePool_aligned hmem size s
  unfold obtainPool at h
  simp only at h
  split_ifs at h with h0
  · obtain ⟨h1, h2⟩ := lowMemoryLoop_aligned hmem required h
    exact ⟨h1, h2.trans hnew.2⟩
  · obtain ⟨rfl, rfl⟩ := Prod.mk.inj (Except.ok.inj h)
    exact hnew

theorem nextPool_aligned (hmem : ∀ k, maxAlign ∣ mem.answers k) {size newPoolSize : ℕ}
    (h : nextPool mem size newPoolSize s = .ok (p, s')) : maxAlign ∣ p.next ∧ s'.poolDeq = s.poolDeq := by
  unfold nextPool at h
  split_ifs at h
  · have hnew := initializePool_aligned hmem 0 s
    rw [Except.ok.inj h] at hnew
    exact hnew
  · exact obtainPool_aligned hmem h

/-! ### The last pool -/

/-- The pool is the last one of the deque. -/
def Back (s : Pools) (p : MemoryPool) : Prop := ∃ cells l, Rep poolBytes s.poolDeq cells (l ++ [p])

theorem Back.peek (h : Back s p) : s.poolDeq.peekBack = .ok p := by
  obtain ⟨cells, l, hrep⟩ := h
  exact hrep.peekBack_eq (by decide)

theorem pushPool_back {cells : List (Option MemoryPool)} {l : List MemoryPool}
    (hrep : Rep poolBytes s.poolDeq cells l) (h : pushPool mem p s = .ok s') : Back s' p := by
  unfold pushPool at h
  rcases pushBack_cases (mem.granted s.pushes) hrep (by decide) (by decide) p with
    he | ⟨d', cells', he, hrep'⟩
  · rw [he] at h
    cases h
  · rw [he] at h
    obtain rfl := Except.ok.inj h
    exact ⟨cells', l, hrep'⟩

/-- **The loop** keeps a pool with room, or ends with a new one. -/
theorem allocLoop_aligned (hmem : ∀ k, maxAlign ∣ mem.answers k) (size initSize : ℕ) :
    ∀ {n : ℕ} {p : MemoryPool} {s : Pools}, Back s p → allocLoop mem size initSize n p s = .ok (p', s') →
      Back s' p' ∧ if HasRoom size p then p' = p else maxAlign ∣ p'.next
  | n + 1, p, s, hback, h => by
    unfold allocLoop at h
    by_cases hroom : p.size < sizeT (p.next - p.pool + size)
    · rw [if_pos hroom] at h
      rw [if_neg (show ¬ HasRoom size p from not_not.mpr hroom)]
      obtain ⟨length, -, h⟩ := except_bind h
      obtain ⟨factor, -, h⟩ := except_bind h
      obtain ⟨⟨p₁, s₁⟩, hnext, h⟩ := except_bind h
      obtain ⟨s₂, hpush, h⟩ := except_bind h
      obtain ⟨haligned, hdeq⟩ := nextPool_aligned hmem hnext
      obtain ⟨cells, l, hrep⟩ := hback
      have hback₂ : Back s₂ p₁ := pushPool_back (hdeq ▸ hrep) hpush
      -- the new pool has room, or another one is made
      obtain ⟨hback', hcase⟩ := allocLoop_aligned hmem size initSize hback₂ h
      refine ⟨hback', ?_⟩
      split_ifs at hcase
      · rw [hcase]
        exact haligned
      · exact hcase
    · rw [if_neg hroom] at h
      rw [if_pos (show HasRoom size p from hroom)]
      obtain ⟨rfl, rfl⟩ := Prod.mk.inj (Except.ok.inj h)
      exact ⟨hback, rfl⟩

/-- **A request** gets `next` of the last pool, or an aligned address at the start of a new one. -/
theorem memoryPoolAlloc_aligned (hmem : ∀ k, maxAlign ∣ mem.answers k) {size address : ℕ}
    (hback : Back s p) (h : memoryPoolAlloc mem size s = .ok (address, s')) :
    (if HasRoom size p then address = p.next else maxAlign ∣ address) ∧
      ∃ p', Back s' p' ∧ p'.next = sizeT (address + size) := by
  unfold memoryPoolAlloc at h
  obtain ⟨empty, -, h⟩ := except_bind h
  split_ifs at h
  · cases h
  obtain ⟨pool, hpool, h⟩ := except_bind h
  obtain ⟨first, -, h⟩ := except_bind h
  rw [hback.peek] at hpool
  obtain rfl := Except.ok.inj hpool
  split_ifs at h
  · cases h
  obtain ⟨⟨p₁, s₁⟩, hloop, h⟩ := except_bind h
  obtain ⟨back, -, h⟩ := except_bind h
  simp only at h
  split_ifs at h
  · cases h
  obtain ⟨d, hd, h⟩ := except_bind h
  obtain ⟨rfl, rfl⟩ := Prod.mk.inj (Except.ok.inj h)
  obtain ⟨⟨cells, l, hrep⟩, hcase⟩ := allocLoop_aligned hmem size first.size hback hloop
  obtain ⟨d', cells', hd', hrep'⟩ :=
    hrep.updateBack_spec (by decide) { p₁ with next := sizeT (p₁.next + size) }
  rw [hd'] at hd
  obtain rfl := Except.ok.inj hd
  refine ⟨?_, _, ⟨cells', l, hrep'⟩, rfl⟩
  split_ifs at hcase ⊢
  · rw [hcase]
  · exact hcase

theorem initialize_back (hmem : ∀ k, maxAlign ∣ mem.answers k) {size : ℕ}
    (h : initializeMemoryPool mem size = .ok s) : ∃ p, Back s p ∧ maxAlign ∣ p.next := by
  unfold initializeMemoryPool at h
  obtain ⟨d, hd, h⟩ := except_bind h
  obtain ⟨⟨p, s₁⟩, hpool, h⟩ := except_bind h
  obtain ⟨haligned, hdeq⟩ := obtainPool_aligned hmem hpool
  have hnew : newDestructable MemoryPool poolBytes (mem.granted 0) 10 = .ok d := by
    cases hdeq : newDestructable MemoryPool poolBytes (mem.granted 0) 10 with
    | error e =>
      rw [hdeq] at hd
      cases hd
    | ok d' =>
      rw [hdeq] at hd
      exact congrArg Except.ok (Except.ok.inj hd)
  obtain ⟨cells, hrep⟩ := newDeque_rep (by decide) (by decide) (Or.inr hnew)
  have hrep₁ : Rep poolBytes s₁.poolDeq cells [] := by
    rw [hdeq]
    exact hrep
  exact ⟨p, pushPool_back hrep₁ h, haligned⟩

/-! ### Runs -/

theorem sizeT_modEq (n : ℕ) : sizeT n ≡ n [MOD maxAlign] := by
  unfold sizeT Nat.ModEq maxAlign
  omega

/-- **The address of a request** is, up to the alignment, what its pool has given out before. -/
theorem answers_modEq (hmem : ∀ k, maxAlign ∣ mem.answers k) : ∀ {rs : List Request} {used : ℕ}
    {s : Pools} {p : MemoryPool}, Back s p → p.next ≡ used [MOD maxAlign] →
    ∀ x ∈ answers mem used rs s, x.address ≡ x.used [MOD maxAlign]
  | [], _, _, _, _, _ => nofun
  | r :: rs, used, s, p, hback, hused => by
    unfold answers
    rw [hback.peek]
    cases halloc : memoryPoolAlloc mem r.size s with
    | error e => nofun
    | ok result =>
      obtain ⟨address, s'⟩ := result
      obtain ⟨haddress, p', hback', hnext⟩ := memoryPoolAlloc_aligned hmem hback halloc
      have hmod : address ≡ (if HasRoom r.size p then used else 0) [MOD maxAlign] := by
        split_ifs at haddress ⊢
        · rw [haddress]
          exact hused
        · exact Nat.modEq_zero_iff_dvd.mpr haddress
      refine List.forall_mem_cons.mpr ⟨hmod, answers_modEq hmem hback' ?_⟩
      rw [hnext]
      exact (sizeT_modEq (address + r.size)).trans (hmod.add_right r.size)

/-- **Aligned exactly if the pool has given out a multiple of the alignment.** In every run of requests,
with pools from a `malloc` whose addresses are aligned for all types: each address is aligned for what is
stored there, exactly if, at each request, the sizes that its pool has served before add up to a multiple
of the alignment. -/
theorem aligned_iff (hmem : ∀ k, maxAlign ∣ mem.answers k) {size : ℕ}
    (hs : initializeMemoryPool mem size = .ok s) (rs : List Request) :
    (∀ x ∈ answers mem 0 rs s, x.request.align ∣ x.address) ↔
      ∀ x ∈ answers mem 0 rs s, x.request.align ∣ x.used := by
  obtain ⟨p, hback, haligned⟩ := initialize_back hmem hs
  have hmod : ∀ x ∈ answers mem 0 rs s, x.address ≡ x.used [MOD maxAlign] :=
    answers_modEq hmem hback (Nat.modEq_zero_iff_dvd.mpr haligned)
  refine forall₂_congr fun x hx => ?_
  exact (hmod x hx).dvd_iff x.request.align_dvd

theorem pages_aligned (k : ℕ) : maxAlign ∣ pages.answers k :=
  Nat.dvd_mul_right_of_dvd (show 16 ∣ 4096 by decide) (k + 1)

/-- The command `a`: the pointers to its arguments come after the two bytes of its name. -/
theorem aligned_odd : ∃ s, initializeMemoryPool pages 1024 = .ok s ∧
    ¬∀ x ∈ answers pages 0 [.strdup 1, .cmdStrs 1] s, x.request.align ∣ x.address := by
  obtain ⟨s, hs, hanswers⟩ : ∃ s, initializeMemoryPool pages 1024 = .ok s ∧
      answers pages 0 [.strdup 1, .cmdStrs 1] s = [⟨.strdup 1, 0, 4096⟩, ⟨.cmdStrs 1, 2, 4098⟩] :=
    ⟨_, rfl, rfl⟩
  refine ⟨s, hs, fun hall => ?_⟩
  rw [hanswers] at hall
  exact absurd (hall ⟨.cmdStrs 1, 2, 4098⟩ (by simp)) (by decide)

/-- A name of seven letters leaves the pointers aligned. -/
theorem aligned_seven : ∃ s, initializeMemoryPool pages 1024 = .ok s ∧
    ∀ x ∈ answers pages 0 [.strdup 7, .cmdStrs 1] s, x.request.align ∣ x.address := by
  obtain ⟨s, hs, hanswers⟩ : ∃ s, initializeMemoryPool pages 1024 = .ok s ∧
      answers pages 0 [.strdup 7, .cmdStrs 1] s = [⟨.strdup 7, 0, 4096⟩, ⟨.cmdStrs 1, 8, 4104⟩] :=
    ⟨_, rfl, rfl⟩
  refine ⟨s, hs, (aligned_iff pages_aligned hs _).mpr ?_⟩
  rw [hanswers]
  decide

end Eecs678.Quash.PoolAlignment
