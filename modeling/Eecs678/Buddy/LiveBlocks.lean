import Eecs678.Buddy.FrontEnd
import Eecs678.Buddy.Partition

/-!
# The front end frees live blocks only

While commands go well, each variable in use holds a block that is out, no two of them the same one
(`Tied`). A command keeps that or ends the run (`parseCommand_keeps`), so in every run each address that
`buddy_free` gets is the one of a block that is out: `frees_live`.
-/

namespace Eecs678.Buddy.LiveBlocks

open Eecs678.Lib.Scanf (cString)
open Eecs678.Lib.Dyadic Eecs678.Buddy.Model Eecs678.Buddy.Invariant Eecs678.Buddy.Partition
open Eecs678.Buddy.FrontEnd

/-! ### The blocks that are out -/

/-- The addresses that are out after an event. -/
def afterEvent (out : List ℕ) : Event → List ℕ
  | .alloc _ (some addr) => addr :: out
  | .free (some addr) => out.erase addr
  | _ => out

/-- The addresses that `buddy_alloc` returned and that were not freed since. -/
def outstanding (events : List Event) : List ℕ := events.foldl afterEvent []

/-- Each address freed is out at that moment. -/
def Safe : List ℕ → List Event → Prop
  | _, [] => True
  | out, e :: events => (∀ mem, e = .free mem → ∃ addr ∈ out, mem = some addr) ∧
      Safe (afterEvent out e) events

theorem safe_append : ∀ {out : List ℕ} {l l' : List Event}, Safe out l →
    Safe (l.foldl afterEvent out) l' → Safe out (l ++ l')
  | _, [], _, _, h' => h'
  | _, _ :: _, _, h, h' => ⟨h.1, safe_append h.2 h'⟩

theorem Safe.free : ∀ (before : List Event) {after : List Event} {out : List ℕ} {mem : Option ℕ},
    Safe out (before ++ .free mem :: after) → ∃ addr ∈ before.foldl afterEvent out, mem = some addr
  | [], _, _, _, h => h.1 _ rfl
  | _ :: before, _, _, _, h => Safe.free before h.2

/-! ### Variables and blocks -/

/-- No two variables in use hold the same. -/
def Distinct (s : Front) : Prop :=
  ∀ v w, v ≠ w → (s.varMap v).inUse → (s.varMap w).inUse → (s.varMap v).mem ≠ (s.varMap w).mem

/-- The allocator, the blocks that are out and the variables in use fit together. -/
structure Tied (out : List ℕ) (s : Front) : Prop where
  live : ∃ live, Inv s.heap [] live ∧ (live.map Blk.off).Perm out
  used : ∀ v, (s.varMap v).inUse → ∃ addr ∈ out, (s.varMap v).mem = some addr
  distinct : Distinct s

variable {s : Front} {out : List ℕ} (convert : ℤ → Option ℤ)

theorem setVar_varMap (v w : Char) (var : VarT) (s : Front) :
    (setVar v var s).varMap w = if w = v then var else s.varMap w := by
  simp only [setVar, Function.update_apply]

/-- A variable gets a value that no other one in use has. -/
theorem distinct_setVar (h : Distinct s) {v : Char} {var : VarT}
    (hvar : var.inUse → ∀ w, w ≠ v → (s.varMap w).inUse → var.mem ≠ (s.varMap w).mem) :
    Distinct (setVar v var s) := by
  intro x y hxy hx hy
  rw [setVar_varMap] at hx hy
  rw [setVar_varMap, setVar_varMap]
  by_cases hxv : x = v
  · subst hxv
    rw [if_neg hxy.symm] at hy ⊢
    rw [if_pos rfl] at hx ⊢
    exact hvar hx y hxy.symm hy
  · rw [if_neg hxv] at hx ⊢
    by_cases hyv : y = v
    · subst hyv
      rw [if_pos rfl] at hy ⊢
      exact (hvar hy x hxv hx).symm
    · rw [if_neg hyv] at hy ⊢
      exact h x y hxy hx hy

/-- What `buddy_alloc` can do when the invariant holds. -/
theorem alloc_cases {a : Allocator} {live : List Blk} (h : Inv a [] live) (size : ℤ) :
    buddyAlloc size a = .error .shift ∨ buddyAlloc size a = .ok (none, a) ∨
      ∃ addr o a', buddyAlloc size a = .ok (some addr, a') ∧ Inv a' [] (⟨addr, o⟩ :: live) := by
  by_cases hpos : size ≤ 0
  · exact Or.inr (Or.inl (alloc_nonpos hpos))
  · cases ho : requestOrder size with
    | error e =>
      have he : e = .shift := orderLoop_error ho
      left
      unfold buddyAlloc
      rw [if_neg hpos, ho, he]
      rfl
    | ok o =>
      rcases alloc_inv h (not_le.mp hpos) ho with h1 | ⟨addr, a', h1, hinv⟩
      · exact Or.inr (Or.inl h1)
      · exact Or.inr (Or.inr ⟨addr, o, a', h1, hinv⟩)

/-! ### Commands -/

/-- What a command keeps: its frees are safe, variables in use stay distinct, all is tied if it went
well, and the only thing without a result is a shift for a request that is too large. -/
structure Keeps (out : List ℕ) (r : Outcome) : Prop where
  safe : Safe out r.1
  distinct : ∀ status s', r.2 = .ok (status, s') → Distinct s'
  tied : ∀ s', r.2 = .ok (.success, s') → Tied (r.1.foldl afterEvent out) s'
  fault : ∀ e, r.2 = .error e → e = .shift

/-- A command that is refused. -/
theorem keeps_refused (h : Tied out s) {events : List Event} {status : Status}
    (hs : Safe out events) (hne : status ≠ .success) : Keeps out (events, .ok (status, s)) := by
  refine ⟨hs, fun status' s' he => ?_, fun s' he => ?_, fun e he => by simp at he⟩
  · rw [Except.ok.injEq, Prod.mk.injEq] at he
    exact he.2 ▸ h.distinct
  · rw [Except.ok.injEq, Prod.mk.injEq] at he
    exact absurd he.1 hne

theorem keeps_parseError (h : Tied out s) (cmd : List Char) : Keeps out (parseError cmd s) :=
  keeps_refused h ⟨by simp, trivial⟩ (by simp)

/-- **An allocation** ties the variable to the new block; a failed one ends the run. -/
theorem keeps_allocVar (h : Tied out s) (cmd : List Char) (v : Char) (size : ℤ) :
    Keeps out (allocVar cmd v size s) := by
  obtain ⟨live, hinv, hperm⟩ := h.live
  unfold allocVar
  rcases alloc_cases hinv size with he | he | ⟨addr, o, a', he, hinv'⟩
  · rw [he]
    exact ⟨trivial, fun _ _ he => by simp at he, fun _ he => by simp at he,
      fun e he => (Except.error.inj he).symm⟩
  · rw [he]
    refine ⟨⟨by simp, by simp, by simp, trivial⟩, fun status s' he => ?_, fun s' he => by simp at he,
      fun e he => by simp at he⟩
    rw [Except.ok.injEq, Prod.mk.injEq] at he
    obtain ⟨-, rfl⟩ := he
    -- the variable now holds `NULL`, the others in use hold blocks
    refine distinct_setVar (s := { s with heap := s.heap }) h.distinct fun _ w _ hw => ?_
    obtain ⟨b, -, hb⟩ := h.used w hw
    change none ≠ (s.varMap w).mem
    rw [hb]
    simp
  · rw [he]
    have hperm' : (addr :: live.map Blk.off).Perm (addr :: out) := hperm.cons addr
    have hnew : addr ∉ out := fun hm => by
      have ht := hinv'.tiles.apart
      rw [List.nil_append, List.pairwise_append] at ht
      obtain ⟨b, hb, hoff⟩ := List.mem_map.mp (hperm.mem_iff.mpr hm)
      exact ((List.pairwise_cons.mp ht.2.1).1 b hb).off_ne hoff.symm
    have hdist : Distinct (setVar v ⟨some addr, true⟩ { s with heap := a' }) := by
      refine distinct_setVar (s := { s with heap := a' }) h.distinct fun _ w _ hw => ?_
      obtain ⟨b, hb, hbe⟩ := h.used w hw
      exact fun he => hnew (Option.some.inj (he.trans hbe) ▸ hb)
    refine ⟨⟨by simp, trivial⟩, fun status s' he => ?_, fun s' he => ?_, fun e he => by simp at he⟩
    · rw [Except.ok.injEq, Prod.mk.injEq] at he
      exact he.2 ▸ hdist
    · rw [Except.ok.injEq, Prod.mk.injEq] at he
      obtain ⟨-, rfl⟩ := he
      refine ⟨⟨_, hinv', hperm'⟩, fun w hw => ?_, hdist⟩
      rw [setVar_varMap] at hw ⊢
      split_ifs at hw ⊢ with hwv
      · exact ⟨addr, List.mem_cons_self .., rfl⟩
      · obtain ⟨b, hb, hbe⟩ := h.used w hw
        exact ⟨b, List.mem_cons_of_mem _ hb, hbe⟩

/-- **A free** of a variable in use frees the block it holds. -/
theorem keeps_freeVar (h : Tied out s) {v : Char} (hv : (s.varMap v).inUse) :
    Keeps out (freeVar v s) := by
  obtain ⟨live, hinv, hperm⟩ := h.live
  obtain ⟨addr, ha, hmem⟩ := h.used v hv
  obtain ⟨b, hb, hoff⟩ := List.mem_map.mp (hperm.mem_iff.mpr ha)
  obtain ⟨a', hfree, hinv'⟩ := free_inv hinv hb
  have hout : ((live.erase b).map Blk.off).Perm (out.erase addr) := by
    have h1 : (b.off :: (live.erase b).map Blk.off).Perm out :=
      ((List.perm_cons_erase hb).symm.map Blk.off).trans hperm
    rw [hoff] at h1
    have h2 := h1.erase addr
    rwa [List.erase_cons_head] at h2
  unfold freeVar
  rw [hoff] at hfree
  rw [hmem]
  simp only [hfree]
  have hdist : Distinct (setVar v ⟨none, false⟩ { s with heap := a' }) :=
    distinct_setVar (s := { s with heap := a' }) h.distinct fun hu => by simp at hu
  refine ⟨⟨fun mem he => ?_, trivial⟩, fun status s' he => ?_, fun s' he => ?_, fun e he => by simp at he⟩
  · rw [Event.free.injEq] at he
    exact ⟨addr, ha, he.symm⟩
  · rw [Except.ok.injEq, Prod.mk.injEq] at he
    exact he.2 ▸ hdist
  · rw [Except.ok.injEq, Prod.mk.injEq] at he
    obtain ⟨-, rfl⟩ := he
    refine ⟨⟨_, hinv', hout⟩, fun w hw => ?_, hdist⟩
    rw [setVar_varMap] at hw ⊢
    split_ifs at hw ⊢ with hwv
    obtain ⟨c, hc, hce⟩ := h.used w hw
    refine ⟨c, (List.mem_erase_of_ne ?_).mpr hc, hce⟩
    -- another variable holds another block
    rintro rfl
    exact h.distinct w v hwv hw hv (hce.trans hmem.symm)

theorem keeps_parseAlloc (h : Tied out s) (cmd : List Char) :
    Keeps out (parseAlloc convert cmd s) := by
  unfold parseAlloc
  split
  · exact keeps_parseError h cmd
  · exact keeps_allocVar h cmd _ _

theorem keeps_parseFree (h : Tied out s) (cmd : List Char) : Keeps out (parseFree cmd s) := by
  unfold parseFree
  split
  · exact keeps_parseError h cmd
  · split_ifs with hu
    · exact keeps_refused h ⟨by simp, trivial⟩ (by simp)
    · exact keeps_freeVar h (by simpa using hu)

theorem keeps_withDump {r : Outcome} (h : Keeps out r) : Keeps out (withDump r) := by
  unfold withDump
  split
  · rename_i events s'
    have hdump : ∀ l, (l ++ [Event.dump (buddyDump s'.heap)]).foldl afterEvent out =
        l.foldl afterEvent out := fun l => by rw [List.foldl_append]; rfl
    refine ⟨safe_append h.safe ⟨by simp, trivial⟩, h.distinct, fun s₁ he => ?_, h.fault⟩
    rw [hdump]
    exact h.tied s₁ he
  · exact h

theorem keeps_done (h : Tied out s) : Keeps out ([], .ok (.success, s)) := by
  refine ⟨trivial, fun status s' he => ?_, fun s' he => ?_, fun e he => by simp at he⟩
  · rw [Except.ok.injEq, Prod.mk.injEq] at he
    exact he.2 ▸ h.distinct
  · rw [Except.ok.injEq, Prod.mk.injEq] at he
    exact he.2 ▸ h

/-- **What a command keeps.** -/
theorem parseCommand_keeps (h : Tied out s) (cmd : List Char) (cmdLen : ℤ) :
    Keeps out (parseCommand convert cmd cmdLen s) := by
  unfold parseCommand
  split_ifs
  · exact keeps_done h
  · refine keeps_withDump ?_
    unfold parseSqueezed
    split_ifs
    · exact keeps_parseAlloc convert h _
    · exact keeps_parseFree h _
    · exact keeps_parseError h _

/-- **What a run keeps.** -/
theorem parseFile_keeps : ∀ (lines : List (List Char × List Char)) {s : Front} {out : List ℕ},
    Tied out s → Keeps out (parseFile convert lines s)
  | [], _, _, h => keeps_done h
  | (text, residue) :: lines, s, out, h => by
    unfold parseFile
    split_ifs
    · exact keeps_done h
    · have hs : Tied out { s with linenum := s.linenum + 1 } := ⟨h.live, h.used, h.distinct⟩
      have hk := parseCommand_keeps convert hs (text ++ '\x00' :: residue)
        (Int.bmod (text ++ '\x00' :: residue).length (2 ^ 32))
      simp only
      split
      · rename_i events s' he
        rw [he] at hk
        have ih := parseFile_keeps lines (hk.tied s' rfl)
        refine ⟨safe_append hk.safe ih.safe, ih.distinct, fun s₁ he₁ => ?_, ih.fault⟩
        rw [List.foldl_append]
        exact ih.tied s₁ he₁
      · exact hk

theorem tied_start : Tied [] start :=
  ⟨⟨[], init_inv, List.Perm.refl _⟩, fun v hv => by simp [start] at hv,
    fun v w _ hv => by simp [start] at hv⟩

theorem scanText_eq : ∀ {text str rest : List Char}, scanText text str = some rest → str = text ++ rest
  | [], _, _, h => Option.some.inj h
  | _ :: _, [], _, h => by simp [scanText] at h
  | c :: text, d :: str, rest, h => by
    unfold scanText at h
    split_ifs at h with hc
    rw [hc, scanText_eq h]
    rfl

/-- **A free of a variable that is not in use** is refused, and nothing changes. -/
theorem parseCommand_doubleFree {cmd : List Char} {cmdLen : ℤ} {v : Char}
    (hcmd : cmd.head? ≠ some '\x00' ∧ cmd.head? ≠ some '\n' ∧ cmd.head? ≠ some '\r')
    (halloc : ¬ ['a', 'l', 'l', 'o', 'c'] <:+: cString (squeeze cmd cmdLen))
    (hv : scanFree (cString (squeeze cmd cmdLen)) >>= getVar = some v)
    (hu : (s.varMap v).inUse = false) : parseCommand convert cmd cmdLen s =
      ([.fault s.linenum (cString (squeeze cmd cmdLen)) "Double free" .error], .ok (.doubleFree, s)) := by
  have hfree : ['f', 'r', 'e', 'e'] <:+: cString (squeeze cmd cmdLen) := by
    obtain ⟨w, hw, -⟩ := Option.bind_eq_some_iff.mp hv
    obtain ⟨str, hstr, -⟩ := Option.bind_eq_some_iff.mp hw
    rw [scanText_eq hstr]
    exact ⟨[], '(' :: str, rfl⟩
  have hdf : parseFree (cString (squeeze cmd cmdLen)) s =
      ([.fault s.linenum (cString (squeeze cmd cmdLen)) "Double free" .error], .ok (.doubleFree, s)) := by
    unfold parseFree
    rw [hv]
    simp [hu]
  unfold parseCommand parseSqueezed
  rw [if_neg (by simp [hcmd]), if_neg halloc, if_pos hfree, hdf]
  rfl

/-- **The front end never frees a dead block.** In the run of every script, each address that
`buddy_free` gets is the one of a block that `buddy_alloc` returned and that was not freed since; no two
variables in use hold the same address; and a free of a variable that is not in use is refused as a
double free and changes neither the allocator nor the variables. -/
theorem frees_live (convert : ℤ → Option ℤ) (lines : List (List Char × List Char)) :
    (∀ before mem after, (parseFile convert lines start).1 = before ++ .free mem :: after →
      ∃ addr ∈ outstanding before, mem = some addr) ∧
    (∀ status s, (parseFile convert lines start).2 = .ok (status, s) → Distinct s) ∧
    (∀ e, (parseFile convert lines start).2 = .error e → e = .shift) ∧
    ∀ (s : Front) (cmd : List Char) (cmdLen : ℤ) (v : Char),
      (cmd.head? ≠ some '\x00' ∧ cmd.head? ≠ some '\n' ∧ cmd.head? ≠ some '\r') →
        ¬ ['a', 'l', 'l', 'o', 'c'] <:+: cString (squeeze cmd cmdLen) →
          scanFree (cString (squeeze cmd cmdLen)) >>= getVar = some v → (s.varMap v).inUse = false →
            parseCommand convert cmd cmdLen s =
              ([.fault s.linenum (cString (squeeze cmd cmdLen)) "Double free" .error],
                .ok (.doubleFree, s)) := by
  have hk := parseFile_keeps convert lines tied_start
  refine ⟨fun before mem after he => ?_, hk.distinct, hk.fault,
    fun s cmd cmdLen v hcmd halloc hv hu => parseCommand_doubleFree convert hcmd halloc hv hu⟩
  have hs := hk.safe
  rw [he] at hs
  exact hs.free

/-- The first command frees a variable that was never allocated. -/
theorem frees_live_unused : (parseCommand some ['f', 'r', 'e', 'e', '(', 'b', ')', '\n', '\x00'] 9 start).2 =
    .ok (.doubleFree, start) := by
  rw [(frees_live some []).2.2.2 start _ 9 'b' (by decide) (by decide) (by decide) rfl]

end Eecs678.Buddy.LiveBlocks
