import Mathlib.Data.List.Induction
import Eecs678.Lib.Machine
import Eecs678.Quash.LexTables

/-!
# The generated scanner returns the tokens of the rules

`yylex` reads its input in pieces, of whatever size, and each piece ends with a `NUL` that may also be a
byte of the input. `match_spec` is the loop at `yy_match`, through all refills of the buffer: the text
since `yy_bp`, with what is still to be read, is cut where `munch` cuts it. So the calls of `yylex` return
what `lex` says, and `END` for ever after: `yylex_lex`.
-/

namespace Eecs678.Quash.LexRefines

open Eecs678.Lib.Scanner Eecs678.Lib.Automata Eecs678.Lib.Machine
open Eecs678.Quash.Lexer Eecs678.Quash.LexYy Eecs678.Quash.LexTables

/-! ### What the tables say about single states -/

/-- The states in which a match is under way. -/
def live : List ℕ := 1 :: List.range' 4 52

theorem live_start : 1 ∈ live := List.mem_cons_self

/-- Of the states in which a match is under way: it is a match of a rule; where nothing leads on, something
has matched; elsewhere the `NUL` after the buffer leads to the state that stands for its end. Each byte is
a match, if no longer one is found; no byte leads out of the states for no match and for the end. -/
theorem live_table : (∀ state ∈ live, (state ≠ 0 ∧ yyAccept state ≤ 21) ∧
      (yyBase state = 133 → yyAccept state ≠ 0 ∧ ∀ c < 33, 1 ≤ c → yyNext state c = 56) ∧
      (yyBase state ≠ 133 → yyNext state 0 = 3) ∧
      (yyBase (yyNext state 1) = 133 → yyNext state 1 = 56)) ∧
    ∀ c < 33, (1 ≤ c → yyAccept (yyNext 1 c) ≠ 0 ∧ yyNext 56 c = 56) ∧ yyNext 3 c = 56 := by
  rw [← packedNext_eq]
  decide +kernel

theorem base_jam : yyBase 56 = 133 := by decide

theorem accept_jam : yyAccept 56 = 0 := by decide

theorem live_states {state : ℕ} (h : state ∈ states) : state ∈ live ∨ state = 56 := by
  have hstates : states = live ++ [56] := by decide
  rwa [hstates, List.mem_append, List.mem_singleton] at h

theorem live_step {state : ℕ} (h : state ∈ live) (b : UInt8) : move state b ∈ live ∨ move state b = 56 := by
  have hstate : state ∈ states := List.mem_append_left [56] h
  exact live_states (same_step b ⟨hstate, rfl⟩).1

theorem verdict_jam : verdict 56 = none := if_pos accept_jam

theorem byte_next (b : UInt8) : yyAccept (move 1 b) ≠ 0 ∧ move 56 b = 56 := by
  obtain ⟨hpos, hle⟩ := yyClass_mem b
  exact (live_table.2 _ (Nat.lt_succ_of_le hle)).1 hpos

theorem jammed : Jammed move verdict 56 where
  stays b := (byte_next b).2
  silent := verdict_jam

theorem move_stuck {state : ℕ} (h : state ∈ live) (hbase : yyBase state = 133) (b : UInt8) :
    move state b = 56 := by
  obtain ⟨hpos, hle⟩ := yyClass_mem b
  exact ((live_table.1 _ h).2.1 hbase).2 _ (Nat.lt_succ_of_le hle) hpos

theorem accept_first (b : UInt8) : yyAccept (move 1 b) ≠ 0 := (byte_next b).1

/-! ### What has matched -/

/-- The state after a text. -/
def after (u : List UInt8) : ℕ := u.foldl move 1

/-- The longest match of a text that is shorter than the text. -/
def back (u : List UInt8) : Option (ℕ × ℕ) := backup move verdict 1 u

theorem after_concat (u : List UInt8) (b : UInt8) : after (u ++ [b]) = move (after u) b := by
  unfold after
  rw [List.foldl_append, List.foldl_cons, List.foldl_nil]

theorem back_concat (u : List UInt8) (b : UInt8) :
    back (u ++ [b]) = (shift u.length (here (verdict (after u)))).or (back u) := backup_concat u b 1

/-- The match at the start of an input whose first part has been read. -/
theorem munch_read (u rest : List UInt8) : munch move verdict 1 (u ++ rest) =
    (shift u.length (munch move verdict (after u) rest)).or (back u) := munch_append u rest 1

/-- No match ends behind the text. -/
theorem munch_ended {u rest : List UInt8} (b : UInt8)
    (h : munch move verdict (after u) rest = here (verdict (after u))) :
    munch move verdict 1 (u ++ rest) = back (u ++ [b]) := by
  rw [munch_read, h, back_concat]

theorem back_ne_none {u : List UInt8} (hu : u ≠ []) (b : UInt8) : back (u ++ [b]) ≠ none := by
  obtain ⟨c, u, rfl⟩ := List.exists_cons_of_ne_nil hu
  have hv : verdict (move 1 c) = some (yyAccept (move 1 c)) := if_neg (accept_first c)
  obtain ⟨d, l, hl⟩ : ∃ d l, u ++ [b] = d :: l := List.exists_cons_of_ne_nil (by simp)
  rw [List.cons_append, back, backup, hl, backup, hv]
  cases backup move verdict (move (move 1 c) d) l with
  | none => exact Option.some_ne_none _
  | some p => exact Option.some_ne_none _

/-- The registers for backing up, after a text that starts at a position. -/
def Kept (state yyCp yyBp : ℕ) (u : List UInt8) : Prop :=
  ∀ n v, back u = some (n, v) → yyCp = yyBp + n ∧ yyAccept state = v

theorem kept_nil (state yyCp yyBp : ℕ) : Kept state yyCp yyBp [] := by
  intro n v h
  cases h

/-- The scanner with other registers. -/
def keeping (s : Scanner) (state yyCp : ℕ) : Scanner :=
  { s with yyLastAcceptingState := state, yyLastAcceptingCpos := yyCp }

theorem note_spec {s : Scanner} {yyBp : ℕ} {u : List UInt8} (b : UInt8)
    (h : Kept s.yyLastAcceptingState s.yyLastAcceptingCpos yyBp u) :
    ∃ i p, s.note (after u) (yyBp + u.length) = keeping s i p ∧ Kept i p yyBp (u ++ [b]) := by
  unfold Scanner.note
  by_cases hacc : yyAccept (after u) = 0
  · refine ⟨s.yyLastAcceptingState, s.yyLastAcceptingCpos, if_neg (not_not.mpr hacc), ?_⟩
    intro n v hback
    rw [back_concat, verdict, if_pos hacc] at hback
    exact h n v hback
  · refine ⟨after u, yyBp + u.length, if_pos hacc, ?_⟩
    intro n v hback
    rw [back_concat, verdict, if_neg hacc] at hback
    cases hback
    exact ⟨rfl, rfl⟩

theorem previousState_spec {yyBp : ℕ} : ∀ (l u : List UInt8) {s : Scanner},
    Kept s.yyLastAcceptingState s.yyLastAcceptingCpos yyBp u →
    ∃ i p, previousState l (yyBp + u.length) (after u) s = (keeping s i p, after (u ++ l)) ∧
      Kept i p yyBp (u ++ l)
  | [], u, s, h => by
    rw [List.append_nil]
    exact ⟨_, _, rfl, h⟩
  | b :: l, u, s, h => by
    obtain ⟨i, p, hnote, hkept⟩ := note_spec b h
    obtain ⟨i', p', hrest, hkept'⟩ := previousState_spec l (u ++ [b]) (s := keeping s i p) hkept
    rw [List.append_assoc, List.singleton_append] at hrest hkept'
    refine ⟨i', p', ?_, hkept'⟩
    have hsame : keeping s i' p' = keeping (keeping s i p) i' p' := rfl
    rw [previousState, hnote, ← move, ← after_concat, hsame, ← hrest, List.length_append,
      List.length_singleton, Nat.add_assoc]

theorem live_after (u : List UInt8) : after u ∈ live ∨ after u = 56 := by
  induction u using List.reverseRecOn with
  | nil => exact Or.inl live_start
  | append_singleton u b ih =>
    rw [after_concat]
    rcases ih with h | h
    · exact live_step h b
    · rw [h]
      exact Or.inr (jammed.stays b)

/-- A match is one of the rules. -/
theorem munch_act {input : List UInt8} {n yyAct : ℕ} (h : munch move verdict 1 input = some (n, yyAct)) :
    yyAct ≠ 0 ∧ yyAct ≤ 21 := by
  obtain ⟨-, hv⟩ := munch_sound h
  have hafter : (input.take n).foldl move 1 = after (input.take n) := rfl
  rw [hafter, verdict] at hv
  split at hv
  · cases hv
  · next hne =>
    cases hv
    rcases live_after (input.take n) with hlive | hjam
    · exact ⟨hne, (live_table.1 _ hlive).1.2⟩
    · exact absurd (hjam ▸ accept_jam) hne

/-! ### The buffer -/

/-- What is known of a scanner at all times. -/
structure Wf (s : Scanner) : Prop where
  pending : s.yyBufferStatus = .eofPending → s.yyin = []
  size : 0 < s.yyBufSize

/-- The buffer from a position on: the text that has been read, and what is left of it. -/
structure Window (s : Scanner) (yyBp : ℕ) (u v : List UInt8) : Prop where
  le : yyBp ≤ s.yyNChars
  text : s.yyChBuf.drop yyBp = u ++ v

variable {s : Scanner} {yyBp : ℕ} {u v : List UInt8}

theorem Window.length (h : Window s yyBp u v) : s.yyNChars = yyBp + u.length + v.length := by
  have hlen := congrArg List.length h.text
  rw [List.length_drop, List.length_append] at hlen
  have := h.le
  unfold Scanner.yyNChars at this ⊢
  omega

theorem Window.byte (h : Window s yyBp u v) : s.byte (yyBp + u.length) = v.headD 0 := by
  have hget : (s.yyChBuf.drop yyBp)[u.length]? = v.head? := by
    rw [h.text, List.getElem?_append_right le_rfl, Nat.sub_self, List.head?_eq_getElem?]
  rw [List.getElem?_drop] at hget
  unfold Scanner.byte
  rw [List.getD_eq_getElem?_getD, hget, List.headD_eq_head?_getD]

theorem Window.slice (h : Window s yyBp u v) : s.slice yyBp (yyBp + u.length) = u := by
  unfold Scanner.slice
  rw [h.text, Nat.add_sub_cancel_left, List.take_left]

theorem lt_grow {size n : ℕ} (hsize : 0 < size) : n + 1 < grow size n := by
  induction size using grow.induct n with
  | case1 size h ih =>
    unfold grow
    rw [if_pos h]
    exact ih (by omega)
  | case2 size h =>
    unfold grow
    rw [if_neg h]
    omega

theorem grow_pos {size n : ℕ} (hsize : 0 < size) : 0 < grow size n :=
  (Nat.succ_pos n).trans (lt_grow hsize)

/-- What is read is the next part of the input, and not nothing. -/
theorem yyInput_spec (interactive : Bool) {maxSize : ℕ} (hmax : 0 < maxSize) (yyin : List UInt8) :
    yyInput interactive maxSize yyin ++ yyin.drop (yyInput interactive maxSize yyin).length = yyin ∧
      (yyInput interactive maxSize yyin = [] ↔ yyin = []) := by
  obtain ⟨k, hk, hread⟩ : ∃ k, 0 < k ∧ yyInput interactive maxSize yyin = yyin.take k := by
    cases interactive with
    | false => exact ⟨maxSize, hmax, rfl⟩
    | true => exact ⟨_, lt_min hmax (Nat.succ_pos _), rfl⟩
  rw [hread]
  constructor
  · rw [List.length_take]
    rcases le_total k yyin.length with hle | hle
    · rw [min_eq_left hle, List.take_append_drop]
    · rw [min_eq_right hle, List.take_of_length_le hle, List.drop_length, List.append_nil]
  · rw [List.take_eq_nil_iff]
    exact or_iff_right (Nat.pos_iff_ne_zero.mp hk)

/-! ### Where the scanner gets to -/

/-- Between two matches: the input that is left, in the buffer and behind it. -/
structure Ready (s : Scanner) (input : List UInt8) : Prop where
  wf : Wf s
  le : s.yyCBufP ≤ s.yyNChars
  input : s.yyChBuf.drop s.yyCBufP ++ s.yyin = input

/-- The scanner has cut off the longest match, or there is no input. -/
inductive Outcome (input : List UInt8) : Scanner × Control → Prop
  | eof {s : Scanner} (hinput : input = []) (h : Ready s []) : Outcome input (s, .returned none)
  | found {s : Scanner} {yyCp n yyAct : ℕ} {w : List UInt8}
      (hmunch : munch move verdict 1 input = some (n, yyAct))
      (hw : Window s s.yytextPtr (input.take n) w) (hrest : w ++ s.yyin = input.drop n)
      (hcp : yyCp = s.yytextPtr + n) (hp : s.yyCBufP = yyCp) (wf : Wf s) :
      Outcome input (s, .doAction s.yytextPtr yyCp yyAct)

/-- At `yy_find_action` the longest match is taken that has been seen. -/
theorem findAction_spec (hwf : Wf s) (hw : Window s yyBp u v)
    (hk : yyAccept (after u) = 0 → Kept s.yyLastAcceptingState s.yyLastAcceptingCpos yyBp u) (b : UInt8)
    (hu : back (u ++ [b]) ≠ none)
    (hmunch : munch move verdict 1 (u ++ v ++ s.yyin) = back (u ++ [b])) :
    Outcome (u ++ v ++ s.yyin) (step (s, .yyFindAction yyBp (yyBp + u.length) (after u))) := by
  obtain ⟨⟨n, yyAct⟩, hback⟩ := Option.ne_none_iff_exists'.mp hu
  have hn : n ≤ u.length := by
    have hlt := backup_lt hback
    rw [List.length_append, List.length_singleton] at hlt
    omega
  have hwindow : ∀ s' : Scanner, s'.yyChBuf = s.yyChBuf → s'.yytextPtr = yyBp →
      Window s' s'.yytextPtr ((u ++ v ++ s.yyin).take n) (u.drop n ++ v) := by
    intro s' hbuf hptr
    constructor
    · unfold Scanner.yyNChars
      rw [hbuf, hptr]
      exact hw.le
    · rw [hbuf, hptr, hw.text, List.append_assoc, List.take_append_of_le_length hn, ← List.append_assoc,
        List.take_append_drop]
  have hdrop : u.drop n ++ v ++ s.yyin = (u ++ v ++ s.yyin).drop n := by
    rw [List.append_assoc u, List.drop_append_of_le_length hn, List.append_assoc]
  have hcases := hback
  rw [back_concat] at hcases
  by_cases hacc : yyAccept (after u) = 0
  · rw [verdict, if_pos hacc] at hcases
    obtain ⟨hp, hact⟩ := hk hacc n yyAct hcases
    simp only [step, if_pos hacc]
    exact .found (hmunch.trans (hact ▸ hback)) (hwindow _ rfl rfl) hdrop hp rfl
      ⟨hwf.pending, hwf.size⟩
  · rw [verdict, if_neg hacc] at hcases
    cases hcases
    simp only [step, if_neg hacc]
    exact .found (hmunch.trans hback) (hwindow _ rfl rfl) hdrop rfl rfl ⟨hwf.pending, hwf.size⟩

/-! ### The end of the buffer -/

theorem yyEc_le (b : UInt8) : yyEc b ≤ 32 := by
  by_cases hb : b = 0
  · rw [hb]
    decide
  · have hclass : yyClass b = yyEc b := if_neg hb
    exact hclass ▸ (yyClass_mem b).2

theorem step_match (hw : Window s yyBp u v) :
    step (s, .yyMatch yyBp (yyBp + u.length) (after u)) =
      (s.note (after u) (yyBp + u.length),
        if yyBase (yyNext (after u) (yyEc (v.headD 0))) ≠ 133
        then .yyMatch yyBp (yyBp + u.length + 1) (yyNext (after u) (yyEc (v.headD 0)))
        else .yyFindAction yyBp (yyBp + u.length + 1) (yyNext (after u) (yyEc (v.headD 0)))) := by
  simp only [step, hw.byte]

/-- A scanner that has taken a text with the `NUL` after it. -/
def taken (s : Scanner) (yyBp yyCp : ℕ) : Scanner :=
  { s with yytextPtr := yyBp, yyCBufP := yyCp, yyLastAcceptingState := 3, yyLastAcceptingCpos := yyCp }

/-- A `NUL` is taken for the end of the buffer at first. -/
theorem eob_steps (hw : Window s yyBp u v) (hlive : after u ∈ live) (hbase : yyBase (after u) ≠ 133)
    (hv : v.headD 0 = 0) : step^[3] (s, .yyMatch yyBp (yyBp + u.length) (after u)) =
      (taken s yyBp (yyBp + u.length + 1), .doAction yyBp (yyBp + u.length + 1) 23) := by
  have hzero : yyEc 0 = 0 := by decide
  have hbase3 : yyBase 3 ≠ 133 := by decide
  have hacc3 : yyAccept 3 = 23 := by decide
  obtain ⟨i, p, hnote⟩ : ∃ i p, s.note (after u) (yyBp + u.length) = keeping s i p := by
    unfold Scanner.note
    split
    · exact ⟨_, _, rfl⟩
    · exact ⟨s.yyLastAcceptingState, s.yyLastAcceptingCpos, rfl⟩
  have h1 : step (s, .yyMatch yyBp (yyBp + u.length) (after u)) =
      (keeping s i p, .yyMatch yyBp (yyBp + u.length + 1) 3) := by
    rw [step_match hw, hnote, hv, hzero, (live_table.1 _ hlive).2.2.1 hbase, if_pos hbase3]
  have hnote3 : (keeping s i p).note 3 (yyBp + u.length + 1) = keeping s 3 (yyBp + u.length + 1) :=
    if_pos (by rw [hacc3]; decide)
  have h2 : step (keeping s i p, .yyMatch yyBp (yyBp + u.length + 1) 3) =
      (keeping s 3 (yyBp + u.length + 1), .yyFindAction yyBp (yyBp + u.length + 1 + 1) 56) := by
    simp only [step, hnote3, (live_table.2 _ (Nat.lt_succ_of_le (yyEc_le _))).2, base_jam, ne_eq, not_true_eq_false, if_false]
  have h3 : step (keeping s 3 (yyBp + u.length + 1), .yyFindAction yyBp (yyBp + u.length + 1 + 1) 56) =
      (taken s yyBp (yyBp + u.length + 1), .doAction yyBp (yyBp + u.length + 1) 23) := by
    simp only [step, if_pos accept_jam]
    rfl
  rw [Function.iterate_succ_apply, h1, Function.iterate_succ_apply, h2, Function.iterate_one, h3]

/-- The state is found again from the start of the text. -/
theorem previous_spec (hw : Window s s.yytextPtr u v) (hp : s.yyCBufP = s.yytextPtr + u.length) :
    ∃ i p, s.yyGetPreviousState = (keeping s i p, after u) ∧ Kept i p s.yytextPtr u := by
  have h := previousState_spec u [] (s := s) (kept_nil _ _ s.yytextPtr)
  rw [List.nil_append] at h
  obtain ⟨i, p, hprev, hkept⟩ := h
  refine ⟨i, p, ?_, hkept⟩
  unfold Scanner.yyGetPreviousState
  rw [hp, hw.slice]
  exact hprev

/-- `YY_END_OF_BUFFER` after a text and a `NUL`, with the status set. -/
theorem endOfBuffer_status (hwf : Wf s) (yyBp yyCp : ℕ) :
    ∃ t : Scanner, (if (taken s yyBp yyCp).yyBufferStatus = .new
        then { taken s yyBp yyCp with yyBufferStatus := .normal } else taken s yyBp yyCp) = t ∧
      Wf t ∧ t.yyChBuf = s.yyChBuf ∧ t.yyin = s.yyin ∧ t.yytextPtr = yyBp ∧ t.yyCBufP = yyCp := by
  by_cases hnew : (taken s yyBp yyCp).yyBufferStatus = .new
  · refine ⟨_, if_pos hnew, ⟨fun h => ?_, hwf.size⟩, rfl, rfl, rfl, rfl⟩
    cases h
  · exact ⟨_, if_neg hnew, ⟨hwf.pending, hwf.size⟩, rfl, rfl, rfl, rfl⟩

/-- The `NUL` was a byte of the input: the automaton takes it after all. -/
theorem nul_step (hwf : Wf s) (hw : Window s yyBp u (0 :: v)) (hlive : after u ∈ live) :
    ∃ s', step (taken s yyBp (yyBp + u.length + 1), .doAction yyBp (yyBp + u.length + 1) 23) =
        (s', if after (u ++ [0]) = 56 then .yyFindAction yyBp (yyBp + u.length) (after u)
          else .yyMatch yyBp (yyBp + u.length + 1) (after (u ++ [0]))) ∧
      Wf s' ∧ s'.yyChBuf = s.yyChBuf ∧ s'.yyin = s.yyin ∧
      Kept s'.yyLastAcceptingState s'.yyLastAcceptingCpos yyBp (u ++ [0]) := by
  have hlen := hw.length
  obtain ⟨t, ht, hwft, hbuf, hin, hptr, hcp⟩ := endOfBuffer_status hwf yyBp (yyBp + u.length + 1)
  have hreal : t.yyCBufP ≤ t.yyNChars := by
    unfold Scanner.yyNChars at hlen ⊢
    rw [hcp, hbuf, hlen, List.length_cons]
    omega
  have hamount : yyBp + u.length + 1 - (taken s yyBp (yyBp + u.length + 1)).yytextPtr - 1 = u.length := by
    have : (taken s yyBp (yyBp + u.length + 1)).yytextPtr = yyBp := rfl
    omega
  have hwt : Window { t with yyCBufP := t.yytextPtr + u.length } t.yytextPtr u (0 :: v) := by
    constructor
    · have hle := hw.le
      unfold Scanner.yyNChars at hle ⊢
      rw [hbuf, hptr]
      exact hle
    · rw [hptr, hbuf]
      exact hw.text
  obtain ⟨i, p, hprev, hkept⟩ := previous_spec hwt rfl
  obtain ⟨i', p', hnote, hkept'⟩ := note_spec (s := keeping { t with yyCBufP := t.yytextPtr + u.length } i p)
    0 hkept
  have hnul : (keeping { t with yyCBufP := t.yytextPtr + u.length } i p).yyTryNulTrans (after u) =
      (keeping { t with yyCBufP := t.yytextPtr + u.length } i' p',
        if after (u ++ [0]) = 56 then 0 else after (u ++ [0])) := by
    rw [after_concat]
    exact Prod.ext hnote rfl
  have hstep : step (taken s yyBp (yyBp + u.length + 1), .doAction yyBp (yyBp + u.length + 1) 23) =
      endOfBuffer (taken s yyBp (yyBp + u.length + 1)) (yyBp + u.length + 1) := rfl
  rw [hstep]
  unfold endOfBuffer
  simp only [hamount, ht, if_pos hreal, hprev, hnul]
  rw [hptr] at hkept' ⊢
  by_cases hjam : after (u ++ [0]) = 56
  · simp only [if_pos hjam, ne_eq, not_true_eq_false, if_false]
    exact ⟨_, rfl, ⟨hwft.pending, hwft.size⟩, hbuf, hin, hkept'⟩
  · have hne : after (u ++ [0]) ≠ 0 := by
      rcases live_step hlive 0 with h | h
      · rw [after_concat]
        exact (live_table.1 _ h).1.1
      · exact absurd ((after_concat u 0).trans h) hjam
    simp only [if_neg hjam, if_pos hne]
    exact ⟨_, rfl, ⟨hwft.pending, hwft.size⟩, hbuf, hin, hkept'⟩

/-- There is nothing more to read, and nothing has been read. -/
theorem nextBuffer_eof (hwf : Wf s) (hmoved : s.slice s.yytextPtr (s.yyCBufP - 1) = []) (hin : s.yyin = []) :
    ∃ s', s.yyGetNextBuffer = (.endOfFile, s') ∧ Wf s' ∧ s'.yyChBuf = [] ∧ s'.yytextPtr = 0 ∧
      s'.yyin = [] := by
  unfold Scanner.yyGetNextBuffer
  have hsize := lt_grow (n := 0) hwf.size
  simp only [hmoved, List.length_nil, if_true]
  by_cases hpending : s.yyBufferStatus = .eofPending
  · rw [if_pos hpending]
    refine ⟨_, rfl, ⟨fun h => ?_, hwf.size⟩, rfl, rfl, hin⟩
    cases h
  · have hmax : 0 < min (grow s.yyBufSize 0 - 0 - 1) 8192 := by omega
    have hread := (yyInput_spec s.yyIsInteractive hmax s.yyin).2.mpr hin
    rw [if_neg hpending, if_pos hread]
    refine ⟨_, rfl, ⟨fun h => ?_, grow_pos hwf.size⟩, rfl, rfl, ?_⟩
    · cases h
    · simp only [Scanner.yyrestart, hin, List.drop_nil]

/-- There is nothing more to read after the text. -/
theorem nextBuffer_last (hwf : Wf s) (hmoved : s.slice s.yytextPtr (s.yyCBufP - 1) = u) (hu : u ≠ [])
    (hin : s.yyin = []) :
    ∃ s', s.yyGetNextBuffer = (.lastMatch, s') ∧ Wf s' ∧ s'.yyChBuf = u ∧ s'.yytextPtr = 0 ∧
      s'.yyin = [] := by
  unfold Scanner.yyGetNextBuffer
  have hsize := lt_grow (n := u.length) hwf.size
  simp only [hmoved, if_neg hu]
  by_cases hpending : s.yyBufferStatus = .eofPending
  · rw [if_pos hpending]
    exact ⟨_, rfl, ⟨fun _ => hin, hwf.size⟩, rfl, rfl, hin⟩
  · have hmax : 0 < min (grow s.yyBufSize u.length - u.length - 1) 8192 := by omega
    have hread := (yyInput_spec s.yyIsInteractive hmax s.yyin).2.mpr hin
    have hrest : s.yyin.drop
        (yyInput s.yyIsInteractive (min (grow s.yyBufSize u.length - u.length - 1) 8192) s.yyin).length =
        [] := by
      rw [hin, List.drop_nil]
    rw [if_neg hpending, if_pos hread]
    exact ⟨_, rfl, ⟨fun _ => hrest, grow_pos hwf.size⟩, rfl, rfl, hrest⟩

/-- More is read behind the text. -/
theorem nextBuffer_more (hwf : Wf s) (hmoved : s.slice s.yytextPtr (s.yyCBufP - 1) = u)
    (hin : s.yyin ≠ []) :
    ∃ s' r, s.yyGetNextBuffer = (.continueScan, s') ∧ Wf s' ∧ s'.yyChBuf = u ++ r ∧ s'.yytextPtr = 0 ∧
      r ≠ [] ∧ r ++ s'.yyin = s.yyin := by
  unfold Scanner.yyGetNextBuffer
  have hsize := lt_grow (n := u.length) hwf.size
  have hpending : s.yyBufferStatus ≠ .eofPending := fun h => hin (hwf.pending h)
  have hmax : 0 < min (grow s.yyBufSize u.length - u.length - 1) 8192 := by omega
  obtain ⟨hsplit, hnil⟩ := yyInput_spec s.yyIsInteractive hmax s.yyin
  have hread := mt hnil.mp hin
  simp only [hmoved, if_neg hpending, if_neg hread]
  refine ⟨_, _, rfl, ⟨fun h => absurd h hpending, ?_⟩, rfl, rfl, hread, hsplit⟩
  simp only
  split
  · have := List.length_pos_iff.mpr hread
    omega
  · exact grow_pos hwf.size

/-- The buffer really ends. -/
theorem refill_step (hwf : Wf s) (hw : Window s yyBp u []) :
    ∃ t : Scanner, Wf t ∧ t.yyin = s.yyin ∧ t.slice t.yytextPtr (t.yyCBufP - 1) = u ∧
      step (taken s yyBp (yyBp + u.length + 1), .doAction yyBp (yyBp + u.length + 1) 23) =
        refilled u.length (yyBp + u.length + 1) t.yyGetNextBuffer := by
  have hlen := hw.length
  rw [List.length_nil, Nat.add_zero] at hlen
  obtain ⟨t, ht, hwft, hbuf, hin, hptr, hcp⟩ := endOfBuffer_status hwf yyBp (yyBp + u.length + 1)
  have hchars : t.yyNChars = s.yyNChars := congrArg List.length hbuf
  have hslice : t.slice t.yytextPtr (t.yyCBufP - 1) = u := by
    rw [hptr, hcp, Nat.add_sub_cancel]
    unfold Scanner.slice
    rw [hbuf]
    exact hw.slice
  have hamount : yyBp + u.length + 1 - (taken s yyBp (yyBp + u.length + 1)).yytextPtr - 1 = u.length := by
    have : (taken s yyBp (yyBp + u.length + 1)).yytextPtr = yyBp := rfl
    omega
  refine ⟨t, hwft, hin, hslice, ?_⟩
  have hstep : step (taken s yyBp (yyBp + u.length + 1), .doAction yyBp (yyBp + u.length + 1) 23) =
      endOfBuffer (taken s yyBp (yyBp + u.length + 1)) (yyBp + u.length + 1) := rfl
  rw [hstep]
  unfold endOfBuffer
  simp only [hamount, ht]
  rw [if_neg (by omega), if_neg (by omega)]

/-- After a refill the text stands at the start of the buffer, and its state is found again. -/
theorem refilled_previous {r : List UInt8} (hbuf : s.yyChBuf = u ++ r) (hptr : s.yytextPtr = 0) :
    ∃ i p, ({ s with yyCBufP := u.length } : Scanner).yyGetPreviousState =
        (keeping { s with yyCBufP := u.length } i p, after u) ∧ Kept i p 0 u := by
  have hw : Window { s with yyCBufP := u.length } s.yytextPtr u r := by
    rw [hptr]
    exact ⟨Nat.zero_le _, hbuf⟩
  have hp : u.length = s.yytextPtr + u.length := by
    rw [hptr, Nat.zero_add]
  obtain ⟨i, p, hprev, hkept⟩ := previous_spec hw hp
  have hzero : ({ s with yyCBufP := u.length } : Scanner).yytextPtr = 0 := hptr
  rw [hzero] at hkept
  exact ⟨i, p, hprev, hkept⟩

/-! ### A match -/

theorem munch_stuck (hlive : after u ∈ live ∨ after u = 56) (hbase : yyBase (after u) = 133)
    (rest : List UInt8) : munch move verdict (after u) rest = here (verdict (after u)) := by
  rcases hlive with hlive | hjam
  · refine munch_last (fun b => ?_) rest
    rw [move_stuck hlive hbase b]
    exact jammed
  · rw [hjam, munch_jammed jammed, verdict_jam, here_none]

/-- A byte that is no `NUL` is taken at once. -/
theorem byte_step {b : UInt8} (hw : Window s yyBp u (b :: v)) (hb : b ≠ 0)
    (hkept : Kept s.yyLastAcceptingState s.yyLastAcceptingCpos yyBp u) :
    ∃ i p, step (s, .yyMatch yyBp (yyBp + u.length) (after u)) = (keeping s i p,
        if yyBase (after (u ++ [b])) ≠ 133
        then .yyMatch yyBp (yyBp + (u ++ [b]).length) (after (u ++ [b]))
        else .yyFindAction yyBp (yyBp + (u ++ [b]).length) (after (u ++ [b]))) ∧
      Kept i p yyBp (u ++ [b]) := by
  obtain ⟨i, p, hnote, hkept'⟩ := note_spec b hkept
  have hclass : yyClass b = yyEc b := if_neg hb
  have hnext : yyNext (after u) (yyEc b) = after (u ++ [b]) := by
    rw [after_concat, move, hclass]
  refine ⟨i, p, ?_, hkept'⟩
  rw [step_match hw, List.headD_cons, hnext, hnote, List.length_append, List.length_singleton,
    Nat.add_assoc]

theorem window_concat {b : UInt8} (hw : Window s yyBp u (b :: v)) {s' : Scanner}
    (hbuf : s'.yyChBuf = s.yyChBuf) : Window s' yyBp (u ++ [b]) v := by
  constructor
  · have hle := hw.le
    unfold Scanner.yyNChars at hle ⊢
    rw [hbuf]
    exact hle
  · rw [hbuf, hw.text, List.append_assoc, List.singleton_append]

/-- The input ends with the text. -/
theorem last_outcome {t : Scanner} {yyCp : ℕ} (hwf : Wf t) (hin : t.yyin = [])
    (hmoved : t.slice t.yytextPtr (t.yyCBufP - 1) = u) :
    Eventually step (Outcome u) (refilled u.length yyCp t.yyGetNextBuffer) := by
  by_cases hu : u = []
  · subst hu
    obtain ⟨s', hnext, hwf', hbuf, hptr, hin'⟩ := nextBuffer_eof hwf hmoved hin
    rw [hnext]
    refine eventually_iterate (k := 1) (eventually_now ?_)
    have hready : Ready { s' with yyCBufP := s'.yytextPtr } [] := by
      refine ⟨⟨hwf'.pending, hwf'.size⟩, ?_, ?_⟩
      · rw [hptr]
        exact Nat.zero_le _
      · simp only [hbuf, hin', List.drop_nil, List.append_nil]
    exact .eof rfl hready
  · obtain ⟨s', hnext, hwf', hbuf, hptr, hin'⟩ := nextBuffer_last hwf hmoved hu hin
    rw [hnext]
    have hchars : s'.yyNChars = u.length := congrArg List.length hbuf
    obtain ⟨i, p, hprev, hkept⟩ := refilled_previous (r := []) (by rw [hbuf, List.append_nil]) hptr
    have hrefilled : refilled u.length yyCp (.lastMatch, s') =
        (keeping { s' with yyCBufP := u.length } i p, .yyFindAction 0 (0 + u.length) (after u)) := by
      simp only [refilled, hchars, hprev]
      simp only [keeping, hptr, Nat.zero_add]
    rw [hrefilled]
    have hw : Window (keeping { s' with yyCBufP := u.length } i p) 0 u [] := by
      refine ⟨Nat.zero_le _, ?_⟩
      rw [List.append_nil]
      exact hbuf
    have hall : u ++ [] ++ (keeping { s' with yyCBufP := u.length } i p).yyin = u := by
      rw [List.append_nil, keeping, hin', List.append_nil]
    have hout := findAction_spec (s := keeping { s' with yyCBufP := u.length } i p)
      ⟨hwf'.pending, hwf'.size⟩ hw (fun _ => hkept) 0 (back_ne_none hu 0) (by
        rw [hall]
        have h : munch move verdict 1 (u ++ []) = back (u ++ [0]) := munch_ended 0 rfl
        rwa [List.append_nil] at h)
    rw [hall] at hout
    exact eventually_iterate (k := 1) (eventually_now hout)

/-- More of the input has come behind the text. -/
theorem more_step {t : Scanner} {yyCp : ℕ} (hwf : Wf t) (hin : t.yyin ≠ [])
    (hmoved : t.slice t.yytextPtr (t.yyCBufP - 1) = u) :
    ∃ s' r, refilled u.length yyCp t.yyGetNextBuffer = (s', .yyMatch 0 (0 + u.length) (after u)) ∧ Wf s' ∧
      Window s' 0 u r ∧ Kept s'.yyLastAcceptingState s'.yyLastAcceptingCpos 0 u ∧ r ≠ [] ∧
      r ++ s'.yyin = t.yyin := by
  obtain ⟨s', r, hnext, hwf', hbuf, hptr, hr, hrest⟩ := nextBuffer_more hwf hmoved hin
  obtain ⟨i, p, hprev, hkept⟩ := refilled_previous hbuf hptr
  have hp : s'.yytextPtr + u.length = u.length := by
    rw [hptr, Nat.zero_add]
  refine ⟨keeping { s' with yyCBufP := u.length } i p, r, ?_, ⟨hwf'.pending, hwf'.size⟩,
    ⟨Nat.zero_le _, hbuf⟩, hkept, hr, hrest⟩
  rw [hnext]
  simp only [refilled, hp, hprev]
  simp only [keeping, hptr, Nat.zero_add]

/-- The `NUL` of the input ends the match. -/
theorem nul_outcome {s' : Scanner} (hwf : Wf s') (hw : Window s yyBp u (0 :: v)) (hu : u ≠ [])
    (hbuf : s'.yyChBuf = s.yyChBuf) (hjam : after (u ++ [0]) = 56)
    (hkept : Kept s'.yyLastAcceptingState s'.yyLastAcceptingCpos yyBp (u ++ [0])) :
    Outcome (u ++ 0 :: v ++ s'.yyin) (step (s', .yyFindAction yyBp (yyBp + u.length) (after u))) := by
  have hw' : Window s' yyBp u (0 :: v) := by
    constructor
    · have hle := hw.le
      unfold Scanner.yyNChars at hle ⊢
      rw [hbuf]
      exact hle
    · rw [hbuf]
      exact hw.text
  have hsame : yyAccept (after u) = 0 → Kept s'.yyLastAcceptingState s'.yyLastAcceptingCpos yyBp u := by
    intro hacc n yyAct hback
    refine hkept n yyAct ?_
    rw [back_concat, verdict, if_pos hacc]
    exact hback
  refine findAction_spec hwf hw' hsame 0 (back_ne_none hu 0) ?_
  rw [List.append_assoc]
  refine munch_ended 0 ?_
  rw [List.cons_append, munch, ← after_concat, hjam, munch_jammed jammed, shift_none, Option.none_or]

/-- The next byte is taken, and a match is still under way. -/
theorem live_next {b : UInt8} (hlive : after u ∈ live) (h : after (u ++ [b]) ≠ 56) :
    after (u ++ [b]) ∈ live := by
  rw [after_concat] at h ⊢
  exact (live_step hlive b).resolve_right h

/-- **The loop at `yy_match`**: after a text that has been read, the scanner cuts off the longest match of
the whole input. -/
theorem match_spec {k : ℕ} : ∀ {s : Scanner} {yyBp : ℕ} {u v : List UInt8}, Wf s → Window s yyBp u v →
    after u ∈ live → yyBase (after u) ≠ 133 →
    Kept s.yyLastAcceptingState s.yyLastAcceptingCpos yyBp u →
    v.length + 2 * s.yyin.length < k →
    Eventually step (Outcome (u ++ v ++ s.yyin)) (s, .yyMatch yyBp (yyBp + u.length) (after u)) := by
  induction k with
  | zero =>
    intro s yyBp u v _ _ _ _ _ hk
    omega
  | succ k ih =>
    intro s yyBp u v hwf hw hlive hbase hkept hk
    rcases v with _ | ⟨b, v⟩
    · -- the end of the buffer
      have heob := eob_steps hw hlive hbase rfl
      obtain ⟨t, hwft, hin, hmoved, hstep⟩ := refill_step hwf hw
      refine eventually_iterate (k := 4) ?_
      rw [Function.iterate_succ_apply', heob, hstep]
      by_cases hempty : s.yyin = []
      · rw [hempty, List.append_nil, List.append_nil]
        exact last_outcome hwft (hin.trans hempty) hmoved
      · obtain ⟨s', r, hmore, hwf', hw', hkept', hr, hrest⟩ := more_step hwft (by rwa [hin]) hmoved
        have hall : u ++ [] ++ s.yyin = u ++ r ++ s'.yyin := by
          rw [List.append_nil, List.append_assoc, hrest, hin]
        have hpos := List.length_pos_iff.mpr hr
        have hlen := congrArg List.length (hrest.trans hin)
        rw [List.length_append] at hlen
        rw [List.length_nil] at hk
        rw [hmore, hall]
        exact ih hwf' hw' hlive hbase hkept' (by omega)
    · rw [List.length_cons] at hk
      have hall : u ++ b :: v ++ s.yyin = u ++ [b] ++ v ++ s.yyin := by
        rw [List.append_assoc u [b], List.singleton_append]
      by_cases hb : b = 0
      · -- a `NUL` of the input
        subst hb
        have heob := eob_steps hw hlive hbase rfl
        obtain ⟨s', hstep, hwf', hbuf, hin, hkept'⟩ := nul_step hwf hw hlive
        refine eventually_iterate (k := 4) ?_
        rw [Function.iterate_succ_apply', heob, hstep, ← hin]
        by_cases hjam : after (u ++ [0]) = 56
        · have hu : u ≠ [] := by
            rintro rfl
            have hfirst : move 1 0 = 56 := hjam
            exact accept_first 0 (hfirst ▸ accept_jam)
          rw [if_pos hjam]
          exact eventually_iterate (k := 1) (eventually_now (nul_outcome hwf' hw hu hbuf hjam hkept'))
        · have hbase' : yyBase (after (u ++ [0])) ≠ 133 := by
            intro h
            rw [after_concat] at h hjam
            exact hjam ((live_table.1 _ hlive).2.2.2 h)
          have hlen : yyBp + u.length + 1 = yyBp + (u ++ [(0 : UInt8)]).length := by
            rw [List.length_append, List.length_singleton, Nat.add_assoc]
          rw [if_neg hjam, hin, hall, ← hin, hlen]
          exact ih hwf' (window_concat hw hbuf) (live_next hlive hjam) hbase' hkept' (by rw [hin]; omega)
      · obtain ⟨i, p, hstep, hkept'⟩ := byte_step hw hb hkept
        refine eventually_iterate (k := 1) ?_
        rw [Function.iterate_one, hstep, hall]
        by_cases hbase' : yyBase (after (u ++ [b])) = 133
        · rw [if_neg (not_not.mpr hbase')]
          have hnext : after (u ++ [b]) ∈ live ∨ after (u ++ [b]) = 56 := by
            rw [after_concat]
            exact live_step hlive b
          have hout := findAction_spec (s := keeping s i p) ⟨hwf.pending, hwf.size⟩
            (window_concat hw rfl) (fun _ => hkept') 0 (back_ne_none (by simp) 0) (by
              rw [List.append_assoc (u ++ [b])]
              exact munch_ended 0 (munch_stuck hnext hbase' _))
          exact eventually_iterate (k := 1) (eventually_now hout)
        · have hjam : after (u ++ [b]) ≠ 56 := fun h => hbase' (h ▸ base_jam)
          have hfuel : v.length + 2 * s.yyin.length < k := by omega
          rw [if_pos hbase']
          exact ih (s := keeping s i p) ⟨hwf.pending, hwf.size⟩ (window_concat hw rfl)
            (live_next hlive hjam) hbase' hkept' hfuel

/-- One match, from the head of the outer loop. -/
theorem scan_spec {input : List UInt8} (h : Ready s input) : Eventually step (Outcome input) (s, .scan) := by
  have hbase : yyBase (after []) ≠ 133 := by decide
  have hw : Window s s.yyCBufP [] (s.yyChBuf.drop s.yyCBufP) := ⟨h.le, rfl⟩
  have hmatch := match_spec h.wf hw live_start hbase (kept_nil _ _ _) (Nat.lt_succ_self _)
  rw [List.nil_append, h.input] at hmatch
  exact eventually_iterate (k := 1) hmatch

/-! ### Tokens -/

/-- `yylex` does the same from both. -/
theorem yylex_scan {s' : Scanner} {k : ℕ} (h : step^[k] (s, .scan) = (s', .scan)) {t : Option Token}
    {s'' : Scanner} (hs : Yylex s' t s'') : Yylex s t s'' := by
  obtain ⟨n, hn⟩ := hs
  refine ⟨n + k, ?_⟩
  rw [Function.iterate_add_apply, h, hn]

/-- At the end of the input `yylex` returns `END`, and will again. -/
theorem yylex_eof (h : Ready s []) : ∃ s', Yylex s none s' ∧ Ready s' [] := by
  obtain ⟨n, hn⟩ := scan_spec h
  generalize hc : step^[n] (s, .scan) = c at hn
  cases hn with
  | eof _ hready => exact ⟨_, ⟨n, hc⟩, hready⟩
  | found hmunch _ _ _ _ _ => cases hmunch

/-- What the rule of the longest match says is done. -/
theorem yylex_match {input : List UInt8} (h : Ready s input) (hne : input ≠ []) :
    ∃ n yyAct s', munch move verdict 1 input = some (n, yyAct) ∧ Ready s' (input.drop n) ∧
      (∀ t, action yyAct ((input.take n).map byteChar) = some t → Yylex s (some t) s') ∧
      (action yyAct ((input.take n).map byteChar) = none →
        ∀ t s'', Yylex s' t s'' → Yylex s t s'') := by
  obtain ⟨k, hk⟩ := scan_spec h
  generalize hc : step^[k] (s, .scan) = c at hk
  cases hk with
  | eof hinput _ => exact absurd hinput hne
  | @found s' yyCp n yyAct w hmunch hw hrest hcp hp wf =>
    have hn : n = (input.take n).length := (List.length_take_of_le (munch_sound hmunch).1).symm
    have hlen := hw.length
    rw [← hn] at hlen
    obtain ⟨hpos, hle⟩ := munch_act hmunch
    have hslice : s'.slice s'.yytextPtr yyCp = input.take n := by
      have hslice' := hw.slice
      rwa [← hn, ← hcp] at hslice'
    have hready : Ready s' (input.drop n) := by
      refine ⟨wf, by omega, ?_⟩
      rw [hp, hcp, ← List.drop_drop, hw.text, List.drop_left' hn.symm, hrest]
    refine ⟨n, yyAct, s', hmunch, hready, ?_, ?_⟩
    · intro t ht
      refine ⟨k + 1, ?_⟩
      rw [Function.iterate_succ_apply', hc]
      simp only [step, if_neg hpos, if_pos (hle.trans (Nat.le_succ 21)), hslice, ht]
    · intro ht t s'' hs
      refine yylex_scan (k := k + 1) ?_ hs
      rw [Function.iterate_succ_apply', hc]
      simp only [step, if_neg hpos, if_pos (hle.trans (Nat.le_succ 21)), hslice, ht]

theorem calls_of_yylex {s s' s'' : Scanner} {ts : List Token} (h : ∀ t s₁, Yylex s' t s₁ → Yylex s t s₁)
    (hs : Calls s' ts s'') : Calls s ts s'' := by
  cases hs with
  | eof hs => exact .eof (h _ _ hs)
  | token ht hs => exact .token (h _ _ ht) hs

/-- The calls of `yylex` up to the first `END` return what the rules say. -/
theorem calls_scan : ∀ {n : ℕ} {s : Scanner} {input : List UInt8}, input.length ≤ n → Ready s input →
    ∃ s', Calls s (scan rules n (input.map byteChar)) s' ∧ Ready s' []
  | n, s, [], _, h => by
    obtain ⟨s', hs, h'⟩ := yylex_eof h
    have hscan : scan rules n ([].map byteChar) = [] := by cases n <;> rfl
    rw [hscan]
    exact ⟨s', .eof hs, h'⟩
  | 0, s, b :: input, hn, h => absurd hn (by simp)
  | n + 1, s, b :: input, hn, h => by
    obtain ⟨m, yyAct, s', hmunch, hready, hsome, hnone⟩ := yylex_match h (List.cons_ne_nil b input)
    have htable := best_eq_table (b :: input)
    rw [hmunch, Option.map_some, Option.map_eq_some_iff] at htable
    obtain ⟨r, hbest, hr⟩ := htable
    obtain ⟨m', r⟩ := r
    simp only [Prod.mk.injEq] at hr
    obtain ⟨rfl, haction⟩ := hr
    have hpos := best_pos positive_rules hbest
    have hlen : ((b :: input).drop m').length ≤ n := by
      rw [List.length_drop, List.length_cons]
      rw [List.length_cons] at hn
      omega
    obtain ⟨s'', hcalls, hready'⟩ := calls_scan hlen hready
    refine ⟨s'', ?_, hready'⟩
    rw [List.map_cons] at hbest
    rw [List.map_cons, scan, hbest]
    simp only [haction]
    rw [← List.map_cons, ← List.map_take, ← List.map_drop]
    cases hact : action yyAct (((b :: input).take m').map byteChar) with
    | none =>
      rw [Option.toList_none, List.nil_append]
      exact calls_of_yylex (hnone hact) hcalls
    | some t =>
      rw [Option.toList_some, List.singleton_append]
      exact .token (hsome t hact) hcalls

/-! ### Only these tokens -/

theorem yylex_unique {t t' : Option Token} {s' s'' : Scanner} (h : Yylex s t s') (h' : Yylex s t' s'') :
    t = t' ∧ s' = s'' := by
  have hstay : ∀ n (s : Scanner) t, step^[n] (s, .returned t) = (s, .returned t) := fun n s t =>
    Function.iterate_fixed rfl n
  obtain ⟨n, hn⟩ := h
  obtain ⟨m, hm⟩ := h'
  have hsame : step^[m + n] (s, .scan) = step^[n + m] (s, .scan) := by rw [Nat.add_comm]
  rw [Function.iterate_add_apply, hn, hstay, Function.iterate_add_apply, hm, hstay] at hsame
  simp only [Prod.mk.injEq, Control.returned.injEq] at hsame
  exact ⟨hsame.2, hsame.1⟩

theorem calls_unique {ts : List Token} {s' : Scanner} (h : Calls s ts s') :
    ∀ {ts' : List Token} {s'' : Scanner}, Calls s ts' s'' → ts = ts' ∧ s' = s'' := by
  induction h with
  | eof h =>
    intro ts' s'' h'
    cases h' with
    | eof h' => exact ⟨rfl, (yylex_unique h h').2⟩
    | token h' _ => cases (yylex_unique h h').1
  | token h _ ih =>
    intro ts' s'' h'
    cases h' with
    | eof h' => cases (yylex_unique h h').1
    | token h' hs' =>
      obtain ⟨heq, rfl⟩ := yylex_unique h h'
      cases heq
      obtain ⟨rfl, hs⟩ := ih hs'
      exact ⟨rfl, hs⟩

theorem ready_create (interactive : Bool) (input : List UInt8) : Ready (create interactive input) input where
  wf := by
    refine ⟨fun h => ?_, Nat.succ_pos 16383⟩
    cases h
  le := le_rfl
  input := rfl

/-- What the calls of `yylex` return. -/
theorem calls_lex {interactive : Bool} {input : List UInt8} {ts : List Token} {s : Scanner}
    (h : Calls (create interactive input) ts s) : ts = lex (input.map byteChar) := by
  obtain ⟨s', hcalls, -⟩ := calls_scan le_rfl (ready_create interactive input)
  have hlen : (input.map byteChar).length = input.length := List.length_map _
  rw [(calls_unique h hcalls).1, lex, hlen]

/-- **The generated scanner returns the tokens of the rules**, from a terminal as from a file, and `END`
each time it is called after that. -/
theorem yylex_lex (interactive : Bool) (input : List UInt8) :
    (∃ ended : ℕ → Scanner, Calls (create interactive input) (lex (input.map byteChar)) (ended 0) ∧
      ∀ n, Yylex (ended n) none (ended (n + 1))) ∧
    ∀ ts s, Calls (create interactive input) ts s → ts = lex (input.map byteChar) := by
  have hlen : (input.map byteChar).length = input.length := List.length_map _
  obtain ⟨s, hcalls, hready⟩ := calls_scan le_rfl (ready_create interactive input)
  have hlex : scan rules input.length (input.map byteChar) = lex (input.map byteChar) := by
    rw [lex, hlen]
  rw [hlex] at hcalls
  refine ⟨?_, fun ts s' h => calls_lex h⟩
  have hnext : ∀ t : { t : Scanner // Ready t [] }, ∃ t' : { t : Scanner // Ready t [] }, Yylex t.1 none t'.1 := by
    intro t
    obtain ⟨t', ht, hready'⟩ := yylex_eof t.2
    exact ⟨⟨t', hready'⟩, ht⟩
  choose next hnext using hnext
  refine ⟨fun n => (next^[n] ⟨s, hready⟩).1, hcalls, fun n => ?_⟩
  simp only [Function.iterate_succ_apply']
  exact hnext _

end Eecs678.Quash.LexRefines
