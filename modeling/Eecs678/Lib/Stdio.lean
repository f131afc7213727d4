import Mathlib.Algebra.Order.Ring.Nat
import Mathlib.Data.List.Basic

/-!
# Reading a text with `fgets`

`takeLine` is one call of `fgets`, and `calls` are the calls on a text, one after the other, up to its
end. Together they give the text (`flatten_calls`). `calls_line` and `calls_last` are the calls on lines
that fit into the buffer: the flag `feof` is set by the last one only if its line has no newline.
-/

namespace Eecs678.Lib.Stdio

/-- What a call of `fgets` with room for `n` characters takes from a text, what it leaves, and whether it
has met the end of the text. -/
def takeLine : ℕ → List Char → List Char × List Char × Bool
  | 0, text => ([], text, false)
  | _ + 1, [] => ([], [], true)
  | n + 1, c :: text =>
    if c = '\n' then ([c], text, false)
    else
      let (line, rest, eof) := takeLine n text
      (c :: line, rest, eof)

/-- What the calls of `fgets` to come give, each with `feof` after it. When none is left, a call gives
`NULL` and `feof` is set. -/
abbrev Stream := List (List Char × Bool)

/-- The first `k` calls, for a buffer of `size` characters. -/
def callsN (size : ℕ) : ℕ → List Char → Stream
  | 0, _ => []
  | k + 1, text =>
    let call := takeLine (size - 1) text
    if call.1 = [] then [] else (call.1, call.2.2) :: callsN size k call.2.1

/-- The calls on a text. Each takes a character, so there are no more of them than characters. -/
def calls (size : ℕ) (text : List Char) : Stream := callsN size text.length text

/-- A call of `fgets`: the buffer after it, with `feof`, and the calls after it. -/
def fgets (buf : List Char) : Stream → (List Char × Bool) × Stream
  | [] => ((buf, true), [])
  | call :: stream => (call, stream)

variable {n size : ℕ} {line text : List Char}

/-! ### One call -/

theorem takeLine_append : ∀ (n : ℕ) (text : List Char),
    (takeLine n text).1 ++ (takeLine n text).2.1 = text
  | 0, _ => rfl
  | _ + 1, [] => rfl
  | n + 1, c :: text => by
    unfold takeLine
    split_ifs
    · rfl
    · exact congrArg (c :: ·) (takeLine_append n text)

theorem takeLine_ne_nil (hn : 0 < n) (htext : text ≠ []) : (takeLine n text).1 ≠ [] := by
  obtain ⟨n, rfl⟩ := Nat.exists_eq_succ_of_ne_zero hn.ne'
  obtain ⟨c, text, rfl⟩ := List.exists_cons_of_ne_nil htext
  unfold takeLine
  split_ifs
  · exact List.cons_ne_nil c []
  · exact List.cons_ne_nil c _

/-- A line that fits. -/
theorem takeLine_line : ∀ {n : ℕ} {line : List Char}, '\n' ∉ line → line.length < n →
    ∀ text, takeLine n (line ++ '\n' :: text) = (line ++ ['\n'], text, false)
  | n + 1, [], _, _, text => rfl
  | n + 1, c :: line, hline, hlen, text => by
    obtain ⟨hc, hline⟩ := not_or.mp (mt List.mem_cons.mpr hline)
    have ih := takeLine_line hline (Nat.lt_of_succ_lt_succ hlen) text
    rw [List.cons_append, takeLine, if_neg (Ne.symm hc), ih]
    rfl

/-- The end of the text before the newline, and before the buffer is full. -/
theorem takeLine_last : ∀ {n : ℕ} {line : List Char}, '\n' ∉ line → line.length < n →
    takeLine n line = (line, [], true)
  | n + 1, [], _, _ => rfl
  | n + 1, c :: line, hline, hlen => by
    obtain ⟨hc, hline⟩ := not_or.mp (mt List.mem_cons.mpr hline)
    have ih := takeLine_last hline (Nat.lt_of_succ_lt_succ hlen)
    rw [takeLine, if_neg (Ne.symm hc), ih]

/-! ### All calls -/

theorem callsN_nil (size k : ℕ) : callsN size k [] = [] := by
  cases k with
  | zero => rfl
  | succ k =>
    unfold callsN
    cases hsize : size - 1 with
    | zero => rfl
    | succ m => rfl

theorem callsN_succ (k : ℕ) (hne : (takeLine (size - 1) text).1 ≠ []) :
    callsN size (k + 1) text = ((takeLine (size - 1) text).1, (takeLine (size - 1) text).2.2) ::
      callsN size k (takeLine (size - 1) text).2.1 := by
  rw [callsN]
  exact if_neg hne

/-- A call takes something, while there is text left. -/
theorem length_rest_lt (hsize : 2 ≤ size) (htext : text ≠ []) :
    (takeLine (size - 1) text).1 ≠ [] ∧ (takeLine (size - 1) text).2.1.length < text.length := by
  have hne := takeLine_ne_nil (n := size - 1) (by omega) htext
  have hlen := congrArg List.length (takeLine_append (size - 1) text)
  have hpos := List.length_pos_of_ne_nil hne
  rw [List.length_append] at hlen
  exact ⟨hne, by omega⟩

/-- More calls than characters change nothing. -/
theorem callsN_eq (hsize : 2 ≤ size) : ∀ {k m : ℕ} {text : List Char}, text.length ≤ k →
    text.length ≤ m → callsN size k text = callsN size m text
  | k, m, [], _, _ => by rw [callsN_nil, callsN_nil]
  | k + 1, m + 1, c :: text, hk, hm => by
    obtain ⟨hne, hlt⟩ := length_rest_lt hsize (List.cons_ne_nil c text)
    rw [callsN_succ k hne, callsN_succ m hne,
      callsN_eq hsize (k := k) (m := m) (by omega) (by omega)]

/-- **The next call**, when there is text left. -/
theorem calls_eq (hsize : 2 ≤ size) (htext : text ≠ []) :
    calls size text = ((takeLine (size - 1) text).1, (takeLine (size - 1) text).2.2) ::
      calls size (takeLine (size - 1) text).2.1 := by
  obtain ⟨hne, hlt⟩ := length_rest_lt hsize htext
  unfold calls
  obtain ⟨k, hk⟩ := Nat.exists_eq_succ_of_ne_zero (List.length_pos_of_ne_nil htext).ne'
  rw [hk, callsN_succ k hne, callsN_eq hsize (by omega) le_rfl]

theorem calls_line (hline : '\n' ∉ line) (hlen : line.length + 1 < size) (text : List Char) :
    calls size (line ++ '\n' :: text) = (line ++ ['\n'], false) :: calls size text := by
  rw [calls_eq (by omega) (by simp), takeLine_line hline (by omega)]

theorem calls_last (hne : line ≠ []) (hline : '\n' ∉ line) (hlen : line.length + 1 < size) :
    calls size line = [(line, true)] := by
  rw [calls_eq (by omega) hne, takeLine_last hline (by omega)]
  rfl

/-- A text of lines; its last line ends in a newline or not. -/
def joined (newline : Bool) : List (List Char) → List Char
  | [] => []
  | [line] => if newline then line ++ ['\n'] else line
  | line :: line' :: lines => line ++ '\n' :: joined newline (line' :: lines)

/-- What the calls give on such a text: the flag is set after the last line, if it has no newline. -/
def lineCalls (newline : Bool) : List (List Char) → Stream
  | [] => []
  | [line] => [(if newline then line ++ ['\n'] else line, !newline)]
  | line :: line' :: lines => (line ++ ['\n'], false) :: lineCalls newline (line' :: lines)

theorem exists_lineCalls (newline : Bool) (line : List Char) : ∀ lines : List (List Char),
    ∃ call stream, lineCalls newline (line :: lines) = call :: stream
  | [] => ⟨_, _, rfl⟩
  | _ :: _ => ⟨_, _, rfl⟩

/-- A line that fits into a buffer of `size` characters. -/
structure Line (size : ℕ) (line : List Char) : Prop where
  ne_nil : line ≠ []
  newline : '\n' ∉ line
  length : line.length + 1 < size

/-- **The calls on a text of lines.** -/
theorem calls_joined {newline : Bool} : ∀ {lines : List (List Char)}, (∀ line ∈ lines, Line size line) →
    calls size (joined newline lines) = lineCalls newline lines
  | [], _ => rfl
  | [line], h => by
    have hline := h line (List.mem_singleton_self line)
    cases newline with
    | true => exact calls_line hline.newline hline.length []
    | false => exact calls_last hline.ne_nil hline.newline hline.length
  | line :: line' :: lines, h => by
    obtain ⟨hline, hlines⟩ := List.forall_mem_cons.mp h
    rw [joined, calls_line hline.newline hline.length, calls_joined hlines, lineCalls]

/-- **The calls give the text**, in order. -/
theorem flatten_calls (hsize : 2 ≤ size) (text : List Char) :
    ((calls size text).map Prod.fst).flatten = text := by
  obtain ⟨k, hk⟩ : ∃ k, text.length ≤ k := ⟨_, le_rfl⟩
  induction k generalizing text with
  | zero =>
    rw [List.eq_nil_of_length_eq_zero (Nat.le_zero.mp hk)]
    rfl
  | succ k ih =>
    by_cases htext : text = []
    · subst htext
      rfl
    · obtain ⟨-, hlt⟩ := length_rest_lt hsize htext
      rw [calls_eq hsize htext, List.map_cons, List.flatten_cons, ih _ (by omega)]
      exact takeLine_append (size - 1) text

/-! ### Up to the end of the file -/

/-- What a loop that stops as soon as `feof` is set has read before. -/
def beforeEof : Stream → List Char
  | [] => []
  | (line, eof) :: stream => if eof then [] else line ++ beforeEof stream

/-- The part of a text after its last newline. -/
def lastLine : List Char → List Char
  | [] => []
  | c :: text => if '\n' ∈ c :: text then lastLine text else c :: text

theorem lastLine_eq (h : '\n' ∉ text) : lastLine text = text := by
  cases text with
  | nil => rfl
  | cons c text => exact if_neg h

theorem lastLine_newline : ∀ line rest : List Char, lastLine (line ++ '\n' :: rest) = lastLine rest
  | [], rest => if_pos (List.mem_cons_self ..)
  | c :: line, rest => by
    rw [List.cons_append, lastLine, if_pos (by simp), lastLine_newline line rest]

theorem lastLine_append : ∀ {line : List Char} (rest : List Char), '\n' ∉ line →
    lastLine (line ++ rest) = if '\n' ∈ rest then lastLine rest else line ++ rest
  | [], rest, _ => by
    split_ifs with h
    · rfl
    · exact lastLine_eq h
  | c :: line, rest, hline => by
    obtain ⟨hc, hline⟩ := not_or.mp (mt List.mem_cons.mpr hline)
    have ih := lastLine_append rest hline
    rw [List.cons_append, lastLine, ih]
    by_cases h : '\n' ∈ rest
    · rw [if_pos (by simp [h]), if_pos h, if_pos h]
    · rw [if_neg (by simp [h, hc, hline]), if_neg h]

/-- The three ways in which a call ends: at a newline, with the buffer full, at the end of the text. -/
theorem takeLine_cases : ∀ {n : ℕ}, 0 < n → ∀ text : List Char,
    (∃ line rest, '\n' ∉ line ∧ text = line ++ '\n' :: rest ∧
      takeLine n text = (line ++ ['\n'], rest, false)) ∨
    (∃ line rest, '\n' ∉ line ∧ line.length = n ∧ text = line ++ rest ∧
      takeLine n text = (line, rest, false)) ∨
    ('\n' ∉ text ∧ text.length < n ∧ takeLine n text = (text, [], true))
  | n + 1, _, [] => .inr (.inr ⟨List.not_mem_nil, Nat.succ_pos n, rfl⟩)
  | n + 1, _, c :: text => by
    by_cases hc : c = '\n'
    · subst hc
      exact .inl ⟨[], text, List.not_mem_nil, rfl, rfl⟩
    · have hcons : takeLine (n + 1) (c :: text) =
          (c :: (takeLine n text).1, (takeLine n text).2.1, (takeLine n text).2.2) := if_neg hc
      have hmem : ∀ {line : List Char}, '\n' ∉ line → '\n' ∉ c :: line := fun h hm =>
        (List.mem_cons.mp hm).elim (fun h' => hc h'.symm) h
      rcases n.eq_zero_or_pos with rfl | hn
      · exact .inr (.inl ⟨[c], text, hmem List.not_mem_nil, rfl, rfl, hcons⟩)
      · rw [hcons]
        rcases takeLine_cases hn text with ⟨line, rest, hl, rfl, heq⟩ | ⟨line, rest, hl, hlen, rfl, heq⟩ |
          ⟨hl, hlen, heq⟩
        · exact .inl ⟨c :: line, rest, hmem hl, rfl, by rw [heq]; rfl⟩
        · exact .inr (.inl ⟨c :: line, rest, hmem hl, congrArg (· + 1) hlen, rfl, by rw [heq]⟩)
        · exact .inr (.inr ⟨hmem hl, Nat.succ_lt_succ hlen, by rw [heq]⟩)

/-- **What is lost at the end of the file:** a loop that stops at `feof` reads the whole text exactly if
its last line, when it has no newline, fills the buffer some number of times. -/
theorem beforeEof_calls_iff (hsize : 2 ≤ size) (text : List Char) :
    beforeEof (calls size text) = text ↔ size - 1 ∣ (lastLine text).length := by
  obtain ⟨k, hk⟩ : ∃ k, text.length ≤ k := ⟨_, le_rfl⟩
  induction k generalizing text with
  | zero =>
    rw [List.eq_nil_of_length_eq_zero (Nat.le_zero.mp hk)]
    exact ⟨fun _ => Nat.dvd_zero _, fun _ => rfl⟩
  | succ k ih =>
    by_cases htext : text = []
    · subst htext
      exact ⟨fun _ => Nat.dvd_zero _, fun _ => rfl⟩
    obtain ⟨-, hlt⟩ := length_rest_lt hsize htext
    rw [calls_eq hsize htext]
    rcases takeLine_cases (show 0 < size - 1 by omega) text with ⟨line, rest, hl, rfl, heq⟩ |
      ⟨line, rest, hl, hlen, rfl, heq⟩ | ⟨hl, hlen, heq⟩
    · rw [heq] at hlt ⊢
      have hih := ih rest (by simp only at hlt; omega)
      rw [lastLine_newline, ← hih, beforeEof, if_neg nofun, List.append_assoc]
      exact ⟨fun h => List.cons.inj (List.append_cancel_left h) |>.2, fun h => by rw [h]; rfl⟩
    · rw [heq] at hlt ⊢
      have hih := ih rest (by simp only at hlt; omega)
      rw [beforeEof, if_neg nofun, List.append_cancel_left_eq, hih, lastLine_append rest hl]
      split_ifs with hnew
      · rfl
      · rw [lastLine_eq hnew, List.length_append, hlen, Nat.dvd_add_right (Nat.dvd_refl _)]
    · rw [heq, lastLine_eq hl, beforeEof, if_pos rfl]
      have hpos := List.length_pos_of_ne_nil htext
      exact ⟨fun h => absurd h.symm htext, fun h => absurd (Nat.le_of_dvd hpos h) (not_le.mpr hlen)⟩

end Eecs678.Lib.Stdio
