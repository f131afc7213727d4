import Eecs678.Quash.Words
import Mathlib.Data.List.Basic

/-!
# Quotes

Which words `interpret_complex_string_token` can read. In quotes the lexer pairs each backslash with the
character behind it, but the interpreter pairs a backslash only with a quote (`Quotation`), so the two
can disagree on where a quotation ends. `interpret_iff`: the loop always comes to the end of the string,
and the assertion behind it holds for the strings of `Balanced`.
-/

namespace Eecs678.Quash.Quoting

open Eecs678.Quash.Commands Eecs678.Quash.Lexer Eecs678.Quash.Words

/-- What stands between two quotes: each quote in it directly follows a backslash, and the last
character is no backslash. -/
def Quotation (q : List Char) : Prop :=
  ('\'' :: q).IsChain (fun a b => b = '\'' → a = '\\') ∧ q.getLast? ≠ some '\\'

/-- A string whose quotations end: outside of quotes a backslash goes with the next character. -/
inductive Balanced : List Char → Prop
  | nil : Balanced []
  | last : Balanced ['\\']
  | char {c : Char} (h1 : c ≠ '\\') (h2 : c ≠ '\'') {l : List Char} (h : Balanced l) : Balanced (c :: l)
  | escape (c : Char) {l : List Char} (h : Balanced l) : Balanced ('\\' :: c :: l)
  | quote {q l : List Char} (hq : Quotation q) (h : Balanced l) : Balanced ('\'' :: (q ++ '\'' :: l))

/-- `in_quotes` behind a string, from its value before it. -/
def inQuotesAfter : List Char → Bool → Bool
  | [], b => b
  | '\'' :: l, b => inQuotesAfter l !b
  | '\\' :: c :: l, b => if b && c ≠ '\'' then inQuotesAfter (c :: l) b else inQuotesAfter l b
  | _ :: l, b => inQuotesAfter l b

/-! ### Where quotations end -/

theorem inQuotesAfter_char {c : Char} (h1 : c ≠ '\\') (h2 : c ≠ '\'') (l : List Char) (b : Bool) :
    inQuotesAfter (c :: l) b = inQuotesAfter l b := by
  rw [inQuotesAfter]
  · exact fun h => absurd h h2
  · exact fun _ _ h => absurd h h1

theorem inQuotesAfter_escape (c : Char) (l : List Char) :
    inQuotesAfter ('\\' :: c :: l) false = inQuotesAfter l false := by
  rw [inQuotesAfter, Bool.false_and, if_neg Bool.false_ne_true]

theorem inQuotesAfter_escaped (l : List Char) :
    inQuotesAfter ('\\' :: '\'' :: l) true = inQuotesAfter l true := rfl

/-- In quotes a character stands for itself, unless it is a quote or a backslash before a quote. -/
theorem inQuotesAfter_inner {c : Char} (hc : c ≠ '\'') {l : List Char}
    (hl : c = '\\' → l.head? ≠ some '\'') : inQuotesAfter (c :: l) true = inQuotesAfter l true := by
  by_cases h1 : c = '\\'
  · subst h1
    cases l with
    | nil => rfl
    | cons d l =>
      have hd : d ≠ '\'' := fun he => hl rfl (he ▸ rfl)
      simp only [inQuotesAfter, Bool.true_and, decide_eq_true hd, if_true]
  · exact inQuotesAfter_char h1 hc l true

theorem balanced_char {c : Char} (h1 : c ≠ '\\') (h2 : c ≠ '\'') {l : List Char} :
    Balanced (c :: l) ↔ Balanced l := by
  refine ⟨fun h => ?_, fun h => .char h1 h2 h⟩
  cases h with
  | last => exact absurd rfl h1
  | char _ _ h => exact h
  | escape _ _ => exact absurd rfl h1
  | quote _ _ => exact absurd rfl h2

theorem balanced_escape {c : Char} {l : List Char} : Balanced ('\\' :: c :: l) ↔ Balanced l := by
  refine ⟨fun h => ?_, fun h => .escape c h⟩
  cases h with
  | char h1 _ _ => exact absurd rfl h1
  | escape _ h => exact h

/-- The rest of a quotation. -/
def Closes (l : List Char) : Prop := ∃ q r, l = q ++ '\'' :: r ∧ Quotation q ∧ Balanced r

theorem balanced_quote {l : List Char} : Balanced ('\'' :: l) ↔ Closes l := by
  refine ⟨fun h => ?_, fun ⟨q, r, he, hq, hr⟩ => he ▸ .quote hq hr⟩
  cases h with
  | char _ h2 _ => exact absurd rfl h2
  | quote hq hr => exact ⟨_, _, rfl, hq, hr⟩

theorem closes_quote {l : List Char} : Closes ('\'' :: l) ↔ Balanced l := by
  refine ⟨fun ⟨q, r, he, hq, hr⟩ => ?_, fun h => ⟨[], l, rfl, ⟨by simp, by simp⟩, h⟩⟩
  cases q with
  | nil => exact (List.cons.inj he).2 ▸ hr
  | cons c q =>
    obtain rfl := (List.cons.inj he).1
    have hchain := (List.isChain_cons_cons.mp hq.1).1 rfl
    exact absurd hchain (by decide)

theorem quotation_escaped {q : List Char} : Quotation ('\\' :: '\'' :: q) ↔ Quotation q := by
  unfold Quotation
  rw [List.isChain_cons_cons, List.isChain_cons_cons, List.getLast?_cons_cons]
  cases q with
  | nil => simp
  | cons c q =>
    rw [List.getLast?_cons_cons]
    exact ⟨fun ⟨h1, h2⟩ => ⟨h1.2.2, h2⟩,
      fun ⟨h1, h2⟩ => ⟨⟨fun h => absurd h (by decide), fun _ => rfl, h1⟩, h2⟩⟩

theorem quotation_inner {c : Char} (hc : c ≠ '\'') {q : List Char}
    (hq : c = '\\' → q ≠ [] ∧ q.head? ≠ some '\'') : Quotation (c :: q) ↔ Quotation q := by
  unfold Quotation
  rw [List.isChain_cons_cons]
  cases q with
  | nil =>
    have h1 : c ≠ '\\' := fun h => (hq h).1 rfl
    simp [hc, h1]
  | cons d q =>
    rw [List.isChain_cons_cons, List.isChain_cons_cons, List.getLast?_cons_cons]
    refine and_congr_left' ⟨fun ⟨_, hd, h⟩ => ⟨fun he => ?_, h⟩,
      fun ⟨hd, h⟩ => ⟨fun he => absurd he hc, ?_, h⟩⟩
    · exact absurd (congrArg some he) (hq (hd he)).2
    · exact fun he => absurd (hd he) (by decide)

theorem closes_escaped {l : List Char} : Closes ('\\' :: '\'' :: l) ↔ Closes l := by
  refine ⟨fun ⟨q, r, he, hq, hr⟩ => ?_, fun ⟨q, r, he, hq, hr⟩ => ?_⟩
  · rcases q with _ | ⟨c, _ | ⟨d, q⟩⟩
    · exact absurd (List.cons.inj he).1 (by decide)
    · obtain rfl := (List.cons.inj he).1
      exact absurd rfl hq.2
    · simp only [List.cons_append, List.cons.injEq] at he
      obtain ⟨rfl, rfl, he'⟩ := he
      exact ⟨q, r, he', quotation_escaped.mp hq, hr⟩
  · exact ⟨'\\' :: '\'' :: q, r, by rw [he]; rfl, quotation_escaped.mpr hq, hr⟩

theorem closes_inner {c : Char} (hc : c ≠ '\'') {l : List Char} (hl : c = '\\' → l.head? ≠ some '\'') :
    Closes (c :: l) ↔ Closes l := by
  -- a backslash that ended the quotation would stand before its quote
  have hhead : ∀ {q r : List Char}, l = q ++ '\'' :: r → c = '\\' → q ≠ [] ∧ q.head? ≠ some '\'' := by
    rintro q r rfl h1
    have hl' := hl h1
    cases q with
    | nil => simp at hl'
    | cons d q => exact ⟨List.cons_ne_nil _ _, hl'⟩
  refine ⟨fun ⟨q, r, he, hq, hr⟩ => ?_, fun ⟨q, r, he, hq, hr⟩ => ?_⟩
  · cases q with
    | nil => exact absurd (List.cons.inj he).1 hc
    | cons d q =>
      obtain ⟨rfl, he'⟩ := List.cons.inj he
      exact ⟨q, r, he', (quotation_inner hc (hhead he')).mp hq, hr⟩
  · exact ⟨c :: q, r, by rw [he]; rfl, (quotation_inner hc (hhead he)).mpr hq, hr⟩

/-- **The strings after which `in_quotes` is false.** -/
theorem inQuotesAfter_iff : ∀ l : List Char, (inQuotesAfter l false = false ↔ Balanced l) ∧
    (inQuotesAfter l true = false ↔ Closes l)
  | [] => ⟨iff_of_true rfl .nil, iff_of_false (by decide) fun ⟨q, r, he, _⟩ => by simp at he⟩
  | c :: l => by
    obtain ⟨hout, hin⟩ := inQuotesAfter_iff l
    by_cases h2 : c = '\''
    · subst h2
      rw [balanced_quote, closes_quote, ← hout, ← hin]
      exact ⟨Iff.rfl, Iff.rfl⟩
    refine ⟨?_, ?_⟩
    · by_cases h1 : c = '\\'
      · subst h1
        cases l with
        | nil => exact iff_of_true rfl .last
        | cons d l =>
          rw [inQuotesAfter_escape, balanced_escape]
          exact (inQuotesAfter_iff l).1
      · rw [inQuotesAfter_char h1 h2, balanced_char h1 h2]
        exact hout
    · by_cases hl : c = '\\' → l.head? ≠ some '\''
      · rw [inQuotesAfter_inner h2 hl, closes_inner h2 hl]
        exact hin
      · push Not at hl
        obtain ⟨rfl, hhead⟩ := hl
        cases l with
        | nil => simp at hhead
        | cons d l =>
          obtain rfl : d = '\'' := by simpa using hhead
          rw [inQuotesAfter_escaped, closes_escaped]
          exact (inQuotesAfter_iff l).2

/-! ### The loop -/

theorem charAt_append (pre l : Str) : charAt (pre ++ l) pre.length = some (l.headD '\x00') := by
  unfold charAt
  cases l with
  | nil => rw [List.append_nil, if_pos rfl, List.headD_nil]
  | cons c l =>
    rw [if_neg (by simp), List.getElem?_append_right le_rfl, Nat.sub_self]
    rfl

theorem charAt_next (pre : Str) (c : Char) (l : Str) :
    charAt (pre ++ c :: l) (pre.length + 1) = some (l.headD '\x00') := by
  have h := charAt_append (pre ++ [c]) l
  rwa [List.append_assoc, List.length_append, List.length_singleton] at h

theorem popBack_append (bld : List Char) (c : Char) : popBack (bld ++ [c]) = some bld := by
  simp [popBack]

theorem updateBack_append (bld : List Char) (c d : Char) :
    updateBack (bld ++ [c]) d = some (bld ++ [d]) := by
  simp [updateBack]

/-- The loop over an identifier stops at the character behind it. -/
theorem identifierLoop_eq : ∀ (l pre : Str) (c : Char) {n : ℕ}, l.length + 1 ≤ n →
    identifierLoop (pre ++ c :: l) n pre.length =
      some (l.takeWhile isIdChar, pre.length + 1 + (l.takeWhile isIdChar).length)
  | [], pre, c, n + 1, _ => by
    rw [identifierLoop, charAt_next]
    rfl
  | d :: l, pre, c, n + 1, h => by
    rw [identifierLoop, charAt_next]
    simp only [List.headD_cons, Option.bind_eq_bind, Option.bind_some]
    by_cases hd : isIdChar d = true
    · have ih := identifierLoop_eq l (pre ++ [c]) d (n := n) (by simpa using h)
      rw [List.append_assoc, List.length_append, List.length_singleton] at ih
      rw [if_pos hd, show pre ++ c :: d :: l = pre ++ ([c] ++ d :: l) from rfl, ih,
        List.takeWhile_cons_of_pos hd]
      simp only [Option.bind_some, Option.pure_def, List.length_cons, Option.some.injEq, Prod.mk.injEq,
        true_and]
      omega
    · rw [if_neg hd, List.takeWhile_cons_of_neg hd]
      rfl

theorem interpretDeref_eq (env : Str → Option Str) (bld pre l : Str) :
    interpretDeref env (bld ++ ['$']) (pre ++ '$' :: l) pre.length =
      some (bld ++ (env (l.takeWhile isIdChar)).getD [],
        pre.length + (l.takeWhile isIdChar).length) := by
  have hlen : l.length + 1 ≤ (pre ++ '$' :: l).length := by
    rw [List.length_append, List.length_cons]
    omega
  rw [interpretDeref, charAt_append]
  simp only [List.headD_cons, Option.bind_eq_bind, Option.bind_some, List.getLast?_concat, and_self,
    if_true, popBack_append, identifierLoop_eq l pre '$' hlen, Option.pure_def, Option.some.injEq,
    Prod.mk.injEq, true_and]
  omega

/-- Identifiers have no quotes and no backslashes. -/
theorem inQuotesAfter_identifier (b : Bool) : ∀ l : Str,
    inQuotesAfter l b = inQuotesAfter (l.dropWhile isIdChar) b
  | [] => rfl
  | c :: l => by
    by_cases hc : isIdChar c = true
    · have h1 : c ≠ '\\' := fun he => absurd (he ▸ hc) (by decide)
      have h2 : c ≠ '\'' := fun he => absurd (he ▸ hc) (by decide)
      rw [inQuotesAfter_char h1 h2, List.dropWhile_cons_of_pos hc]
      exact inQuotesAfter_identifier b l
    · rw [List.dropWhile_cons_of_neg hc]

/-- What the `switch` does with a backslash outside of quotes. -/
theorem interpretChar_escape (env : Str → Option Str) (pre bld l : Str) :
    ∃ bld' used rest, l = used ++ rest ∧
      interpretChar env (pre ++ '\\' :: l) '\\' pre.length false (bld ++ ['\\']) =
        some (bld', pre.length + used.length, false) ∧
      inQuotesAfter ('\\' :: l) false = inQuotesAfter rest false := by
  cases l with
  | nil =>
    refine ⟨bld ++ ['\\'], [], [], rfl, ?_, rfl⟩
    rw [interpretChar, charAt_next]
    rfl
  | cons d l =>
    rw [interpretChar, charAt_next, inQuotesAfter_escape]
    simp only [List.headD_cons, Option.bind_eq_bind, Option.bind_some, Bool.not_false, if_true,
      updateBack_append, popBack_append, Option.pure_def]
    split_ifs with hesc hnl
    · exact ⟨bld ++ [d], [d], l, rfl, rfl, rfl⟩
    · exact ⟨bld, [d], l, rfl, rfl, rfl⟩
    · -- the backslash stays, and the next character is no quote and no backslash
      have h1 : d ≠ '\\' := fun he => hesc (he ▸ rfl)
      have h2 : d ≠ '\'' := fun he => hesc (he ▸ rfl)
      exact ⟨bld ++ ['\\'], [], d :: l, rfl, rfl, (inQuotesAfter_char h1 h2 l false).symm⟩

/-- What it does with a backslash in quotes. -/
theorem interpretChar_escaped (env : Str → Option Str) (pre bld l : Str) :
    ∃ bld' used rest, l = used ++ rest ∧
      interpretChar env (pre ++ '\\' :: l) '\\' pre.length true (bld ++ ['\\']) =
        some (bld', pre.length + used.length, true) ∧
      inQuotesAfter ('\\' :: l) true = inQuotesAfter rest true := by
  rw [interpretChar, charAt_next]
  simp only [Option.bind_eq_bind, Option.bind_some, Bool.not_true, Bool.false_eq_true, if_false,
    updateBack_append, Option.pure_def]
  by_cases hq : l.headD '\x00' = '\''
  · rw [if_pos hq]
    cases l with
    | nil => exact absurd hq (by decide)
    | cons d l =>
      obtain rfl : d = '\'' := hq
      exact ⟨bld ++ ['\''], ['\''], l, rfl, rfl, inQuotesAfter_escaped l⟩
  · rw [if_neg hq]
    refine ⟨bld ++ ['\\'], [], l, rfl, rfl, inQuotesAfter_inner (by decide) fun _ hhead => hq ?_⟩
    rw [List.headD_eq_head?_getD, hhead, Option.getD_some]

/-- **What the `switch` does**: it uses up some more characters and keeps account of the quotes. -/
theorem interpretChar_spec (env : Str → Option Str) (pre bld : Str) (c : Char) (l : Str) (b : Bool) :
    ∃ bld' used rest b', l = used ++ rest ∧
      interpretChar env (pre ++ c :: l) c pre.length b (bld ++ [c]) =
        some (bld', pre.length + used.length, b') ∧
      inQuotesAfter (c :: l) b = inQuotesAfter rest b' := by
  by_cases h1 : c = '\\'
  · subst h1
    cases b with
    | false =>
      obtain ⟨bld', used, rest, h⟩ := interpretChar_escape env pre bld l
      exact ⟨bld', used, rest, false, h⟩
    | true =>
      obtain ⟨bld', used, rest, h⟩ := interpretChar_escaped env pre bld l
      exact ⟨bld', used, rest, true, h⟩
  by_cases h2 : c = '\''
  · subst h2
    refine ⟨bld, [], l, !b, rfl, ?_, rfl⟩
    rw [interpretChar, popBack_append]
    rfl
  have hplain := inQuotesAfter_char h1 h2 l b
  by_cases h3 : c = '$'
  · subst h3
    rw [interpretChar, charAt_next]
    simp only [Option.bind_eq_bind, Option.bind_some, interpretDeref_eq, Option.pure_def]
    split_ifs with hid
    · exact ⟨_, l.takeWhile isIdChar, l.dropWhile isIdChar, b, List.takeWhile_append_dropWhile.symm,
        rfl, hplain.trans (inQuotesAfter_identifier b l)⟩
    · exact ⟨_, [], l, b, rfl, rfl, hplain⟩
  · refine ⟨bld ++ [c], [], l, b, rfl, ?_, hplain⟩
    rw [interpretChar]
    · rfl
    · exact h1
    · exact h2
    · exact h3

/-- **The loop comes to the end of the string**, and leaves a character on the string builder. -/
theorem interpretLoop_spec (env : Str → Option Str) {n : ℕ} : ∀ (pre l bld : Str) (b : Bool),
    l.length + 2 ≤ n → ∃ bld', interpretLoop env (pre ++ l) n pre.length b bld =
      some (bld', inQuotesAfter l b) ∧ bld' ≠ [] := by
  induction n with
  | zero => intro pre l bld b h; omega
  | succ n ih =>
    intro pre l bld b hn
    rw [interpretLoop, if_neg (by simp), charAt_append]
    simp only [Option.bind_eq_bind, Option.bind_some]
    cases l with
    | nil =>
      -- the terminating `NUL` goes onto the string builder
      obtain ⟨m, rfl⟩ : ∃ m, n = m + 1 := ⟨n - 1, by simp at hn; omega⟩
      refine ⟨bld ++ ['\x00'], ?_, by simp⟩
      rw [List.headD_nil, interpretChar, Option.bind_some, interpretLoop, if_pos (by simp)]
      · rfl
      all_goals decide
    | cons c l =>
      obtain ⟨bld', used, rest, b', rfl, hchar, hquotes⟩ := interpretChar_spec env pre bld c l b
      rw [List.headD_cons, hchar, Option.bind_some, hquotes]
      have hih := ih (pre ++ c :: used) rest bld' b' (by
        simp only [List.length_cons, List.length_append] at hn
        omega)
      rwa [List.append_assoc, List.length_append, List.length_cons, ← Nat.add_assoc] at hih

/-- **Which words can be read.** For each string the loop of `interpret_complex_string_token` makes a
bounded number of rounds, reads nothing behind the terminating `NUL`, and pops and updates no empty string
builder; the assertion behind the loop holds if and only if the quotations of the string end. -/
theorem interpret_iff (env : Str → Option Str) (str : Str) :
    (∃ bld b, interpretLoop env str (str.length + 2) 0 false [] = some (bld, b) ∧ bld ≠ []) ∧
      ((interpretComplexStringToken env str).isSome ↔ Balanced str) := by
  obtain ⟨bld, hloop, hne⟩ := interpretLoop_spec env [] str [] false le_rfl
  rw [List.nil_append, List.length_nil] at hloop
  refine ⟨⟨bld, _, hloop, hne⟩, ?_⟩
  rw [← (inQuotesAfter_iff str).1, interpretComplexStringToken, hloop]
  simp only [Option.bind_eq_bind, Option.bind_some, updateBack, if_neg hne]
  cases inQuotesAfter str false <;> simp

/-- The quoted word of two backslashes is a `{string}`, and it cannot be read: the interpreter takes the
second backslash and the quote behind it for a quote in the quotation. -/
theorem interpret_iff_backslashes : Pieces ['\'', '\\', '\\', '\''] ∧
    lex ['\'', '\\', '\\', '\'', '\n'] = [.str ['\'', '\\', '\\', '\''], .eocTok] ∧
    interpretComplexStringToken (fun _ => none) ['\'', '\\', '\\', '\''] = none :=
  ⟨.quote (.escape '\\' .nil) .nil, by decide, by decide⟩

end Eecs678.Quash.Quoting
