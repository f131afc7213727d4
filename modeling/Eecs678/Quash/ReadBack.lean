import Eecs678.Quash.CommandString
import Eecs678.Quash.Meaning
import Eecs678.Quash.Redirections

/-!
# The command string is read back

What `parse` stores as the command string of a script is a line that the lexer and the parser can read
again. Where the words of the script are simple ones, of commands that are printed as they are typed,
the line gives the script back (`read_back`): each stage with its pipes and its redirections, but for file
names that its flags do not use, and with the `&` of the whole pipeline on every stage.
-/

namespace Eecs678.Quash.ReadBack

open Eecs678.Lib.Scanf (cString)
open Eecs678.Lib.Scanner Eecs678.Quash.Commands Eecs678.Quash.Actions Eecs678.Quash.Execute
open Eecs678.Quash.Lexer Eecs678.Quash.Parser Eecs678.Quash.Words Eecs678.Quash.Meaning
open Eecs678.Quash.Stages Eecs678.Quash.Lines Eecs678.Quash.Redirections Eecs678.Quash.CommandString

variable {env realpath : Str → Option Str}

/-! ### Simple words -/

/-- A word of the characters of `{simple_string}`. -/
structure Simple (w : Str) : Prop where
  ne : w ≠ []
  plain : ∀ c ∈ w, isPlain c = true ∧ c ≠ '$' ∧ c ≠ '\x00'

theorem simple_of_all {w : Str} (hne : w ≠ [])
    (h : (w.all fun c => isPlain c && c != '$' && c != '\x00') = true) : Simple w := by
  refine ⟨hne, fun c hc => ?_⟩
  have hall := List.all_eq_true.mp h c hc
  simp only [Bool.and_eq_true, bne_iff_ne] at hall
  exact ⟨hall.1.1, hall.1.2, hall.2⟩

theorem Simple.bare {w : Str} (h : Simple w) : Bare w := fun c hc =>
  ⟨(plain_ne (h.plain c hc).1).1, (plain_ne (h.plain c hc).1).2, (h.plain c hc).2.1, (h.plain c hc).2.2⟩

theorem cString_bare {w : Str} (h : Bare w) : cString w = w :=
  List.takeWhile_eq_self_iff.mpr fun c hc => by simpa using (h c hc).2.2.2

/-- A class of characters without the blank ends before it. -/
theorem takeWhile_blank {p : Char → Bool} (hp : p '\x20' = false) (w rest : Str) :
    (w ++ '\x20' :: rest).takeWhile p = w.takeWhile p := by
  induction w with
  | nil => exact List.takeWhile_cons_of_neg (by rw [hp]; exact Bool.false_ne_true)
  | cons c w ih =>
    simp only [List.cons_append, List.takeWhile_cons, ih]

theorem many1_le {p : Char → Bool} (hp : p '\x20' = false) {w rest : Str} {n : ℕ}
    (h : many1 p (w ++ '\x20' :: rest) = some n) : n ≤ w.length := by
  unfold many1 at h
  rw [takeWhile_blank hp] at h
  split_ifs at h
  rw [← Option.some.inj h]
  exact (List.takeWhile_prefix p).length_le

theorem idSize_le {w rest : Str} {n : ℕ} (h : idSize (w ++ '\x20' :: rest) = some n) : n ≤ w.length := by
  cases w with
  | nil => cases h
  | cons c w =>
    simp only [List.cons_append, idSize, takeWhile_blank (show isIdChar '\x20' = false from rfl)] at h
    split_ifs at h
    rw [← Option.some.inj h]
    exact Nat.succ_le_succ (List.takeWhile_prefix isIdChar).length_le

/-- A fixed text without a blank that stands there stands in the word. -/
theorem literal_prefix {s : String} (hs : '\x20' ∉ s.toList) {w rest : Str} {n : ℕ}
    (h : literal s (w ++ '\x20' :: rest) = some n) : n = s.length ∧ s.toList <+: w := by
  unfold literal at h
  split_ifs at h with hp
  refine ⟨(Option.some.inj h).symm, ?_⟩
  rw [List.isPrefixOf_iff_prefix] at hp
  have hw : w ++ ['\x20'] <+: w ++ '\x20' :: rest := ⟨rest, by rw [List.append_assoc]; rfl⟩
  rcases List.prefix_or_prefix_of_prefix hp hw with h1 | h1
  · rcases List.prefix_concat_iff.mp h1 with h2 | h2
    · exact absurd (h2 ▸ List.mem_append_right _ List.mem_cons_self) hs
    · exact h2
  · exact absurd (h1.subset (List.mem_append_right _ List.mem_cons_self)) hs

theorem longest_word {w : Str} (h : ∀ c ∈ w, isPlain c = true) (rest : Str) :
    longest modeStep (· == .word) .word (w ++ '\x20' :: rest) = some w.length := by
  induction w with
  | nil => rfl
  | cons c w ih =>
    obtain ⟨hc, hw⟩ := List.forall_mem_cons.mp h
    have hstep : modeStep .word c = some .word := by
      simp only [modeStep, if_neg (plain_ne hc).1, if_neg (plain_ne hc).2, hc, if_true]
    rw [List.cons_append, longest, hstep, Option.bind_some, ih hw]
    rfl

theorem stringSize_simple {w : Str} (h : Simple w) (rest : Str) :
    stringSize (w ++ '\x20' :: rest) = some w.length := by
  have hplain : ∀ c ∈ w, isPlain c = true := fun c hc => (h.plain c hc).1
  obtain ⟨c, w, rfl⟩ := List.exists_cons_of_ne_nil h.ne
  obtain ⟨hc, hw⟩ := List.forall_mem_cons.mp hplain
  have hstep : modeStep .start c = some .word := by
    simp only [modeStep, if_neg (plain_ne hc).1, if_neg (plain_ne hc).2, hc, if_true]
  rw [stringSize, List.cons_append, longest, hstep, Option.bind_some, longest_word hw]
  rfl

/-- The rules before `{string}` and after `{id}`, for a simple word. -/
theorem simSize_simple {w : Str} (h : Simple w) (rest : Str) :
    many1 (fun c => isPlain c && c != '$') (w ++ '\x20' :: rest) = some w.length := by
  have hall : ∀ c ∈ w, (isPlain c && c != '$') = true := by
    intro c hc
    rw [Bool.and_eq_true, bne_iff_ne]
    exact ⟨(h.plain c hc).1, (h.plain c hc).2.1⟩
  unfold many1
  rw [takeWhile_blank rfl, List.takeWhile_eq_self_iff.mpr hall, if_neg]
  exact fun he => h.ne (List.eq_nil_of_length_eq_zero he)

/-- **No match is longer than the word.** -/
theorem size_le {w : Str} (h : Simple w) (rest : Str) :
    ∀ r ∈ rules, ∀ n, r.size (w ++ '\x20' :: rest) = some n → n ≤ w.length := by
  intro r hr n hn
  have hliteral : ∀ {s : String}, '\x20' ∉ s.toList → literal s (w ++ '\x20' :: rest) = some n →
      n ≤ w.length := by
    intro s hs hn
    obtain ⟨rfl, hp⟩ := literal_prefix hs hn
    exact hp.length_le
  obtain ⟨c, v, rfl⟩ := List.exists_cons_of_ne_nil h.ne
  have hc := (h.plain c List.mem_cons_self).1
  simp only [rules, List.mem_cons, List.not_mem_nil, or_false] at hr
  rcases hr with rfl | rfl | rfl | rfl | rfl | rfl | rfl | rfl | rfl | rfl | rfl | rfl | rfl | rfl |
    rfl | rfl | rfl | rfl | rfl | rfl | rfl | rfl
  all_goals first
    | exact hliteral (by decide) hn
    | exact many1_le rfl hn
    | exact idSize_le hn
    | skip
  · have hsize : some (c :: v).length = some n := (stringSize_simple h rest).symm.trans hn
    exact (Option.some.inj hsize).ge
  · have hne : c ≠ '#' := by
      rintro rfl
      cases hc
    have hnone : commentSize (c :: v ++ '\x20' :: rest) = none := by
      unfold commentSize
      split
      · next he => exact absurd (List.cons.inj he).1 hne
      · rfl
    cases hnone.symm.trans hn
  · have hblank : (c == '\x20' || c == '\t' || c == '\r') = false := by
      simp only [Bool.or_eq_false_iff, beq_eq_false_iff_ne, ne_eq]
      refine ⟨⟨?_, ?_⟩, ?_⟩
      · rintro rfl
        cases hc
      · rintro rfl
        cases hc
      · rintro rfl
        cases hc
    have hnone : many1 (fun c => c == '\x20' || c == '\t' || c == '\r') (c :: v ++ '\x20' :: rest) = none := by
      unfold many1
      rw [List.cons_append, List.takeWhile_cons_of_neg (by rw [hblank]; exact Bool.false_ne_true)]
      rfl
    cases hnone.symm.trans hn
  · have hone : n = 1 := by
      change anySize (c :: (v ++ '\x20' :: rest)) = some n at hn
      simp only [anySize] at hn
      split_ifs at hn
      exact (Option.some.inj hn).symm
    rw [hone]
    exact Nat.succ_le_succ (Nat.zero_le _)

/-! ### The tokens of words -/

/-- The words that are tokens of their own. -/
def keywords : List Str :=
  ["echo".toList, "export".toList, "cd".toList, "pwd".toList, "jobs".toList, "kill".toList, "exit".toList,
    "quit".toList]

/-- What a token is for the parser when it stands for a word. -/
structure StandsFor (env realpath : Str → Option Str) (w : Str) (t : Token) : Prop where
  argument : w ≠ "echo".toList → string env t = some (some w)
  leading : w ∉ keywords → ∀ ts, cmdContent env realpath (t :: ts) =
    (cmdArguments env ts).map fun args => .generic (w :: args)

theorem literal_eq {w : Str} {s : String} (hs : '\x20' ∉ s.toList) {rest : Str}
    (hn : literal s (w ++ '\x20' :: rest) = some w.length) : w = s.toList := by
  obtain ⟨hlen, hp⟩ := literal_prefix hs hn
  exact (hp.eq_of_length (by rw [hlen, String.length_toList])).symm

/-- A match as long as the word, by `{simple_string}` or a rule in front of it. -/
theorem stands_of_rule {w rest : Str} (h : Simple w) {r : Rule Char Token}
    (hr : r ∈ rules.take 17 ++ [rules[17]]) (hsize : r.size (w ++ '\x20' :: rest) = some w.length) :
    ∃ t, r.action w = some t ∧ StandsFor env realpath w t := by
  have hcs : cString w = w := cString_bare h.bare
  -- the texts of the operators are not simple
  have hoperator : ∀ {s : String} {c : Char}, '\x20' ∉ s.toList → c ∈ s.toList → isPlain c = false →
      literal s (w ++ '\x20' :: rest) ≠ some w.length := by
    intro s c hblank hmem hc hn
    rw [(h.plain c (literal_eq hblank hn ▸ hmem)).1] at hc
    cases hc
  have hkeyword : ∀ {s : String} {t : Token}, '\x20' ∉ s.toList → s.toList ∈ keywords →
      (s.toList ≠ "echo".toList → string env t = some (some s.toList)) →
      literal s (w ++ '\x20' :: rest) = some w.length → StandsFor env realpath w t := by
    intro s t hblank hmem hstring hn
    rw [literal_eq hblank hn]
    exact ⟨hstring, fun hno => absurd hmem hno⟩
  simp only [rules, List.take_succ_cons, List.take_zero, List.getElem_cons_succ, List.getElem_cons_zero,
    List.cons_append, List.nil_append, List.mem_cons, List.not_mem_nil, or_false] at hr
  rcases hr with rfl | rfl | rfl | rfl | rfl | rfl | rfl | rfl | rfl | rfl | rfl | rfl | rfl | rfl |
    rfl | rfl | rfl | rfl
  · exact absurd hsize (hoperator (c := '|') (by decide) (by decide) rfl)
  · exact absurd hsize (hoperator (c := '&') (by decide) (by decide) rfl)
  · exact absurd hsize (hoperator (c := '=') (by decide) (by decide) rfl)
  · exact absurd hsize (hoperator (c := '<') (by decide) (by decide) rfl)
  · exact absurd hsize (hoperator (c := '>') (by decide) (by decide) rfl)
  · exact absurd hsize (hoperator (c := '>') (by decide) (by decide) rfl)
  · exact ⟨_, rfl, hkeyword (by decide) (by decide) (fun hne => absurd rfl hne) hsize⟩
  · exact ⟨_, rfl, hkeyword (by decide) (by decide) (fun _ => rfl) hsize⟩
  · exact ⟨_, rfl, hkeyword (by decide) (by decide) (fun _ => rfl) hsize⟩
  · exact ⟨_, rfl, hkeyword (by decide) (by decide) (fun _ => rfl) hsize⟩
  · exact ⟨_, rfl, hkeyword (by decide) (by decide) (fun _ => rfl) hsize⟩
  · exact ⟨_, rfl, hkeyword (by decide) (by decide) (fun _ => rfl) hsize⟩
  · exact absurd hsize (hoperator (c := '\n') (by decide) (by decide) rfl)
  · have hw := literal_eq (by decide) hsize
    exact ⟨.exitTok w, congrArg (fun x => some (Token.exitTok x)) hcs, fun _ => rfl,
      fun hno => absurd (hw ▸ by decide) hno⟩
  · have hw := literal_eq (by decide) hsize
    exact ⟨.exitTok w, congrArg (fun x => some (Token.exitTok x)) hcs, fun _ => rfl,
      fun hno => absurd (hw ▸ by decide) hno⟩
  · exact ⟨.num w, congrArg (fun x => some (Token.num x)) hcs, fun _ => rfl, fun _ _ => rfl⟩
  · exact ⟨.id w, congrArg (fun x => some (Token.id x)) hcs, fun _ => rfl, fun _ _ => rfl⟩
  · exact ⟨.simStr w, congrArg (fun x => some (Token.simStr x)) hcs, fun _ => rfl, fun _ _ => rfl⟩

theorem lex_best {input : List Char} {n : ℕ} {r : Rule Char Token} (hb : best rules input = some (n, r))
    (hne : input ≠ []) : lex input = (r.action (input.take n)).toList ++ lex (input.drop n) :=
  scan_best positive_rules hb hne

/-- **A simple word is one token**, which stands for it. -/
theorem lex_simple {w : Str} (h : Simple w) (rest : Str) :
    ∃ t, lex (w ++ '\x20' :: rest) = t :: lex ('\x20' :: rest) ∧ StandsFor env realpath w t := by
  have hlongest := @best_of_longest Char Token (rules.take 17) (rules.drop 18) rules[17] _ _
    (simSize_simple h rest) fun r hr => size_le h rest r hr
  obtain ⟨r, hr, hsize, hbest⟩ := hlongest
  obtain ⟨t, ht, hstands⟩ := stands_of_rule h hr hsize
  refine ⟨t, ?_, hstands⟩
  have hne : w ++ '\x20' :: rest ≠ [] := List.append_ne_nil_of_left_ne_nil h.ne _
  rw [lex_best hbest hne, List.take_left, List.drop_left, ht]
  rfl

/-- A number is a number. -/
theorem lex_digits {w : Str} (hne : w ≠ []) (h : ∀ c ∈ w, isDigit c = true) (rest : Str) :
    lex (w ++ '\x20' :: rest) = .num w :: lex ('\x20' :: rest) := by
  have hsimple : Simple w := by
    refine ⟨hne, fun c hc => ?_⟩
    have hother : ∀ d, isDigit d = false → c ≠ d := by
      rintro d hd rfl
      rw [h c hc] at hd
      cases hd
    refine ⟨?_, hother _ rfl, hother _ rfl⟩
    rw [isPlain, Bool.not_eq_true', List.contains_eq_mem, decide_eq_false_iff_not]
    simp only [List.mem_cons, List.not_mem_nil, or_false, not_or]
    exact ⟨hother _ rfl, hother _ rfl, hother _ rfl, hother _ rfl, hother _ rfl, hother _ rfl, hother _ rfl,
      hother _ rfl, hother _ rfl, hother _ rfl, hother _ rfl, hother _ rfl⟩
  have hnum : rules[15].size (w ++ '\x20' :: rest) = some w.length := by
    change many1 isDigit (w ++ '\x20' :: rest) = some w.length
    unfold many1
    rw [takeWhile_blank rfl, List.takeWhile_eq_self_iff.mpr h, if_neg]
    exact fun he => hne (List.eq_nil_of_length_eq_zero he)
  have hlongest := @best_of_longest Char Token (rules.take 15) (rules.drop 16) rules[15] _ _
    hnum fun r hr => size_le hsimple rest r hr
  obtain ⟨r, hr, hsize, hbest⟩ := hlongest
  -- no rule in front of it has a text of digits
  have hliteral : ∀ {s : String} {c : Char}, '\x20' ∉ s.toList → c ∈ s.toList → isDigit c = false →
      literal s (w ++ '\x20' :: rest) ≠ some w.length := by
    intro s c hblank hmem hc hn
    rw [h c (literal_eq hblank hn ▸ hmem)] at hc
    cases hc
  obtain rfl : r = rules[15] := by
    simp only [rules, List.take_succ_cons, List.take_zero, List.getElem_cons_succ, List.getElem_cons_zero,
      List.cons_append, List.nil_append, List.mem_cons, List.not_mem_nil, or_false] at hr
    rcases hr with rfl | rfl | rfl | rfl | rfl | rfl | rfl | rfl | rfl | rfl | rfl | rfl | rfl | rfl |
      rfl | rfl
    · exact absurd hsize (hliteral (c := '|') (by decide) (by decide) rfl)
    · exact absurd hsize (hliteral (c := '&') (by decide) (by decide) rfl)
    · exact absurd hsize (hliteral (c := '=') (by decide) (by decide) rfl)
    · exact absurd hsize (hliteral (c := '<') (by decide) (by decide) rfl)
    · exact absurd hsize (hliteral (c := '>') (by decide) (by decide) rfl)
    · exact absurd hsize (hliteral (c := '>') (by decide) (by decide) rfl)
    · exact absurd hsize (hliteral (c := 'e') (by decide) (by decide) rfl)
    · exact absurd hsize (hliteral (c := 'e') (by decide) (by decide) rfl)
    · exact absurd hsize (hliteral (c := 'c') (by decide) (by decide) rfl)
    · exact absurd hsize (hliteral (c := 'p') (by decide) (by decide) rfl)
    · exact absurd hsize (hliteral (c := 'j') (by decide) (by decide) rfl)
    · exact absurd hsize (hliteral (c := 'k') (by decide) (by decide) rfl)
    · exact absurd hsize (hliteral (c := '\n') (by decide) (by decide) rfl)
    · exact absurd hsize (hliteral (c := 'e') (by decide) (by decide) rfl)
    · exact absurd hsize (hliteral (c := 'q') (by decide) (by decide) rfl)
    · rfl
  rw [lex_best hbest (List.append_ne_nil_of_left_ne_nil hne _), List.take_left, List.drop_left]
  exact congrArg (fun x => Token.num x :: lex ('\x20' :: rest)) (cString_bare hsimple.bare)

/-! ### Blanks -/

def isBlank (c : Char) : Bool := c == '\x20' || c == '\t' || c == '\r'

/-- A blank goes with all blanks behind it. -/
theorem lex_run {c : Char} (hc : isBlank c = true) (rest : Str) :
    lex (c :: rest) = lex (rest.dropWhile isBlank) := by
  have hblank : c = '\x20' ∨ c = '\t' ∨ c = '\r' := by
    simpa only [isBlank, Bool.or_eq_true, beq_iff_eq, or_assoc] using hc
  have hsize : rules[20].size (c :: rest) = some ((rest.takeWhile isBlank).length + 1) := by
    change many1 isBlank (c :: rest) = _
    unfold many1
    rw [List.takeWhile_cons_of_pos hc]
    rfl
  have hnone : ∀ r ∈ rules.take 20, r.size (c :: rest) = none := by
    intro r hr
    simp only [rules, List.take_succ_cons, List.take_zero, List.mem_cons, List.not_mem_nil, or_false] at hr
    rcases hblank with rfl | rfl | rfl
    all_goals
      rcases hr with rfl | rfl | rfl | rfl | rfl | rfl | rfl | rfl | rfl | rfl | rfl | rfl | rfl | rfl |
        rfl | rfl | rfl | rfl | rfl | rfl
      all_goals rfl
  have hle : ∀ r ∈ rules.take 20 ++ rules[20] :: rules.drop 21, ∀ m, r.size (c :: rest) = some m →
      m ≤ (rest.takeWhile isBlank).length + 1 := by
    intro r hr m hm
    rcases List.mem_append.mp hr with hr | hr
    · rw [hnone r hr] at hm
      cases hm
    · rcases List.mem_cons.mp hr with rfl | hr
      · exact (Option.some.inj (hsize.symm.trans hm)).ge
      · obtain rfl : r = skip anySize := List.mem_singleton.mp hr
        change anySize (c :: rest) = some m at hm
        simp only [anySize] at hm
        split_ifs at hm
        rw [← Option.some.inj hm]
        exact Nat.succ_le_succ (Nat.zero_le _)
  obtain ⟨r, hr, hrsize, hbest⟩ := best_of_longest hsize hle
  obtain rfl : r = rules[20] := by
    rcases List.mem_append.mp hr with hr | hr
    · rw [hnone r hr] at hrsize
      cases hrsize
    · exact List.mem_singleton.mp hr
  have hdrop : (c :: rest).drop ((rest.takeWhile isBlank).length + 1) = rest.dropWhile isBlank := by
    have happend := @List.takeWhile_append_dropWhile _ isBlank rest
    calc (c :: rest).drop ((rest.takeWhile isBlank).length + 1)
        = (rest.takeWhile isBlank ++ rest.dropWhile isBlank).drop (rest.takeWhile isBlank).length := by
          rw [List.drop_succ_cons, happend]
      _ = rest.dropWhile isBlank := List.drop_left
  have hlex := lex_best (r := rules[20]) hbest (List.cons_ne_nil c rest)
  rw [hlex, hdrop]
  rfl

/-- A blank between two texts is nothing to the lexer. -/
theorem lex_blank (rest : Str) : lex ('\x20' :: rest) = lex rest := by
  rw [lex_run rfl]
  cases rest with
  | nil => rfl
  | cons c rest =>
    by_cases hc : isBlank c = true
    · rw [List.dropWhile_cons_of_pos hc, ← lex_run hc]
    · rw [List.dropWhile_cons_of_neg hc]

/-! ### Texts and their tokens -/

/-- The text gives such tokens, whatever is behind it. -/
def Gives (text : Str) (P : List Token → Prop) : Prop :=
  ∀ rest, ∃ ts, lex (text ++ rest) = ts ++ lex rest ∧ P ts

theorem Gives.append {a b : Str} {P Q R : List Token → Prop} (ha : Gives a P) (hb : Gives b Q)
    (h : ∀ us vs, P us → Q vs → R (us ++ vs)) : Gives (a ++ b) R := by
  intro rest
  obtain ⟨us, hus, hP⟩ := ha (b ++ rest)
  obtain ⟨vs, hvs, hQ⟩ := hb rest
  refine ⟨us ++ vs, ?_, h us vs hP hQ⟩
  rw [List.append_assoc, hus, hvs, List.append_assoc]

theorem gives_nil {P : List Token → Prop} (h : P []) : Gives [] P := fun _ => ⟨[], rfl, h⟩

theorem gives_simple (env realpath : Str → Option Str) {w : Str} (h : Simple w) :
    Gives (line [w]) fun ts => ∃ t, ts = [t] ∧ StandsFor env realpath w t := by
  intro rest
  obtain ⟨t, hlex, ht⟩ := lex_simple h rest
  refine ⟨[t], ?_, t, rfl, ht⟩
  rw [line_cons, List.append_assoc, List.cons_append, show line [] ++ rest = rest from rfl, hlex, lex_blank]
  rfl

/-- A text that the lexer knows. -/
theorem gives_symbol {w : Str} {r : Rule Char Token} {t : Token} (hne : w ≠ [])
    (hb : ∀ rest, best rules (w ++ '\x20' :: rest) = some (w.length, r)) (hr : r.action w = some t) :
    Gives (line [w]) (· = [t]) := by
  intro rest
  refine ⟨[t], ?_, rfl⟩
  rw [line_cons, List.append_assoc, List.cons_append, show line [] ++ rest = rest from rfl,
    lex_best (hb rest) (List.append_ne_nil_of_left_ne_nil hne _), List.take_left, List.drop_left, hr, lex_blank]
  rfl

theorem gives_digits {w : Str} (hne : w ≠ []) (h : ∀ c ∈ w, isDigit c = true) :
    Gives (line [w]) (· = [.num w]) := by
  intro rest
  refine ⟨[.num w], ?_, rfl⟩
  rw [line_cons, List.append_assoc, List.cons_append, show line [] ++ rest = rest from rfl,
    lex_digits hne h, lex_blank]
  rfl

/-! ### Commands -/

/-- A word that can stand behind a command word. -/
def Argument (w : Str) : Prop := Simple w ∧ w ≠ "echo".toList

theorem gives_arguments (env : Str → Option Str) {vs : List Str} (h : ∀ a ∈ vs, Argument a) :
    Gives (line vs) fun ts => cmdArguments env ts = .ok vs [] := by
  induction vs with
  | nil => exact gives_nil rfl
  | cons a vs ih =>
    obtain ⟨⟨ha, hecho⟩, hvs⟩ := List.forall_mem_cons.mp h
    rw [← List.singleton_append, line_append]
    refine (gives_simple env (fun _ => none) ha).append (ih hvs) ?_
    rintro _ vs' ⟨t, rfl, ht⟩ hargs
    rw [List.singleton_append, cmdArguments, ht.argument hecho]
    simp only [hargs]
    rfl

/-- The commands that are printed as they are typed, with simple words. -/
inductive Readable (realpath : Str → Option Str) : Command → Prop
  | generic {v : Str} {vs : List Str} (hv : Simple v) (hfirst : v ∉ keywords) (hvs : ∀ a ∈ vs, Argument a) :
      Readable realpath (.generic (v :: vs))
  | echo {vs : List Str} (hvs : ∀ a ∈ vs, Argument a) : Readable realpath (.echo vs)
  | cd {dir : Str} (hdir : Argument dir) (hreal : realpath dir = some dir) : Readable realpath (.cd (some dir))
  | kill {sig job : Str} (hsig : sig ≠ [] ∧ ∀ c ∈ sig, isDigit c = true)
      (hjob : job ≠ [] ∧ ∀ c ∈ job, isDigit c = true) : Readable realpath (mkKillCommand sig job)

theorem gives_command (env : Str → Option Str) {cmd : Command} (h : Readable realpath cmd)
    (typed : List Str) :
    Gives (line (commandWords typed cmd)) fun ts => cmdContent env realpath ts = .ok cmd [] := by
  cases h with
  | @generic v vs hv hfirst hvs =>
    rw [commandWords, ← List.singleton_append, line_append]
    refine (gives_simple env realpath hv).append
      (gives_arguments env hvs) ?_
    rintro _ ts ⟨t, rfl, ht⟩ hargs
    rw [List.singleton_append, ht.leading hfirst, hargs]
    rfl
  | @echo vs hvs =>
    rw [commandWords, ← List.singleton_append, line_append]
    refine (gives_symbol (w := "echo".toList) (t := .echoTok) (by decide) (fun _ => rfl) rfl).append
      (gives_arguments env hvs) ?_
    rintro _ ts rfl hargs
    rw [List.singleton_append, cmdContent, hargs]
    rfl
  | @cd dir hdir hreal =>
    rw [commandWords, ← List.singleton_append, line_append]
    refine (gives_symbol (w := "cd".toList) (t := .cdTok) (by decide) (fun _ => rfl) rfl).append
      (gives_simple env realpath hdir.1) ?_
    rintro _ _ rfl ⟨t, rfl, ht⟩
    simp only [List.singleton_append, cmdContent, cdContent, ht.argument hdir.2, Option.map_some, hreal]
    rfl
  | @kill sig job hsig hjob =>
    have hnums : Gives (line [sig, job]) (· = [.num sig, .num job]) := by
      rw [← List.singleton_append, line_append]
      refine (gives_digits hsig.1 hsig.2).append (gives_digits hjob.1 hjob.2) ?_
      rintro _ _ rfl rfl
      rfl
    rw [mkKillCommand, commandWords, ← List.singleton_append, line_append]
    refine (gives_symbol (w := "kill".toList) (t := .killTok) (by decide) (fun _ => rfl) rfl).append hnums ?_
    rintro _ _ rfl rfl
    rfl

/-! ### Stages -/

/-- The words of a stage are simple, and its command is printed as it is typed. -/
structure ReadableStage (realpath : Str → Option Str) (holder : CommandHolder) : Prop where
  cmd : Readable realpath holder.cmd
  input : holder.flags.redirectIn = true → ∃ file, holder.redirectIn = some file ∧ Argument file
  out : holder.flags.redirectOut = true → ∃ file, holder.redirectOut = some file ∧ Argument file

/-- The redirections that the flags of a stage use. -/
def redirectOf (holder : CommandHolder) : Redirect where
  input := if holder.flags.redirectIn then holder.redirectIn else none
  out := if holder.flags.redirectOut then holder.redirectOut else none
  append := holder.flags.redirectAppend

/-- The marks and file names of the redirections. -/
def redirections (holder : CommandHolder) : List (RedirMark × Str) :=
  (if holder.flags.redirectIn then [(.input, holder.redirectIn.getD [])] else []) ++
    if holder.flags.redirectOut then
      [(if holder.flags.redirectAppend then .append else .out, holder.redirectOut.getD [])]
    else []

def markText : RedirMark → Str
  | .input => "<".toList
  | .out => ">".toList
  | .append => ">>".toList

def redirectWords (l : List (RedirMark × Str)) : List Str := l.flatMap fun x => [markText x.1, x.2]

theorem markWords_eq (holder : CommandHolder) : markWords holder =
    redirectWords (redirections holder) ++ if holder.flags.pipeOut then ["|".toList] else [] := by
  unfold markWords redirections redirectWords
  cases holder.flags.redirectIn <;> cases holder.flags.redirectOut <;> cases holder.flags.redirectAppend <;>
    rfl

theorem gives_mark (mark : RedirMark) : Gives (line [markText mark]) (· = [markToken mark]) := by
  cases mark with
  | input => exact gives_symbol (w := "<".toList) (t := .redirIn) (by decide) (fun _ => rfl) rfl
  | out => exact gives_symbol (w := ">".toList) (t := .redirOut) (by decide) (fun _ => rfl) rfl
  | append => exact gives_symbol (w := ">>".toList) (t := .redirOutApp) (by decide) (fun _ => rfl) rfl

/-- What `redir` makes of redirections, whatever words their names are written with. -/
theorem merged_map (l : List Redirection) : merged l =
    (l.map fun r => (r.mark, r.file)).foldr (fun x red => addRedirect x.1 x.2 red) noRedirect := by
  induction l with
  | nil => rfl
  | cons r l ih => rw [merged, ih, List.map_cons, List.foldr_cons]

theorem gives_redirections (env : Str → Option Str) {l : List (RedirMark × Str)}
    (h : ∀ x ∈ l, Argument x.2) : Gives (line (redirectWords l)) fun ts => ∃ rs : List Redirection,
      ts = tokens rs ∧ Named env rs ∧ rs.map (fun r => (r.mark, r.file)) = l := by
  induction l with
  | nil => exact gives_nil ⟨[], rfl, fun _ hr => absurd hr List.not_mem_nil, rfl⟩
  | cons x l ih =>
    obtain ⟨⟨hx, hecho⟩, hl⟩ := List.forall_mem_cons.mp h
    have hfirst : Gives (line [markText x.1, x.2]) fun ts => ∃ t, ts = [markToken x.1, t] ∧
        StandsFor env (fun _ => none) x.2 t := by
      rw [← List.singleton_append, line_append]
      refine (gives_mark x.1).append (gives_simple env (fun _ => none) hx) ?_
      rintro _ _ rfl ⟨t, rfl, ht⟩
      exact ⟨t, rfl, ht⟩
    rw [redirectWords, List.flatMap_cons, line_append]
    refine hfirst.append (ih hl) ?_
    rintro _ _ ⟨t, rfl, ht⟩ ⟨rs, rfl, hnamed, hmap⟩
    refine ⟨⟨x.1, t, x.2⟩ :: rs, rfl, List.forall_mem_cons.mpr ⟨ht.argument hecho, hnamed⟩, ?_⟩
    rw [List.map_cons, hmap]

theorem foldr_redirections {holder : CommandHolder} (h : ReadableStage realpath holder)
    (happend : holder.flags.redirectAppend = true → holder.flags.redirectOut = true) :
    (redirections holder).foldr (fun x red => addRedirect x.1 x.2 red) noRedirect = redirectOf holder := by
  have hin : (if holder.flags.redirectIn then some (holder.redirectIn.getD []) else none) =
      if holder.flags.redirectIn then holder.redirectIn else none := by
    split_ifs with hf
    · obtain ⟨file, hfile, -⟩ := h.input hf
      rw [hfile]
      rfl
    · rfl
  have hout : (if holder.flags.redirectOut then some (holder.redirectOut.getD []) else none) =
      if holder.flags.redirectOut then holder.redirectOut else none := by
    split_ifs with hf
    · obtain ⟨file, hfile, -⟩ := h.out hf
      rw [hfile]
      rfl
    · rfl
  rw [redirectOf, ← hin, ← hout]
  unfold redirections
  cases hi : holder.flags.redirectIn <;> cases ho : holder.flags.redirectOut <;>
    cases ha : holder.flags.redirectAppend
  all_goals first
    | rfl
    | exact absurd (happend ha) (by rw [ho]; exact Bool.false_ne_true)

/-- What `cmd_top` makes of a stage that is read back. -/
def own (bg : Bool) (holder : CommandHolder) : CommandHolder := cmdTop holder.cmd (redirectOf holder) bg

/-- **A stage is read back**, with an `&` or without. -/
theorem gives_stage (env : Str → Option Str) {holder : CommandHolder} (h : ReadableStage realpath holder)
    (happend : holder.flags.redirectAppend = true → holder.flags.redirectOut = true) (typed : List Str) :
    Gives (line (commandWords typed holder.cmd ++ redirectWords (redirections holder))) fun ts =>
      ∀ bg rest, StageEnd rest →
        parseCmdTop env realpath (ts ++ (bgTokens bg ++ rest)) = .ok (own bg holder) rest := by
  have hfiles : ∀ x ∈ redirections holder, Argument x.2 := by
    intro x hx
    unfold redirections at hx
    rcases List.mem_append.mp hx with hx | hx
    · by_cases hf : holder.flags.redirectIn = true
      · obtain ⟨file, hfile, harg⟩ := h.input hf
        rw [if_pos hf] at hx
        rw [List.mem_singleton.mp hx, hfile]
        exact harg
      · rw [if_neg hf] at hx
        exact absurd hx List.not_mem_nil
    · by_cases hf : holder.flags.redirectOut = true
      · obtain ⟨file, hfile, harg⟩ := h.out hf
        rw [if_pos hf] at hx
        rw [List.mem_singleton.mp hx, hfile]
        exact harg
      · rw [if_neg hf] at hx
        exact absurd hx List.not_mem_nil
  rw [line_append]
  refine (gives_command env h.cmd typed).append (gives_redirections env hfiles) ?_
  rintro us _ hus ⟨rs, rfl, hnamed, hmap⟩ bg rest hrest
  rw [List.append_assoc, parseCmdTop_tokens hus hnamed bg hrest, merged_map, hmap, foldr_redirections h happend, own]

/-! ### Scripts -/

/-- The stages that are read back, the last one with the `&`. -/
def owns (bg : Bool) : List CommandHolder → List CommandHolder
  | [] => []
  | [holder] => [own bg holder]
  | holder :: next :: more => own false holder :: owns bg (next :: more)

theorem owns_getElem? (bg : Bool) : ∀ (holders : List CommandHolder) (k : ℕ),
    (owns bg holders)[k]? = (holders[k]?).map (own (bg && k + 1 = holders.length))
  | [], k => rfl
  | [holder], 0 => by simp [owns]
  | [holder], k + 1 => by simp [owns]
  | holder :: next :: more, 0 => by simp [owns]
  | holder :: next :: more, k + 1 => by
    have ih := owns_getElem? bg (next :: more) k
    rw [owns, List.getElem?_cons_succ, List.getElem?_cons_succ, ih]
    simp

/-- `cmds` of the stages. -/
def allCmds : List CommandHolder → List CommandHolder
  | [] => []
  | holder :: more => cmds holder more

/-- **A pipeline is read back**, up to the end of its line. -/
theorem gives_stages (env : Str → Option Str) (bg : Bool) (typed : ℕ → List Str) :
    ∀ {holders : List CommandHolder}, holders ≠ [] → (∀ holder ∈ holders, ReadableStage realpath holder) →
      (∀ holder ∈ holders, Coherent holder) →
      (∀ k holder, holders[k]? = some holder → (holder.flags.pipeOut = true ↔ k + 1 < holders.length)) →
      Gives (line (stageWords typed holders ++ if bg then ["&".toList] else [])) fun ts =>
        ∀ rest n, (ts ++ .eocTok :: rest).length ≤ n →
          parseCmds env realpath n (ts ++ .eocTok :: rest) =
            .ok (allCmds (owns bg holders)) (.eocTok :: rest) := by
  intro holders hne hread hcoherent hpipe
  induction holders generalizing typed with
  | nil => exact absurd rfl hne
  | cons holder more ih =>
    obtain ⟨hholder, hmore⟩ := List.forall_mem_cons.mp hread
    obtain ⟨hfirst, hnext⟩ := List.forall_mem_cons.mp hcoherent
    have hstage := gives_stage env hholder hfirst.append (typed 0)
    have hout := hpipe 0 holder rfl
    cases more with
    | nil =>
      have hno : holder.flags.pipeOut = false := by simpa using hout
      have hmark : Gives (line (if bg then ["&".toList] else [])) (· = bgTokens bg) := by
        cases bg with
        | false => exact gives_nil rfl
        | true => exact gives_symbol (w := "&".toList) (t := .bckgrnd) (by decide) (fun _ => rfl) rfl
      rw [stageWords, stageWords, List.append_nil, markWords_eq, hno, if_neg Bool.false_ne_true,
        List.append_nil, line_append]
      refine hstage.append hmark ?_
      rintro us _ hus rfl rest n hn
      obtain ⟨n, rfl⟩ : ∃ m, n = m + 1 := ⟨n - 1, by simp at hn; omega⟩
      rw [parseCmds, List.append_assoc, hus bg (.eocTok :: rest) (by simp [StageEnd])]
      rfl
    | cons next more =>
      have hyes : holder.flags.pipeOut = true := hout.mpr (by simp)
      have hpipeMark : Gives (line ["|".toList]) (· = [.pipe]) :=
        gives_symbol (w := "|".toList) (t := .pipe) (by decide) (fun _ => rfl) rfl
      have hrest := ih (fun k => typed (k + 1)) (List.cons_ne_nil _ _) hmore hnext fun k x hx => by
        have hk := hpipe (k + 1) x hx
        simpa using hk
      have htail : Gives (line ("|".toList :: (stageWords (fun k => typed (k + 1)) (next :: more) ++
          if bg then ["&".toList] else []))) fun ts => ∃ vs, ts = .pipe :: vs ∧
            ∀ rest n, (vs ++ .eocTok :: rest).length ≤ n → parseCmds env realpath n (vs ++ .eocTok :: rest) =
              .ok (allCmds (owns bg (next :: more))) (.eocTok :: rest) := by
        rw [← List.singleton_append, line_append]
        refine hpipeMark.append hrest ?_
        rintro _ vs rfl hvs
        exact ⟨vs, rfl, hvs⟩
      have hwords : stageWords typed (holder :: next :: more) ++ (if bg then ["&".toList] else []) =
          commandWords (typed 0) holder.cmd ++ redirectWords (redirections holder) ++
            "|".toList :: (stageWords (fun k => typed (k + 1)) (next :: more) ++
              if bg then ["&".toList] else []) := by
        rw [stageWords, markWords_eq, hyes, if_pos rfl]
        simp only [List.append_assoc, List.cons_append, List.nil_append]
      rw [hwords, line_append]
      refine hstage.append htail ?_
      rintro us _ hus ⟨vs, rfl, hvs⟩ rest n hn
      obtain ⟨n, rfl⟩ : ∃ m, n = m + 1 := ⟨n - 1, by simp at hn; omega⟩
      have htop := hus false (.pipe :: (vs ++ .eocTok :: rest)) (by simp [StageEnd])
      simp only [bgTokens, Bool.false_eq_true, if_false, List.nil_append] at htop
      rw [parseCmds, List.append_assoc, List.cons_append, htop]
      simp only [Outcome.bind]
      rw [hvs rest n (by simp at hn ⊢; omega), owns]
      cases howns : owns bg (next :: more) with
      | nil => cases more <;> cases howns
      | cons o os => rfl

/-- The script as it is read back. -/
def tidy (bg : Bool) (holder : CommandHolder) : CommandHolder :=
  { holder with
    redirectIn := if holder.flags.redirectIn then holder.redirectIn else none
    redirectOut := if holder.flags.redirectOut then holder.redirectOut else none
    flags := { holder.flags with background := bg } }

/-- The stage `k` of `n` as the parser delivers it. -/
structure Position (n k : ℕ) (holder : CommandHolder) : Prop where
  flags : FlagsAt n k holder.flags
  coherent : Coherent holder

theorem any_owns {bg : Bool} : ∀ {holders : List CommandHolder} {k : ℕ}, k < holders.length →
    ((owns bg holders).drop k).any (fun x => x.flags.background) = bg
  | [holder], 0, _ => by simp [owns, own, cmdTop]
  | holder :: next :: more, 0, _ => by
    have ih : ((owns bg (next :: more)).drop 0).any (fun x => x.flags.background) = bg :=
      any_owns (Nat.succ_pos _)
    rw [List.drop_zero] at ih
    rw [owns, List.drop_zero, List.any_cons, ih]
    rfl
  | holder :: next :: more, k + 1, hk => by
    rw [owns, List.drop_succ_cons]
    exact any_owns (Nat.lt_of_succ_lt_succ hk)

theorem length_owns (bg : Bool) : ∀ holders : List CommandHolder, (owns bg holders).length = holders.length
  | [] => rfl
  | [_] => rfl
  | _ :: next :: more => congrArg (· + 1) (length_owns bg (next :: more))

theorem stageAt_own {bg : Bool} {holders : List CommandHolder} {k : ℕ} {holder : CommandHolder}
    (hk : k < holders.length) (h : Position holders.length k holder) (b : Bool) :
    stageAt (owns bg holders) k (own b holder) = tidy bg holder := by
  obtain ⟨hflags, hcoherent⟩ := h
  have hin : ((if holder.flags.redirectIn then holder.redirectIn else none).isSome && decide (k = 0)) =
      holder.flags.redirectIn := by
    cases hf : holder.flags.redirectIn with
    | false => rfl
    | true =>
      rw [if_pos rfl, hcoherent.redirectIn hf, decide_eq_true (hflags.redirectIn hf)]
      rfl
  have hout : ((if holder.flags.redirectOut then holder.redirectOut else none).isSome &&
      decide (k + 1 = holders.length)) = holder.flags.redirectOut := by
    cases hf : holder.flags.redirectOut with
    | false => rfl
    | true =>
      rw [if_pos rfl, hcoherent.redirectOut hf, decide_eq_true (hflags.redirectOut hf)]
      rfl
  have happ : (holder.flags.redirectAppend && decide (k + 1 = holders.length)) =
      holder.flags.redirectAppend := by
    cases hf : holder.flags.redirectAppend with
    | false => rfl
    | true =>
      rw [decide_eq_true (hflags.redirectOut (hcoherent.append hf))]
      rfl
  have hpin : decide (0 < k) = holder.flags.pipeIn := by
    rw [Bool.eq_iff_iff, decide_eq_true_iff]
    exact hflags.pipeIn.symm
  have hpout : decide (k + 1 < holders.length) = holder.flags.pipeOut := by
    rw [Bool.eq_iff_iff, decide_eq_true_iff]
    exact hflags.pipeOut.symm
  simp only [stageAt, own, cmdTop, redirectOf, tidy, length_owns, any_owns hk, hin, hout, happ, hpin, hpout]

/-- **The actions of the grammar make the same stages again.** -/
theorem allCmds_owns {bg : Bool} {holders : List CommandHolder}
    (h : ∀ k holder, holders[k]? = some holder → Position holders.length k holder) :
    allCmds (owns bg holders) = holders.map (tidy bg) := by
  have hplain : ∀ x ∈ owns bg holders, Plain x := by
    intro x hx
    obtain ⟨k, hk⟩ := List.getElem?_of_mem hx
    rw [owns_getElem?, Option.map_eq_some_iff] at hk
    obtain ⟨holder, -, rfl⟩ := hk
    exact plain_cmdTop _ _ _
  have hstages : ∀ k, (allCmds (owns bg holders))[k]? =
      ((owns bg holders)[k]?).map (stageAt (owns bg holders) k) := by
    intro k
    cases howns : owns bg holders with
    | nil => rfl
    | cons o os => exact cmds_getElem? o os k (howns ▸ hplain)
  refine List.ext_getElem? fun k => ?_
  rw [hstages, owns_getElem?, List.getElem?_map, Option.map_map]
  cases hk : holders[k]? with
  | none => rfl
  | some holder =>
    have hlt := (List.getElem?_eq_some_iff.mp hk).1
    exact congrArg some (stageAt_own hlt (h k holder hk) _)

/-- Where the stages of a script of the parser stand. -/
theorem position_script {ts rest : List Token} {ended : Bool} {holders : List CommandHolder}
    (h : yyparse env realpath ts = .done ended (some holders) rest) :
    holders ≠ [] ∧ ∀ k holder, holders[k]? = some holder → Position holders.length k holder := by
  have hcoherent := coherent_script h
  obtain ⟨used, first, more, -, rfl, hstaged⟩ := parseCmds_stages (yyparse_script h)
  obtain ⟨hfirst, hmore⟩ := List.forall_mem_cons.mp hstaged
  constructor
  · intro hnil
    have hlen := cmds_length first (more.map Prod.snd)
    rw [hnil] at hlen
    cases hlen
  · intro k holder hk
    refine ⟨delivered_cmds hfirst.1.plain ?_ k holder hk, hcoherent holder (List.mem_of_getElem? hk)⟩
    intro x hx
    obtain ⟨y, hy, rfl⟩ := List.mem_map.mp hx
    exact (hmore y hy).1.plain

/-- The command string of a script without a directory that does not resolve. -/
theorem parsedStr_eq {holders : List CommandHolder} (hcoherent : ∀ holder ∈ holders, Coherent holder)
    (hcd : ∀ holder ∈ holders, holder.cmd ≠ .cd none) (typed : ℕ → List Str) : parsedStr holders =
      line (stageWords typed holders ++ if isBackground holders then ["&".toList] else []) := by
  have hcomplete : Complete typed holders (if isBackground holders then ["&".toList] else []) :=
    fun k holder hk hc => absurd hc (hcd holder (List.mem_of_getElem? hk))
  have hstages := (condense_stages _ typed hcoherent).mpr hcomplete
  rw [← hstages, parsedStr, stringifyScript, List.append_assoc]
  cases isBackground holders <;> rfl

/-- **The command string is read back.** For each script of the parser whose words are simple, of commands
that are printed as they are typed, the command string with a newline is parsed to the same script: the same
commands, pipes and redirections, but for file names that no flag uses, and the `&` of the pipeline is on
every stage. The first word of a generic command is no keyword, and no argument or file name is `echo`: `pwd`
and `ls 'echo'` are not read back. -/
theorem read_back {ts rest : List Token} {ended : Bool} {holders : List CommandHolder}
    (h : yyparse env realpath ts = .done ended (some holders) rest)
    (hread : ∀ holder ∈ holders, ReadableStage realpath holder) :
    yyparse env realpath (lex (parsedStr holders ++ ['\n'])) =
      .done false (some (holders.map (tidy (isBackground holders)))) [] := by
  have hcoherent := coherent_script h
  obtain ⟨hne, hposition⟩ := position_script h
  have hcd : ∀ holder ∈ holders, holder.cmd ≠ .cd none := by
    intro holder hholder hcd
    have hcmd := (hread holder hholder).cmd
    rw [hcd] at hcmd
    cases hcmd
  obtain ⟨us, hlex, hparse⟩ := gives_stages env (isBackground holders) (fun _ => []) hne hread hcoherent
    (fun k holder hk => (hposition k holder hk).flags.pipeOut) ['\n']
  have hcmds := hparse [] _ le_rfl
  rw [allCmds_owns hposition] at hcmds
  rw [parsedStr_eq hcoherent hcd, hlex]
  have hnewline : lex ['\n'] = [.eocTok] := by decide
  have hstart : ∀ rest, us ++ [.eocTok] ≠ .eocTok :: rest := by
    intro rest he
    rw [he, List.length_cons, parseCmds] at hcmds
    cases hcmds
  rw [hnewline, yyparse_eq hstart, hcmds]
  rfl

/-- `ls -l < f | w >> g &` has the command string `ls -l < f | w >> g & `. -/
theorem read_back_pipe : ∃ holders, yyparse (fun _ => none) (fun _ => none)
      [.id "ls".toList, .simStr "-l".toList, .redirIn, .id ['f'], .pipe, .id ['w'], .redirOutApp, .id ['g'],
        .bckgrnd, .eocTok] = .done false (some holders) [] ∧ holders.length = 2 ∧
    yyparse (fun _ => none) (fun _ => none) (lex (parsedStr holders ++ ['\n'])) =
      .done false (some (holders.map (tidy (isBackground holders)))) [] := by
  have h : yyparse (fun _ => none) (fun _ => none)
      [.id "ls".toList, .simStr "-l".toList, .redirIn, .id ['f'], .pipe, .id ['w'], .redirOutApp, .id ['g'],
        .bckgrnd, .eocTok] = .done false (some _) [] := rfl
  refine ⟨_, h, rfl, read_back h fun holder hholder => ?_⟩
  rcases List.mem_cons.mp hholder with rfl | hholder
  · have hargs : ∀ a ∈ ["-l".toList], Argument a := by
      intro a ha
      rw [List.mem_singleton.mp ha]
      exact ⟨simple_of_all (by decide) rfl, by decide⟩
    refine ⟨.generic (simple_of_all (by decide) rfl) (by decide) hargs, fun _ => ?_, fun hf => by cases hf⟩
    exact ⟨['f'], rfl, simple_of_all (by decide) rfl, by decide⟩
  · rcases List.mem_cons.mp hholder with rfl | hholder
    · refine ⟨.generic (simple_of_all (by decide) rfl) (by decide) fun a ha => (by cases ha),
        fun hf => (by cases hf), fun _ => ?_⟩
      exact ⟨['g'], rfl, simple_of_all (by decide) rfl, by decide⟩
    · cases hholder

end Eecs678.Quash.ReadBack
