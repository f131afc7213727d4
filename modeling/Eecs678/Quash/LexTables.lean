import Mathlib.Data.List.GetD
import Eecs678.Lib.Automata
import Eecs678.Quash.LexYy

/-!
# The tables of the scanner

What a rule of `parse.l` has still to see is a `Progress`, and the rules side by side are an automaton on
lists of them. The tables of `lex.yy.c` are that automaton: `access` has a text for each state, and
`closed_access` says that the tables and the rules move alike from it, for each class of bytes. So what
the tables find is what the rules find: `best_eq_table`.
-/

namespace Eecs678.Quash.LexTables

open Eecs678.Lib.Scanner Eecs678.Lib.Automata Eecs678.Quash.Commands
open Eecs678.Quash.Lexer Eecs678.Quash.LexYy

/-! ### The rules as automata -/

/-- The classes of characters that the rules are made of. -/
inductive CharClass
  | digit
  | idFirst
  | idChar
  | simple
  | white
  | hash
  | inLine
  | nothing
deriving DecidableEq, Repr

/-- The characters of a class. -/
def CharClass.has : CharClass → Char → Bool
  | .digit, c => isDigit c
  | .idFirst, c => isIdFirst c
  | .idChar, c => isIdChar c
  | .simple, c => isPlain c && c != '$'
  | .white, c => c == '\x20' || c == '\t' || c == '\r'
  | .hash, c => c == '#'
  | .inLine, c => c ≠ '\n'
  | .nothing, _ => false

/-- What a rule has still to see: the rest of a fixed text, a character of one class and any number of
another one, the latter alone, or `{string}` from one of its modes. -/
inductive Progress
  | fixed (rest : List Char)
  | first (p q : CharClass)
  | more (q : CharClass)
  | string (m : Mode)
deriving DecidableEq, Repr

/-- What is left after a character. -/
def progress : Progress → Char → Option Progress
  | .fixed [], _ => none
  | .fixed (d :: rest), c => if c = d then some (.fixed rest) else none
  | .first p q, c => if p.has c then some (.more q) else none
  | .more q, c => if q.has c then some (.more q) else none
  | .string m, c => (modeStep m c).map .string

/-- Nothing has to come. -/
def complete : Progress → Bool
  | .fixed rest => rest.isEmpty
  | .first _ _ => false
  | .more _ => true
  | .string m => m == .word

/-- The rules, with the numbers of their actions. -/
def starts : List (ℕ × Progress) :=
  [(1, .fixed ['|']), (2, .fixed ['&']), (3, .fixed ['=']), (4, .fixed ['<']), (5, .fixed ['>']),
    (6, .fixed ['>', '>']), (7, .fixed ['e', 'c', 'h', 'o']),
    (8, .fixed ['e', 'x', 'p', 'o', 'r', 't']), (9, .fixed ['c', 'd']), (10, .fixed ['p', 'w', 'd']),
    (11, .fixed ['j', 'o', 'b', 's']), (12, .fixed ['k', 'i', 'l', 'l']), (13, .fixed ['\n']),
    (14, .fixed ['e', 'x', 'i', 't']), (14, .fixed ['q', 'u', 'i', 't']), (15, .first .digit .digit),
    (16, .first .idFirst .idChar), (17, .first .simple .simple), (18, .string .start),
    (19, .first .hash .inLine), (20, .first .white .white), (21, .first .inLine .nothing)]

/-- The length of the longest match from there. -/
abbrev sizeFrom (q : Progress) : List Char → Option ℕ := longest progress complete q

theorem longest_fixed : ∀ text input : List Char,
    sizeFrom (.fixed text) input = if text.isPrefixOf input then some text.length else none
  | [], [] => rfl
  | [], c :: input => rfl
  | d :: text, [] => rfl
  | d :: text, c :: input => by
    rw [sizeFrom, longest, List.isPrefixOf_cons_cons]
    by_cases h : c = d
    · have hstep : progress (.fixed (d :: text)) c = some (.fixed text) := if_pos h
      have hrest : longest progress complete (.fixed text) input = _ := longest_fixed text input
      rw [hstep, Option.bind_some, hrest, h, beq_self_eq_true, Bool.true_and]
      by_cases hp : text.isPrefixOf input
      · rw [if_pos hp, if_pos hp, List.length_cons]
      · rw [if_neg hp, if_neg hp]
        rfl
    · have hstep : progress (.fixed (d :: text)) c = none := if_neg h
      have hd : (d == c) = false := beq_false_of_ne (Ne.symm h)
      rw [hstep, hd]
      rfl

theorem size_fixed (text : String) : literal text = sizeFrom (.fixed text.toList) := by
  funext input
  rw [literal, ← String.length_toList]
  exact (longest_fixed text.toList input).symm

theorem longest_more (q : CharClass) : ∀ input : List Char,
    sizeFrom (.more q) input = some (input.takeWhile q.has).length
  | [] => rfl
  | c :: input => by
    have hrest : longest progress complete (.more q) input = _ := longest_more q input
    rw [sizeFrom, longest, List.takeWhile_cons]
    by_cases h : q.has c
    · have hstep : progress (.more q) c = some (.more q) := if_pos h
      rw [hstep, Option.bind_some, hrest, if_pos h, List.length_cons]
    · have hstep : progress (.more q) c = none := if_neg h
      rw [hstep, if_neg h]
      rfl

theorem size_first_cons (p q : CharClass) (c : Char) (input : List Char) :
    sizeFrom (.first p q) (c :: input) =
      if p.has c then some ((input.takeWhile q.has).length + 1) else none := by
  rw [sizeFrom, longest]
  by_cases h : p.has c
  · have hstep : progress (.first p q) c = some (.more q) := if_pos h
    have hrest : longest progress complete (.more q) input = _ := longest_more q input
    rw [hstep, Option.bind_some, hrest, if_pos h]
  · have hstep : progress (.first p q) c = none := if_neg h
    rw [hstep, if_neg h]
    rfl

theorem size_many1 (p : CharClass) : many1 p.has = sizeFrom (.first p p) := by
  funext input
  cases input with
  | nil => rfl
  | cons c input =>
    rw [size_first_cons, many1, List.takeWhile_cons]
    by_cases h : p.has c
    · rw [if_pos h, if_pos h, List.length_cons, if_neg (Nat.succ_ne_zero _)]
    · rw [if_neg h, if_neg h]
      rfl

theorem size_id : idSize = sizeFrom (.first .idFirst .idChar) := by
  funext input
  cases input with
  | nil => rfl
  | cons c input =>
    rw [size_first_cons]
    rfl

theorem size_comment : commentSize = sizeFrom (.first .hash .inLine) := by
  funext input
  cases input with
  | nil => rfl
  | cons c input =>
    rw [size_first_cons]
    by_cases h : c = '#'
    · rw [h]
      rfl
    · have hhas : CharClass.hash.has c = false := beq_false_of_ne h
      rw [hhas]
      unfold commentSize
      split
      · next heq =>
        exact absurd (List.cons.inj heq).1 h
      · rfl

theorem size_any : anySize = sizeFrom (.first .inLine .nothing) := by
  funext input
  cases input with
  | nil => rfl
  | cons c input =>
    have hrest : input.takeWhile CharClass.nothing.has = [] := by cases input <;> rfl
    rw [size_first_cons, anySize, hrest]
    by_cases h : c = '\n'
    · rw [if_pos h, h]
      rfl
    · have hhas : CharClass.inLine.has c := decide_eq_true h
      rw [if_neg h, if_pos hhas]
      rfl

theorem longest_string : ∀ (input : List Char) (m : Mode),
    sizeFrom (.string m) input = longest modeStep (· == .word) m input
  | [], m => by cases m <;> rfl
  | c :: input, m => by
    have hstep : progress (.string m) c = (modeStep m c).map .string := rfl
    have hcomplete : complete (.string m) = (m == .word) := by cases m <;> rfl
    rw [sizeFrom, longest, longest, hstep, hcomplete]
    cases hm : modeStep m c with
    | none => rfl
    | some m' =>
      have hrest : longest progress complete (.string m') input = _ := longest_string input m'
      rw [Option.map_some, Option.bind_some, Option.bind_some, hrest]

theorem size_string : stringSize = sizeFrom (.string .start) := by
  funext input
  exact (longest_string input .start).symm

/-- Each rule has its start, and the number of its action. -/
theorem named_rules : List.Forall₂ (Named progress complete action) rules starts := by
  unfold rules starts
  repeat' constructor
  all_goals first
    | exact size_fixed _
    | exact size_many1 .digit
    | exact size_many1 .simple
    | exact size_many1 .white
    | exact size_id
    | exact size_string
    | exact size_comment
    | exact size_any

/-! ### Classes of bytes -/

/-- A byte of each class. -/
def representatives : List Char :=
  ['!', '\x20', '\n', '#', '$', '&', '\'', '0', '<', '=', '>', 'A', '\\', 'b', 'c', 'd', 'e', 'h',
    'i', 'j', 'k', 'l', 'o', 'p', 'q', 'r', 's', 't', 'u', 'w', 'x', '|']

def representative (c : ℕ) : Char := representatives.getD (c - 1) '!'

/-- The class of each byte. -/
def byteClasses : List ℕ := 1 :: yyEcTable.tail

theorem yyClass_eq (b : UInt8) : yyClass b = byteClasses.getD b.toNat 0 := by
  unfold yyClass yyEc byteClasses
  by_cases hb : b = 0
  · rw [if_pos hb, hb]
    rfl
  · have hpos : b.toNat ≠ 0 := fun h => hb (UInt8.toNat_inj.mp h)
    obtain ⟨n, hn⟩ := Nat.exists_eq_succ_of_ne_zero hpos
    rw [if_neg hb, hn]
    rfl

set_option maxRecDepth 2000 in
theorem length_byteClasses : byteClasses.length = 256 := rfl

theorem mem_byteClasses (b : UInt8) : (yyClass b, b.toNat) ∈ byteClasses.zipIdx := by
  have hlen : b.toNat < byteClasses.length := length_byteClasses ▸ b.toNat_lt
  rw [yyClass_eq, List.getD_eq_getElem _ _ hlen]
  exact List.mk_mem_zipIdx_iff_getElem?.mpr (List.getElem?_eq_getElem hlen)

/-- The characters of the fixed texts, and others that the rules name. -/
def keys : List Char :=
  ['|', '&', '=', '<', '>', '\n', '#', '\\', '\'', 'b', 'c', 'd', 'e', 'h', 'i', 'j', 'k', 'l', 'o',
    'p', 'q', 'r', 's', 't', 'u', 'w', 'x']

/-- The characters are the same to all rules. -/
structure Alike (c d : Char) : Prop where
  has : ∀ p : CharClass, p.has c = p.has d
  plain : isPlain c = isPlain d
  key : ∀ k ∈ keys, c = k ↔ d = k

/-- The classes that are more than a comparison with a key. -/
def ranges : List (Char → Bool) :=
  [isPlain, CharClass.digit.has, CharClass.idFirst.has, CharClass.idChar.has, CharClass.simple.has,
    CharClass.white.has]

/-- The bytes of a class are the same to the rules, and a key is alone in its class. -/
theorem byte_table : ∀ p ∈ byteClasses.zipIdx, (1 ≤ p.1 ∧ p.1 ≤ 32) ∧
    (∀ t ∈ ranges, t (Char.ofNat p.2) = t (representative p.1)) ∧
    (p.2 ∈ keys.map Char.toNat ∨ (representative p.1).toNat ∈ keys.map Char.toNat →
      p.2 = (representative p.1).toNat) := by
  decide +kernel

theorem yyClass_mem (b : UInt8) : 1 ≤ yyClass b ∧ yyClass b ≤ 32 :=
  (byte_table _ (mem_byteClasses b)).1

theorem toNat_byteChar (b : UInt8) : (byteChar b).toNat = b.toNat := by
  have hb := b.toNat_lt
  have hvalid : b.toNat.isValidChar := Or.inl (by omega)
  rw [byteChar, Char.ofNat, dif_pos hvalid]
  exact UInt32.toNat_ofNatLT

/-- **The rules see only the class of a byte.** -/
theorem alike_byte (b : UInt8) : Alike (byteChar b) (representative (yyClass b)) := by
  obtain ⟨-, hrange, htable⟩ := byte_table _ (mem_byteClasses b)
  have hkey : ∀ k ∈ keys, byteChar b = k ↔ representative (yyClass b) = k := by
    rw [← toNat_byteChar b] at htable
    intro k hk
    constructor
    · intro h
      rw [← h] at hk
      exact (Char.toNat_inj.mp (htable (Or.inl (List.mem_map_of_mem hk)))) ▸ h
    · intro h
      rw [← h] at hk
      exact (Char.toNat_inj.mp (htable (Or.inr (List.mem_map_of_mem hk)))).trans h
  have hequal : ∀ k ∈ keys, (byteChar b == k) = (representative (yyClass b) == k) := by
    intro k hk
    rw [Bool.eq_iff_iff, beq_iff_eq, beq_iff_eq, hkey k hk]
  refine ⟨fun p => ?_, hrange _ (by simp [ranges]), hkey⟩
  cases p with
  | hash => exact hequal '#' (by decide)
  | inLine => exact decide_eq_decide.mpr (not_congr (hkey '\n' (by decide)))
  | nothing => rfl
  | _ => exact hrange _ (by simp [ranges])

/-- What a rule has still to see of a fixed text is made of the keys. -/
def Progress.known : Progress → Bool
  | .fixed rest => rest.all keys.contains
  | _ => true

variable {c d : Char}

theorem progress_congr (h : Alike c d) {q : Progress} (hq : q.known) : progress q c = progress q d := by
  rcases q with (_ | ⟨k, rest⟩) | ⟨p, q⟩ | q | m
  · rfl
  · simp only [Progress.known, List.all_cons, Bool.and_eq_true, List.contains_iff_mem] at hq
    simp only [progress, h.key k hq.1]
  · simp only [progress, h.has p]
  · simp only [progress, h.has q]
  · have hback := h.key '\\' (by decide)
    have hquote := h.key '\'' (by decide)
    simp only [progress]
    cases m with
    | start => simp only [modeStep, hback, hquote, h.plain]
    | word => simp only [modeStep, hback, hquote, h.plain]
    | escape => rfl
    | quote => simp only [modeStep, hback, hquote]
    | quoteEscape => rfl

theorem advance_congr (h : Alike c d) {conf : List (ℕ × Progress)} (hconf : ∀ p ∈ conf, p.2.known) :
    advance progress conf c = advance progress conf d := by
  refine List.filterMap_congr fun p hp => ?_
  rw [progress_congr h (hconf p hp)]

/-! ### Tables as numbers -/

/-- A table of small numbers as one number. -/
def pack : List ℕ → ℕ
  | [] => 0
  | d :: l => d + 256 * pack l

theorem pack_getD : ∀ {l : List ℕ}, (∀ d ∈ l, d < 256) → ∀ i : ℕ, pack l / 256 ^ i % 256 = l.getD i 0
  | [], _, i => by rw [pack, Nat.zero_div, Nat.zero_mod, List.getD_nil]
  | d :: l, h, 0 => by
    have hd := h d List.mem_cons_self
    rw [pack, pow_zero, Nat.div_one, List.getD_cons_zero]
    omega
  | d :: l, h, i + 1 => by
    have hd := h d List.mem_cons_self
    have hrest := pack_getD (fun e he => h e (List.mem_cons_of_mem d he)) i
    rw [pack, pow_succ', ← Nat.div_div_eq_div_mul, List.getD_cons_succ, ← hrest]
    congr 2
    omega

/-- The loop ends within the rounds. -/
def yyStops : ℕ → ℕ → ℕ → Bool
  | 0, state, c => yyChkTable.getD (yyBase state + c) 0 == state
  | n + 1, state, c =>
    yyChkTable.getD (yyBase state + c) 0 == state ||
      yyStops n (yyDefTable.getD state 0) (if 57 ≤ yyDefTable.getD state 0 then yyMetaTable.getD c 0 else c)

theorem yyNextN_stops (k : ℕ) : ∀ {n state c : ℕ}, yyStops n state c →
    yyNextN (n + k) state c = yyNextN n state c
  | 0, state, c, h => by
    have hfound : yyChkTable.getD (yyBase state + c) 0 = state := beq_iff_eq.mp h
    cases k with
    | zero => rfl
    | succ k =>
      rw [Nat.zero_add]
      exact if_pos hfound
  | n + 1, state, c, h => by
    rw [Nat.succ_add, yyNextN, yyNextN]
    by_cases hfound : yyChkTable.getD (yyBase state + c) 0 = state
    · rw [if_pos hfound, if_pos hfound]
    · rw [yyStops, Bool.or_eq_true, beq_iff_eq] at h
      rw [if_neg hfound, if_neg hfound]
      exact yyNextN_stops k (h.resolve_left hfound)

/-- `yyNextN` with its tables as numbers. -/
def packedNextN : ℕ → ℕ → ℕ → ℕ
  | 0, state, c => pack yyNxtTable / 256 ^ (pack yyBaseTable / 256 ^ state % 256 + c) % 256
  | n + 1, state, c =>
    let i := pack yyBaseTable / 256 ^ state % 256 + c
    if pack yyChkTable / 256 ^ i % 256 = state then pack yyNxtTable / 256 ^ i % 256
    else
      let state := pack yyDefTable / 256 ^ state % 256
      packedNextN n state (if 57 ≤ state then pack yyMetaTable / 256 ^ c % 256 else c)

/-- `yyStops` with its tables as numbers. -/
def packedStops : ℕ → ℕ → ℕ → Bool
  | 0, state, c => pack yyChkTable / 256 ^ (pack yyBaseTable / 256 ^ state % 256 + c) % 256 == state
  | n + 1, state, c =>
    let next := pack yyDefTable / 256 ^ state % 256
    pack yyChkTable / 256 ^ (pack yyBaseTable / 256 ^ state % 256 + c) % 256 == state ||
      packedStops n next (if 57 ≤ next then pack yyMetaTable / 256 ^ c % 256 else c)

theorem yy_table : (∀ l ∈ [yyNxtTable, yyChkTable, yyBaseTable, yyDefTable, yyMetaTable],
    ∀ d ∈ l, d < 256) ∧ ∀ state < 57, state ≠ 0 → ∀ c < 33, packedStops 3 state c := by
  decide +kernel

theorem pack_yyTables : ∀ l ∈ [yyNxtTable, yyChkTable, yyBaseTable, yyDefTable, yyMetaTable],
    ∀ i : ℕ, pack l / 256 ^ i % 256 = l.getD i 0 :=
  fun l hl => pack_getD (yy_table.1 l hl)

theorem packedNextN_eq (n state c : ℕ) : packedNextN n state c = yyNextN n state c := by
  obtain ⟨hnxt, hchk, hbase, hdef, hmeta, -⟩ : _ ∧ _ ∧ _ ∧ _ ∧ _ ∧ _ := by
    simpa only [List.forall_mem_cons] using pack_yyTables
  induction n generalizing state c with
  | zero => rw [packedNextN, yyNextN, hbase, hnxt, yyBase]
  | succ n ih =>
    simp only [packedNextN, yyNextN, yyBase, hnxt, hchk, hbase, hdef, hmeta, ih]
    rfl

/-- `yyNext` with its tables as numbers. -/
def packedNext (state c : ℕ) : ℕ := packedNextN 3 state c

theorem packedNext_eq : packedNext = yyNext := by
  funext state c
  exact packedNextN_eq 3 state c

theorem packedStops_eq (n state c : ℕ) : packedStops n state c = yyStops n state c := by
  obtain ⟨-, hchk, hbase, hdef, hmeta, -⟩ : _ ∧ _ ∧ _ ∧ _ ∧ _ ∧ _ := by
    simpa only [List.forall_mem_cons] using pack_yyTables
  induction n generalizing state c with
  | zero => rw [packedStops, yyStops, hbase, hchk, yyBase]
  | succ n ih => simp only [packedStops, yyStops, yyBase, hchk, hbase, hdef, hmeta, ih]

/-- **The loop through `yy_def` ends**: more rounds change nothing. -/
theorem yyNext_rounds {state c : ℕ} (hstate : state < 57) (hne : state ≠ 0) (hc : c < 33) (k : ℕ) :
    yyNextN (3 + k) state c = yyNext state c :=
  yyNextN_stops k (packedStops_eq 3 state c ▸ yy_table.2 state hstate hne c hc)

/-! ### The rules and the tables -/

/-- The states of the tables, but for those that stand for the end of the buffer or for the start of a
line. -/
def states : List ℕ := 1 :: List.range' 4 53

/-- For each of the states, the characters that lead to it. -/
def access : List (List Char) :=
  [[], [], [], [], ['!'], ['\x20'], ['\n'], ['#'], ['$'], ['&'], ['\''], ['0'], ['<'], ['='], ['>'],
    ['A'], ['\\'], ['c'], ['e'], ['j'], ['k'], ['p'], ['q'], ['|'], ['!', '!'], ['!', '$'],
    ['!', '\''], ['!', '\\'], ['\x20', '\x20'], ['#', '!'], ['\'', '!'], ['\'', '\\'], ['0', '0'],
    ['>', '>'], ['A', '0'], ['c', 'd'], ['e', 'c'], ['e', 'x'], ['j', 'o'], ['k', 'i'], ['p', 'w'],
    ['q', 'u'], ['e', 'c', 'h'], ['e', 'x', 'i'], ['e', 'x', 'p'], ['j', 'o', 'b'], ['k', 'i', 'l'],
    ['p', 'w', 'd'], ['q', 'u', 'i'], ['e', 'c', 'h', 'o'], ['e', 'x', 'i', 't'], ['e', 'x', 'p', 'o'],
    ['j', 'o', 'b', 's'], ['k', 'i', 'l', 'l'], ['e', 'x', 'p', 'o', 'r'],
    ['e', 'x', 'p', 'o', 'r', 't'], ['\n', '\n']]

/-- What is left of the rules in a state. -/
def residual (state : ℕ) : List (ℕ × Progress) := (access.getD state []).foldl (advance progress) starts

/-- What a state of the tables says about the text before it. -/
def verdict (state : ℕ) : Option ℕ := if yyAccept state = 0 then none else some (yyAccept state)

/-- The tables, a byte at a time. -/
def move (state : ℕ) (b : UInt8) : ℕ := yyNext state (yyClass b)

/-- **The tables and the rules move alike.** -/
theorem closed_access : ∀ state ∈ states, verdict state = winner complete (residual state) ∧
    (∀ p ∈ residual state, p.2.known) ∧
    ∀ c ∈ List.range' 1 32, (4 ≤ yyNext state c ∧ yyNext state c < 57) ∧
      advance progress (residual state) (representative c) = residual (yyNext state c) := by
  rw [← packedNext_eq]
  decide +kernel

/-- A state of the tables, and what is left of the rules there. -/
def Same (state : ℕ) (conf : List (ℕ × Progress)) : Prop := state ∈ states ∧ conf = residual state

theorem same_step {state : ℕ} {conf : List (ℕ × Progress)} (b : UInt8) (h : Same state conf) :
    Same (move state b) (advance progress conf (byteChar b)) := by
  obtain ⟨hstate, rfl⟩ := h
  obtain ⟨hpos, hle⟩ := yyClass_mem b
  have hclass : yyClass b ∈ List.range' 1 32 := List.mem_range'_1.mpr ⟨hpos, by omega⟩
  obtain ⟨-, hknown, hclosed⟩ := closed_access state hstate
  obtain ⟨hnext, hadvance⟩ := hclosed _ hclass
  rw [advance_congr (alike_byte b) hknown]
  exact ⟨List.mem_cons_of_mem _ (List.mem_range'_1.mpr hnext), hadvance⟩

/-- **The tables are the rules**: what `lex.yy.c` finds at the start of a text is what `parse.l` says. -/
theorem best_eq_table (l : List UInt8) :
    ((best rules (l.map byteChar)).map fun b => (b.1, b.2.action)) =
      (munch move verdict 1 l).map fun m => (m.1, action m.2) := by
  have hstart : Same 1 starts := ⟨List.mem_cons_self, rfl⟩
  have hverdict : ∀ state conf, Same state conf → verdict state = winner complete conf := by
    rintro state conf ⟨hstate, rfl⟩
    exact (closed_access state hstate).1
  rw [best_eq_munch named_rules, munch_map,
    munch_congr Same hverdict (fun _ _ b h => same_step b h) hstart]

end Eecs678.Quash.LexTables
