import Eecs678.Lib.Scanf
import Eecs678.Lib.Scanner
import Eecs678.Quash.Commands

/-!
# The lexer

`project1/quash/src/parsing/parse.l`, one `Rule` for each rule of the file, in their order. A token
carries the C string that `memory_pool_strdup(yytext)` makes of the matched text. After the last token
`yylex` returns `END`, and does so again whenever it is called, so `END` is the end of the list. The
messages of the last rule are left out.

`{string}` is an automaton; `stringSize_spec` says that it finds the longest match of the pattern.
-/

namespace Eecs678.Quash.Lexer

open Eecs678.Lib.Scanf (cString)
open Eecs678.Lib.Scanner Eecs678.Quash.Commands

inductive Token
  | pipe
  | bckgrnd
  | equals
  | redirIn
  | redirOut
  | redirOutApp
  | echoTok
  | exportTok
  | cdTok
  | pwdTok
  | jobsTok
  | killTok
  | eocTok
  | exitTok (s : Str)
  | num (s : Str)
  | id (s : Str)
  | simStr (s : Str)
  | str (s : Str)
deriving DecidableEq, Repr

/-! ### Patterns -/

def isDigit (c : Char) : Bool := '0' ≤ c && c ≤ '9'

def isAlpha (c : Char) : Bool := ('a' ≤ c && c ≤ 'z') || ('A' ≤ c && c ≤ 'Z')

/-- `[a-zA-Z_]`. -/
def isIdFirst (c : Char) : Bool := isAlpha c || c == '_'

/-- `[a-zA-Z0-9_]`. -/
def isIdChar (c : Char) : Bool := isAlpha c || isDigit c || c == '_'

/-- `[^ \t\r\n\'\#\<\>\=&\|\\]`. -/
def isPlain (c : Char) : Bool :=
  !(['\x20', '\t', '\r', '\n', '\'', '#', '<', '>', '=', '&', '|', '\\'].contains c)

/-- A fixed text. -/
def literal (text : String) (input : List Char) : Option ℕ :=
  if text.toList.isPrefixOf input then some text.length else none

/-- One or more characters of a class. -/
def many1 (p : Char → Bool) (input : List Char) : Option ℕ :=
  if (input.takeWhile p).length = 0 then none else some (input.takeWhile p).length

/-- `{id}`. -/
def idSize : List Char → Option ℕ
  | c :: input => if isIdFirst c then some ((input.takeWhile isIdChar).length + 1) else none
  | [] => none

/-- `{comment}`. -/
def commentSize : List Char → Option ℕ
  | '#' :: input => some ((input.takeWhile (· ≠ '\n')).length + 1)
  | _ => none

/-- `.`. -/
def anySize : List Char → Option ℕ
  | c :: _ => if c = '\n' then none else some 1
  | [] => none

/-- Where a match of `{string}` stands: at its start, after a piece, after a backslash, in quotes, after
a backslash in quotes. -/
inductive Mode
  | start
  | word
  | escape
  | quote
  | quoteEscape
deriving DecidableEq, Repr

def modeStep (m : Mode) (c : Char) : Option Mode :=
  match m with
  | .start | .word =>
    if c = '\\' then some .escape else if c = '\'' then some .quote
    else if isPlain c then some .word else none
  | .escape => some .word
  | .quote => if c = '\\' then some .quoteEscape else if c = '\'' then some .word else some .quote
  | .quoteEscape => some .quote

/-- `{string}`. -/
def stringSize : List Char → Option ℕ := longest modeStep (· == .word) .start

/-! ### The rules -/

/-- A rule whose token carries no text. -/
def symbol (text : String) (token : Token) : Rule Char Token where
  size := literal text
  action := fun _ => some token

/-- A rule whose token carries the text. -/
def text (size : List Char → Option ℕ) (token : Str → Token) : Rule Char Token where
  size := size
  action := fun yytext => some (token (cString yytext))

/-- A rule without a token. -/
def skip (size : List Char → Option ℕ) : Rule Char Token where
  size := size
  action := fun _ => none

def rules : List (Rule Char Token) :=
  [symbol "|" .pipe, symbol "&" .bckgrnd, symbol "=" .equals, symbol "<" .redirIn,
    symbol ">" .redirOut, symbol ">>" .redirOutApp, symbol "echo" .echoTok,
    symbol "export" .exportTok, symbol "cd" .cdTok, symbol "pwd" .pwdTok, symbol "jobs" .jobsTok,
    symbol "kill" .killTok, symbol "\n" .eocTok, text (literal "exit") .exitTok,
    text (literal "quit") .exitTok, text (many1 isDigit) .num, text idSize .id,
    text (many1 fun c => isPlain c && c != '$') .simStr, text stringSize .str, skip commentSize,
    skip (many1 fun c => c == '\x20' || c == '\t' || c == '\r'), skip anySize]

/-- All that `yylex` returns on an input, up to the first `END`. -/
def lex (input : List Char) : List Token := scan rules input.length input

/-! ### Progress -/

theorem literal_pos {s : String} (hs : 0 < s.length) {input : List Char} {n : ℕ}
    (h : literal s input = some n) : 0 < n := by
  unfold literal at h
  split at h
  · cases h
    exact hs
  · cases h

theorem many1_pos {p : Char → Bool} {input : List Char} {n : ℕ} (h : many1 p input = some n) :
    0 < n := by
  unfold many1 at h
  split at h
  · cases h
  · next hne =>
    cases h
    omega

theorem idSize_pos {input : List Char} {n : ℕ} (h : idSize input = some n) : 0 < n := by
  unfold idSize at h
  split at h
  · split at h
    · cases h
      exact Nat.succ_pos _
    · cases h
  · cases h

theorem commentSize_pos {input : List Char} {n : ℕ} (h : commentSize input = some n) : 0 < n := by
  unfold commentSize at h
  split at h
  · cases h
    exact Nat.succ_pos _
  · cases h

theorem anySize_pos {input : List Char} {n : ℕ} (h : anySize input = some n) : 0 < n := by
  unfold anySize at h
  split at h
  · split at h
    · cases h
    · cases h
      exact Nat.one_pos
  · cases h

theorem stringSize_pos {input : List Char} {n : ℕ} (h : stringSize input = some n) : 0 < n := by
  obtain ⟨-, h2⟩ := longest_sound h
  cases n with
  | zero => cases h2
  | succ n => exact Nat.succ_pos n

/-- Every rule matches at least one character. -/
theorem positive_rules : Positive rules := by
  intro r hr input n hn
  simp only [rules, List.mem_cons, List.not_mem_nil, or_false] at hr
  rcases hr with rfl | rfl | rfl | rfl | rfl | rfl | rfl | rfl | rfl | rfl | rfl | rfl | rfl | rfl |
    rfl | rfl | rfl | rfl | rfl | rfl | rfl | rfl
  all_goals first
    | exact literal_pos (by decide) hn
    | exact many1_pos hn
    | exact idSize_pos hn
    | exact stringSize_pos hn
    | exact commentSize_pos hn
    | exact anySize_pos hn

/-! ### The pattern `{string}` -/

/-- `(\\\\(.|\n)|[^\\\\'])*`. -/
inductive Quoted : List Char → Prop
  | nil : Quoted []
  | escape (c : Char) {l : List Char} (h : Quoted l) : Quoted ('\\' :: c :: l)
  | char {c : Char} (h1 : c ≠ '\\') (h2 : c ≠ '\'') {l : List Char} (h : Quoted l) : Quoted (c :: l)

/-- The pieces of `{string}`, as many as there are. -/
inductive Pieces : List Char → Prop
  | nil : Pieces []
  | plain {c : Char} (hc : isPlain c) {l : List Char} (h : Pieces l) : Pieces (c :: l)
  | escape (c : Char) {l : List Char} (h : Pieces l) : Pieces ('\\' :: c :: l)
  | quote {q l : List Char} (hq : Quoted q) (h : Pieces l) : Pieces ('\'' :: (q ++ '\'' :: l))

/-- The automaton accepts from the mode. -/
abbrev From (m : Mode) (l : List Char) : Prop := Accepts modeStep (· == .word) m l

theorem from_quote {q l : List Char} (hq : Quoted q) (h : From .word l) :
    From .quote (q ++ '\'' :: l) := by
  induction hq with
  | nil => exact ⟨.word, rfl, h⟩
  | escape c hq ih => exact ⟨.quoteEscape, rfl, .quote, rfl, ih⟩
  | char h1 h2 hq ih => exact ⟨.quote, by simp only [modeStep, if_neg h1, if_neg h2], ih⟩

theorem from_word {l : List Char} (h : Pieces l) : From .word l := by
  induction h with
  | nil => rfl
  | @plain c hc l h ih =>
    refine ⟨.word, ?_, ih⟩
    have h1 : c ≠ '\\' := by
      rintro rfl
      cases hc
    have h2 : c ≠ '\'' := by
      rintro rfl
      cases hc
    simp only [modeStep, if_neg h1, if_neg h2, hc, if_true]
  | escape c h ih => exact ⟨.escape, rfl, .word, rfl, ih⟩
  | quote hq h ih => exact ⟨.quote, rfl, from_quote hq ih⟩

/-- What the automaton has still to read from each mode. -/
theorem pieces_of_from : ∀ l : List Char, (From .word l → Pieces l) ∧
    (From .escape l → ∃ c r, l = c :: r ∧ Pieces r) ∧
    (From .quote l → ∃ q r, l = q ++ '\'' :: r ∧ Quoted q ∧ Pieces r) ∧
    (From .quoteEscape l → ∃ c q r, l = c :: (q ++ '\'' :: r) ∧ Quoted q ∧ Pieces r)
  | [] => ⟨fun _ => .nil, fun h => absurd h Bool.false_ne_true, fun h => absurd h Bool.false_ne_true,
      fun h => absurd h Bool.false_ne_true⟩
  | c :: l => by
    obtain ⟨hword, hescape, hquote, hquoteEscape⟩ := pieces_of_from l
    refine ⟨?_, ?_, ?_, ?_⟩
    · rintro ⟨m, hm, h⟩
      simp only [modeStep] at hm
      split_ifs at hm with h1 h2 h3
      · cases hm
        obtain ⟨d, r, rfl, hr⟩ := hescape h
        exact h1 ▸ .escape d hr
      · cases hm
        obtain ⟨q, r, rfl, hq, hr⟩ := hquote h
        exact h2 ▸ .quote hq hr
      · cases hm
        exact .plain h3 (hword h)
    · rintro ⟨m, hm, h⟩
      cases hm
      exact ⟨c, l, rfl, hword h⟩
    · rintro ⟨m, hm, h⟩
      simp only [modeStep] at hm
      split_ifs at hm with h1 h2
      · cases hm
        obtain ⟨d, q, r, rfl, hq, hr⟩ := hquoteEscape h
        exact ⟨c :: d :: q, r, rfl, h1 ▸ .escape d hq, hr⟩
      · cases hm
        exact ⟨[], l, by rw [h2]; rfl, .nil, hword h⟩
      · cases hm
        obtain ⟨q, r, rfl, hq, hr⟩ := hquote h
        exact ⟨c :: q, r, rfl, .char h1 h2 hq, hr⟩
    · rintro ⟨m, hm, h⟩
      cases hm
      obtain ⟨q, r, rfl, hq, hr⟩ := hquote h
      exact ⟨c, q, r, rfl, hq, hr⟩

/-- `{string}`: one or more pieces. -/
theorem from_start {l : List Char} : From .start l ↔ l ≠ [] ∧ Pieces l := by
  cases l with
  | nil => exact iff_of_false (fun h => by cases h) fun h => h.1 rfl
  | cons c l =>
    have hsame : From .start (c :: l) ↔ From .word (c :: l) := Iff.rfl
    rw [hsame]
    exact ⟨fun h => ⟨List.cons_ne_nil _ _, (pieces_of_from _).1 h⟩, fun h => from_word h.2⟩

/-- **`stringSize` is the longest match of `{string}`.** -/
theorem stringSize_spec {input : List Char} {n : ℕ} (h : stringSize input = some n) :
    n ≤ input.length ∧ 0 < n ∧ Pieces (input.take n) ∧
      ∀ m ≤ input.length, 0 < m → Pieces (input.take m) → m ≤ n := by
  obtain ⟨h1, h2⟩ := longest_sound h
  refine ⟨h1, stringSize_pos h, (from_start.mp h2).2, fun m hm hpos hp => ?_⟩
  have hne : input.take m ≠ [] := by
    rw [ne_eq, List.take_eq_nil_iff]
    rintro (rfl | rfl)
    · exact absurd hpos (lt_irrefl _)
    · rw [List.length_nil] at hm
      omega
  obtain ⟨k, hk, hmk⟩ := longest_complete hm (from_start.mpr ⟨hne, hp⟩)
  have hkn : some k = some n := hk.symm.trans h
  rwa [Option.some.inj hkn] at hmk

end Eecs678.Quash.Lexer
