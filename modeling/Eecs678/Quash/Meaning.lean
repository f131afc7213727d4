import Eecs678.Quash.Parser
import Eecs678.Quash.Quoting
import Mathlib.Data.List.Chain
import Mathlib.Data.List.TakeWhile

/-!
# What words mean

The value that `interpret_complex_string_token` gives to a word, as the meanings of the parts of the word
(`interpret_parts`). A part goes with the characters that a number of rounds of the loop read (`Rounds`).
A word that is escaped for the lexer is read back by the parts of its characters (`escape_iff`).
-/

namespace Eecs678.Quash.Meaning

open Eecs678.Lib.Scanf (cString)
open Eecs678.Lib Eecs678.Quash.Commands Eecs678.Quash.Lexer Eecs678.Quash.Words
open Eecs678.Quash.Quoting Eecs678.Quash.Parser

/-! ### Parts -/

/-- What a quotation means: a backslash in front of a quote is left out. -/
def unquote : Str → Str
  | '\\' :: '\'' :: q => '\'' :: unquote q
  | c :: q => c :: unquote q
  | [] => []

/-- A part of a word. -/
inductive Part
  | char (c : Char)
  | escape (c : Char)
  | continuation
  | backslash
  | deref (name : Str)
  | quotation (q : Str)

/-- The characters of a part. -/
def Part.text : Part → Str
  | .char c => [c]
  | .escape c => ['\\', c]
  | .continuation => ['\\', '\n']
  | .backslash => ['\\']
  | .deref name => '$' :: name
  | .quotation q => '\'' :: (q ++ ['\''])

/-- What a part means. -/
def Part.meaning (env : Str → Option Str) : Part → Str
  | .char c => [c]
  | .escape c => [c]
  | .continuation => []
  | .backslash => ['\\']
  | .deref name => (env name).getD []
  | .quotation q => unquote q

/-- No two adjacent backslashes. -/
def Clean (q : Str) : Prop := q.IsChain fun a b => a = '\\' → b ≠ '\\'

/-- The part can stand in front of the characters. -/
def Part.Fits (l : Str) : Part → Prop
  | .char c => c ≠ '\\' ∧ c ≠ '\'' ∧ (c = '$' → isIdFirst (l.headD '\x00') = false)
  | .escape c => isEscapable c = true
  | .continuation => True
  | .backslash => isEscapable (l.headD '\x00') = false ∧ l.headD '\x00' ≠ '\n'
  | .deref name => isIdFirst (name.headD '\x00') = true ∧ (∀ c ∈ name, isIdChar c = true) ∧
      isIdChar (l.headD '\x00') = false
  | .quotation q => Quoted q ∧ Clean q

def textOf (parts : List Part) : Str := parts.flatMap Part.text

def meaningOf (env : Str → Option Str) (parts : List Part) : Str := parts.flatMap (Part.meaning env)

/-- Each part fits in front of the parts behind it. -/
def Proper : List Part → Prop
  | [] => True
  | p :: parts => p.Fits (textOf parts) ∧ Proper parts

/-- The pieces of `{string}`, with clean quotations. -/
inductive CleanPieces : Str → Prop
  | nil : CleanPieces []
  | plain {c : Char} (hc : isPlain c) {l : Str} (h : CleanPieces l) : CleanPieces (c :: l)
  | escape (c : Char) {l : Str} (h : CleanPieces l) : CleanPieces ('\\' :: c :: l)
  | quote {q l : Str} (hq : Quoted q) (hclean : Clean q) (h : CleanPieces l) :
      CleanPieces ('\'' :: (q ++ '\'' :: l))

/-! ### Words in parts -/

theorem plain_ne {c : Char} (hc : isPlain c = true) : c ≠ '\\' ∧ c ≠ '\'' :=
  ⟨fun he => absurd (he ▸ hc) (by decide), fun he => absurd (he ▸ hc) (by decide)⟩

theorem cleanPieces_tail {c : Char} (h1 : c ≠ '\\') (h2 : c ≠ '\'') {l : Str}
    (h : CleanPieces (c :: l)) : CleanPieces l := by
  cases h with
  | plain _ h => exact h
  | escape _ _ => exact absurd rfl h1
  | quote _ _ _ => exact absurd rfl h2

theorem idChar_ne {c : Char} (hc : isIdChar c = true) : c ≠ '\\' ∧ c ≠ '\'' :=
  ⟨fun he => absurd (he ▸ hc) (by decide), fun he => absurd (he ▸ hc) (by decide)⟩

theorem cleanPieces_dropWhile : ∀ {l : Str}, CleanPieces l → CleanPieces (l.dropWhile isIdChar)
  | [], h => h
  | c :: l, h => by
    by_cases hc : isIdChar c = true
    · rw [List.dropWhile_cons_of_pos hc]
      exact cleanPieces_dropWhile (cleanPieces_tail (idChar_ne hc).1 (idChar_ne hc).2 h)
    · rwa [List.dropWhile_cons_of_neg hc]

theorem isIdChar_of_first {c : Char} (h : isIdFirst c = true) : isIdChar c = true := by
  simp only [isIdFirst, isIdChar, Bool.or_eq_true] at h ⊢
  tauto

theorem headD_dropWhile (p : Char → Bool) (h0 : p '\x00' = false) (l : Str) :
    p ((l.dropWhile p).headD '\x00') = false := by
  rw [List.headD_eq_head?_getD]
  cases hd : (l.dropWhile p).head? with
  | none => exact h0
  | some c => simpa [hd] using List.head?_dropWhile_not p l

/-- Not one of the characters that can be escaped. -/
theorem not_escapable {c : Char} (h : isEscapable c = false) : c ≠ '\\' ∧ c ≠ '\'' ∧ c ≠ '$' :=
  ⟨fun he => absurd (he ▸ h) (by decide), fun he => absurd (he ▸ h) (by decide),
    fun he => absurd (he ▸ h) (by decide)⟩

/-- **Every word has parts.** -/
theorem exists_parts : ∀ (n : ℕ) {w : Str}, w.length ≤ n → CleanPieces w →
    ∃ parts, Proper parts ∧ textOf parts = w
  | _, [], _, _ => ⟨[], trivial, rfl⟩
  | 0, c :: w, hn, _ => absurd hn (by simp)
  | n + 1, c :: w, hn, h => by
    have ih := fun {l : Str} (hlen : l.length ≤ w.length) (hl : CleanPieces l) =>
      exists_parts n (hlen.trans (by simpa using hn)) hl
    cases h with
    | plain hc h =>
      obtain ⟨h1, h2⟩ := plain_ne hc
      by_cases hderef : c = '$' ∧ isIdFirst (w.headD '\x00') = true
      · obtain ⟨rfl, hfirst⟩ := hderef
        obtain ⟨parts, hp, ht⟩ := ih ((List.dropWhile_sublist isIdChar).length_le)
          (cleanPieces_dropWhile h)
        refine ⟨.deref (w.takeWhile isIdChar) :: parts, ⟨⟨?_, ?_, ?_⟩, hp⟩, ?_⟩
        · cases w with
          | nil => exact absurd hfirst (by decide)
          | cons d w =>
            have hd : isIdChar d = true := isIdChar_of_first hfirst
            rw [List.takeWhile_cons_of_pos hd]
            exact hfirst
        · exact fun c hc => List.mem_takeWhile_imp hc
        · rw [ht]
          exact headD_dropWhile isIdChar (by decide) w
        · rw [textOf, List.flatMap_cons, ← textOf, ht]
          exact congrArg ('$' :: ·) List.takeWhile_append_dropWhile
      · obtain ⟨parts, hp, rfl⟩ := ih le_rfl h
        exact ⟨.char c :: parts, ⟨⟨h1, h2, fun he => by simpa [he] using hderef⟩, hp⟩, rfl⟩
    | @escape d l h =>
      obtain ⟨parts, hp, rfl⟩ := ih (by simp) h
      by_cases hd : isEscapable d = true
      · exact ⟨.escape d :: parts, ⟨hd, hp⟩, rfl⟩
      by_cases hnl : d = '\n'
      · exact ⟨.continuation :: parts, ⟨trivial, hp⟩, by rw [hnl]; rfl⟩
      -- the backslash stands for itself, and so does what is behind it
      · have hd' : isEscapable d = false := by simpa using hd
        obtain ⟨h1, h2, h3⟩ := not_escapable hd'
        exact ⟨.backslash :: .char d :: parts,
          ⟨⟨hd', hnl⟩, ⟨h1, h2, fun he => absurd he h3⟩, hp⟩, rfl⟩
    | @quote q l hq hclean h =>
      obtain ⟨parts, hp, rfl⟩ := ih (by simp; omega) h
      refine ⟨.quotation q :: parts, ⟨⟨hq, hclean⟩, hp⟩, ?_⟩
      simp [textOf, Part.text]

/-! ### Rounds of the loop -/

variable {env : Str → Option Str}

/-- In some rounds the loop reads `used` in front of `l`, puts `out` on the string builder and changes
`in_quotes` from `b` to `b'`. -/
def Rounds (env : Str → Option Str) (used l : Str) (b b' : Bool) (out : Str) : Prop :=
  ∃ k ≤ used.length, ∀ pre bld n,
    interpretLoop env (pre ++ (used ++ l)) (n + k) pre.length b bld =
      interpretLoop env (pre ++ (used ++ l)) n (pre.length + used.length) b' (bld ++ out)

theorem rounds_nil (l : Str) (b : Bool) : Rounds env [] l b b [] :=
  ⟨0, le_rfl, fun pre bld n => by simp⟩

theorem Rounds.append {used₁ used₂ l out₁ out₂ : Str} {b₁ b₂ b₃ : Bool}
    (h₁ : Rounds env used₁ (used₂ ++ l) b₁ b₂ out₁) (h₂ : Rounds env used₂ l b₂ b₃ out₂) :
    Rounds env (used₁ ++ used₂) l b₁ b₃ (out₁ ++ out₂) := by
  obtain ⟨k₁, hk₁, h₁⟩ := h₁
  obtain ⟨k₂, hk₂, h₂⟩ := h₂
  refine ⟨k₂ + k₁, by rw [List.length_append]; omega, fun pre bld n => ?_⟩
  have h₂' := h₂ (pre ++ used₁) (bld ++ out₁) n
  rw [List.append_assoc pre, List.length_append] at h₂'
  rw [List.append_assoc used₁, ← Nat.add_assoc, h₁ pre bld (n + k₂), h₂', List.length_append,
    Nat.add_assoc, List.append_assoc bld]

/-- One round. -/
theorem rounds_one {c : Char} {used l out : Str} {b b' : Bool}
    (h : ∀ pre bld, interpretChar env (pre ++ c :: (used ++ l)) c pre.length b (bld ++ [c]) =
      some (bld ++ out, pre.length + used.length, b')) : Rounds env (c :: used) l b b' out := by
  refine ⟨1, by simp, fun pre bld n => ?_⟩
  rw [List.cons_append, interpretLoop, if_neg (by simp), charAt_append]
  simp only [List.headD_cons, Option.bind_eq_bind, Option.bind_some, h, List.length_cons]
  rw [Nat.add_assoc]

theorem rounds_char {c : Char} (h1 : c ≠ '\\') (h2 : c ≠ '\'') {l : Str} {b : Bool}
    (h3 : c = '$' → b = true ∨ isIdFirst (l.headD '\x00') = false) : Rounds env [c] l b b [c] := by
  refine rounds_one fun pre bld => ?_
  by_cases hc : c = '$'
  · subst hc
    have hno : (!b && isIdFirst (l.headD '\x00')) = false := by
      rcases h3 rfl with h | h
      · rw [h, Bool.not_true, Bool.false_and]
      · rw [h, Bool.and_false]
    rw [interpretChar, List.nil_append, charAt_next]
    simp only [Option.bind_eq_bind, Option.bind_some, hno, Bool.false_eq_true, if_false]
    rfl
  · rw [interpretChar]
    · rfl
    · exact h1
    · exact h2
    · exact hc

theorem rounds_quote (l : Str) (b : Bool) : Rounds env ['\''] l b (!b) [] := by
  refine rounds_one fun pre bld => ?_
  rw [interpretChar, popBack_append, List.append_nil]
  rfl

/-! ### Outside of quotes -/

theorem rounds_escape {c : Char} (hc : isEscapable c = true) (l : Str) :
    Rounds env ['\\', c] l false false [c] := by
  refine rounds_one fun pre bld => ?_
  rw [interpretChar, List.singleton_append, charAt_next]
  simp only [List.headD_cons, Option.bind_eq_bind, Option.bind_some, Bool.not_false, if_true, hc,
    updateBack_append, Option.pure_def]
  rfl

theorem rounds_continuation (l : Str) : Rounds env ['\\', '\n'] l false false [] := by
  have hno : isEscapable '\n' = false := by decide
  refine rounds_one fun pre bld => ?_
  rw [interpretChar, List.singleton_append, charAt_next]
  simp only [List.headD_cons, Option.bind_eq_bind, Option.bind_some, Bool.not_false, if_true, hno,
    Bool.false_eq_true, if_false, popBack_append, Option.pure_def, List.append_nil]
  rfl

theorem rounds_backslash {l : Str} (h1 : isEscapable (l.headD '\x00') = false)
    (h2 : l.headD '\x00' ≠ '\n') : Rounds env ['\\'] l false false ['\\'] := by
  refine rounds_one fun pre bld => ?_
  rw [interpretChar, List.nil_append, charAt_next]
  simp only [Option.bind_eq_bind, Option.bind_some, Bool.not_false, if_true, h1, Bool.false_eq_true,
    if_false, h2, Option.pure_def]
  rfl

theorem takeWhile_name {name l : Str} (h1 : ∀ c ∈ name, isIdChar c = true)
    (h2 : isIdChar (l.headD '\x00') = false) : (name ++ l).takeWhile isIdChar = name := by
  rw [List.takeWhile_append_of_pos h1]
  cases l with
  | nil => simp
  | cons c l => rw [List.takeWhile_cons_of_neg (by simpa using h2), List.append_nil]

theorem rounds_deref {name l : Str} (h1 : isIdFirst (name.headD '\x00') = true)
    (h2 : ∀ c ∈ name, isIdChar c = true) (h3 : isIdChar (l.headD '\x00') = false) :
    Rounds env ('$' :: name) l false false ((env name).getD []) := by
  refine rounds_one fun pre bld => ?_
  have hfirst : isIdFirst ((name ++ l).headD '\x00') = true := by
    cases name with
    | nil => exact absurd h1 (by decide)
    | cons c name => exact h1
  rw [interpretChar, charAt_next]
  simp only [Option.bind_eq_bind, Option.bind_some, hfirst, Bool.not_false, Bool.and_self, if_true,
    interpretDeref_eq, takeWhile_name h2 h3, Option.pure_def]

/-! ### In quotes -/

theorem rounds_escapedQuote (l : Str) : Rounds env ['\\', '\''] l true true ['\''] := by
  refine rounds_one fun pre bld => ?_
  rw [interpretChar, List.singleton_append, charAt_next]
  simp only [List.headD_cons, Option.bind_eq_bind, Option.bind_some, Bool.not_true, Bool.false_eq_true,
    if_false, if_true, updateBack_append, Option.pure_def]
  rfl

theorem rounds_innerBackslash {l : Str} (h : l.headD '\x00' ≠ '\'') :
    Rounds env ['\\'] l true true ['\\'] := by
  refine rounds_one fun pre bld => ?_
  rw [interpretChar, List.nil_append, charAt_next]
  simp only [Option.bind_eq_bind, Option.bind_some, Bool.not_true, Bool.false_eq_true, if_false, h,
    Option.pure_def]
  rfl

theorem unquote_cons {c : Char} {q : Str} (h : c = '\\' → q.head? ≠ some '\'') :
    unquote (c :: q) = c :: unquote q := by
  rw [unquote]
  rintro q' rfl rfl
  exact h rfl rfl

theorem rounds_quoted {q : Str} (hq : Quoted q) (hclean : Clean q) (l : Str) :
    Rounds env q ('\'' :: l) true true (unquote q) := by
  induction hq with
  | nil => exact rounds_nil _ _
  | @escape c q hq ih =>
    -- the next character is no backslash, so it is the quote or stands for itself
    have hc : c ≠ '\\' := (List.isChain_cons_cons.mp hclean).1 rfl
    have hrest := ih (List.isChain_cons_cons.mp hclean).2.tail
    by_cases hquote : c = '\''
    · subst hquote
      exact (rounds_escapedQuote (q ++ '\'' :: l)).append hrest
    · have h1 : unquote ('\\' :: c :: q) = '\\' :: c :: unquote q := by
        rw [unquote_cons (by simpa using hquote), unquote_cons fun he => absurd he hc]
      rw [h1]
      exact (rounds_innerBackslash (l := c :: (q ++ '\'' :: l)) hquote).append
        ((rounds_char hc hquote fun _ => .inl rfl).append hrest)
  | @char c h1 h2 q hq ih =>
    rw [unquote_cons fun he => absurd he h1]
    exact (rounds_char h1 h2 fun _ => .inl rfl).append (ih hclean.tail)

/-! ### The meaning of a word -/

theorem rounds_part {p : Part} {l : Str} (h : p.Fits l) :
    Rounds env p.text l false false (p.meaning env) := by
  cases p with
  | char c => exact rounds_char h.1 h.2.1 fun he => .inr (h.2.2 he)
  | escape c => exact rounds_escape h l
  | continuation => exact rounds_continuation l
  | backslash => exact rounds_backslash h.1 h.2
  | deref name => exact rounds_deref h.1 h.2.1 h.2.2
  | quotation q =>
    have hclose : Rounds env (q ++ ['\'']) l true false (unquote q ++ []) :=
      (rounds_quoted h.1 h.2 l).append (rounds_quote l true)
    have hopen : Rounds env ['\''] (q ++ ['\''] ++ l) false true [] := rounds_quote _ false
    have hboth := hopen.append hclose
    rwa [List.append_nil] at hboth

theorem rounds_parts : ∀ {parts : List Part}, Proper parts →
    Rounds env (textOf parts) [] false false (meaningOf env parts)
  | [], _ => rounds_nil _ _
  | p :: parts, h => by
    have hfirst : Rounds env p.text (textOf parts ++ []) false false (p.meaning env) :=
      rounds_part (by rw [List.append_nil]; exact h.1)
    exact hfirst.append (rounds_parts h.2)

/-- **A word has the meanings of its parts**, one after the other. -/
theorem interpret_parts {parts : List Part} (h : Proper parts) (hnul : '\x00' ∉ meaningOf env parts) :
    interpretComplexStringToken env (textOf parts) = some (meaningOf env parts) := by
  obtain ⟨k, hk, hrounds⟩ : Rounds env (textOf parts) [] false false (meaningOf env parts) :=
    rounds_parts h
  obtain ⟨n, hn⟩ : ∃ n, (textOf parts).length + 2 = n + 2 + k :=
    ⟨(textOf parts).length - k, by omega⟩
  have hloop := hrounds [] [] (n + 2)
  simp only [List.nil_append, List.append_nil, List.length_nil, Nat.zero_add] at hloop
  -- the last two rounds put the `NUL` onto the string builder and leave the loop
  have hend : interpretLoop env (textOf parts) (n + 2) (textOf parts).length false (meaningOf env parts) =
      some (meaningOf env parts ++ ['\x00'], false) := by
    rw [interpretLoop, if_neg (lt_irrefl _), charAt, if_pos rfl]
    simp only [Option.bind_eq_bind, Option.bind_some]
    rw [interpretChar, Option.bind_some, interpretLoop, if_pos (Nat.lt_succ_self _)]
    all_goals decide
  have hne : ∀ c ∈ meaningOf env parts, decide (c ≠ '\x00') = true := fun c hc =>
    decide_eq_true fun he => hnul (he ▸ hc)
  have hstring : cString (meaningOf env parts ++ ['\x00']) = meaningOf env parts := by
    rw [cString, List.takeWhile_append_of_pos hne, List.takeWhile_cons_of_neg (by decide),
      List.append_nil]
  rw [interpretComplexStringToken, hn, hloop, hend]
  simp only [Option.bind_eq_bind, Option.bind_some, updateBack_append, hstring]
  rfl

theorem mem_unquote {c : Char} : ∀ {q : Str}, c ∈ unquote q → c ∈ q
  | [], h => h
  | d :: q, h => by
    by_cases hd : d = '\\' → q.head? ≠ some '\''
    · rw [unquote_cons hd] at h
      rcases List.mem_cons.mp h with rfl | h
      · exact List.mem_cons_self
      · exact List.mem_cons_of_mem _ (mem_unquote h)
    · push Not at hd
      obtain ⟨rfl, hhead⟩ := hd
      cases q with
      | nil => simp at hhead
      | cons e q =>
        obtain rfl : e = '\'' := by simpa using hhead
        rcases List.mem_cons.mp h with rfl | h
        · exact List.mem_cons_of_mem _ List.mem_cons_self
        · exact List.mem_cons_of_mem _ (List.mem_cons_of_mem _ (mem_unquote h))

/-- A meaning has no `NUL`, when the values of the variables have none. -/
theorem nul_meaningOf (henv : ∀ name value, env name = some value → '\x00' ∉ value)
    {parts : List Part} (h : '\x00' ∉ textOf parts) : '\x00' ∉ meaningOf env parts := by
  intro hmem
  obtain ⟨p, hp, hmem⟩ := List.mem_flatMap.mp hmem
  have htext : '\x00' ∉ p.text := fun hp' => h (List.mem_flatMap.mpr ⟨p, hp, hp'⟩)
  cases p with
  | char c => exact htext hmem
  | escape c => exact htext (List.mem_cons_of_mem _ hmem)
  | continuation => exact absurd hmem List.not_mem_nil
  | backslash => exact htext hmem
  | deref name =>
    rw [Part.meaning] at hmem
    cases hname : env name with
    | none => simp [hname] at hmem
    | some value => exact henv name value hname (by simpa [hname] using hmem)
  | quotation q =>
    exact htext (List.mem_cons_of_mem _ (List.mem_append_left _ (mem_unquote hmem)))

/-! ### Words without quotes, backslashes and variables -/

/-- The word is its own meaning. -/
def Bare (s : Str) : Prop := ∀ c ∈ s, c ≠ '\\' ∧ c ≠ '\'' ∧ c ≠ '$' ∧ c ≠ '\x00'

theorem bare_parts (env : Str → Option Str) : ∀ {s : Str}, Bare s → Proper (s.map .char) ∧ textOf (s.map .char) = s ∧
    meaningOf env (s.map .char) = s
  | [], _ => ⟨trivial, rfl, rfl⟩
  | c :: s, h => by
    obtain ⟨⟨h1, h2, h3, -⟩, hs⟩ := List.forall_mem_cons.mp h
    obtain ⟨hp, ht, hm⟩ := bare_parts env hs
    exact ⟨⟨⟨h1, h2, fun he => absurd he h3⟩, hp⟩, congrArg (c :: ·) ht, congrArg (c :: ·) hm⟩

theorem interpret_bare {s : Str} (h : Bare s) : interpretComplexStringToken env s = some s := by
  obtain ⟨hp, ht, hm⟩ := bare_parts env h
  have hnul : '\x00' ∉ meaningOf env (s.map .char) := fun hmem => (h _ (hm ▸ hmem)).2.2.2 rfl
  have hint := interpret_parts hp hnul
  rwa [ht, hm] at hint

theorem mem_cString {c : Char} {text : List Char} (h : c ∈ cString text) : c ∈ text ∧ c ≠ '\x00' :=
  ⟨(List.takeWhile_sublist _).subset h, by simpa using List.mem_takeWhile_imp h⟩

theorem bare_cString {text : List Char} (h : ∀ c ∈ text, c ≠ '\\' ∧ c ≠ '\'' ∧ c ≠ '$') :
    Bare (cString text) := fun c hc =>
  ⟨(h c (mem_cString hc).1).1, (h c (mem_cString hc).1).2.1, (h c (mem_cString hc).1).2.2,
    (mem_cString hc).2⟩

theorem bare_many1 {p : Char → Bool} (hp : ∀ c, p c = true → c ≠ '\\' ∧ c ≠ '\'' ∧ c ≠ '$')
    {l : List Char} {m : ℕ} (h : many1 p l = some m) : Bare (cString (l.take m)) := by
  unfold many1 at h
  split at h
  · cases h
  · cases h
    refine bare_cString fun c hc => hp c ?_
    rw [← List.prefix_iff_eq_take.mp (List.takeWhile_prefix p)] at hc
    exact List.mem_takeWhile_imp hc

theorem bare_idSize {l : List Char} {m : ℕ} (h : idSize l = some m) : Bare (cString (l.take m)) := by
  unfold idSize at h
  split at h
  · next c l =>
    split at h
    · next hc =>
      cases h
      rw [List.take_succ_cons, ← List.prefix_iff_eq_take.mp (List.takeWhile_prefix isIdChar)]
      refine bare_cString fun d hd => ?_
      have hid : isIdChar d = true := by
        rcases List.mem_cons.mp hd with rfl | hd
        · exact isIdChar_of_first hc
        · exact List.mem_takeWhile_imp hd
      exact ⟨(idChar_ne hid).1, (idChar_ne hid).2, fun he => absurd (he ▸ hid) (by decide)⟩
    · cases h
  · cases h

/-- The text of a number, of an identifier and of a simple string is bare. -/
theorem bare_token {input : List Char} {t : Token} {s : Str} (ht : t ∈ lex input)
    (hs : t = .num s ∨ t = .id s ∨ t = .simStr s) : Bare s := by
  have hdigit : ∀ c, isDigit c = true → c ≠ '\\' ∧ c ≠ '\'' ∧ c ≠ '$' := fun c hc =>
    ⟨fun he => absurd (he ▸ hc) (by decide), fun he => absurd (he ▸ hc) (by decide),
      fun he => absurd (he ▸ hc) (by decide)⟩
  have hplain : ∀ c, (isPlain c && c != '$') = true → c ≠ '\\' ∧ c ≠ '\'' ∧ c ≠ '$' := fun c hc => by
    rw [Bool.and_eq_true, bne_iff_ne] at hc
    exact ⟨(plain_ne hc.1).1, (plain_ne hc.1).2, hc.2⟩
  obtain ⟨r, hr, l, m, hsize, haction⟩ := Scanner.mem_scan ht
  simp only [rules, List.mem_cons, List.not_mem_nil, or_false] at hr
  rcases hr with rfl | rfl | rfl | rfl | rfl | rfl | rfl | rfl | rfl | rfl | rfl | rfl | rfl | rfl |
    rfl | rfl | rfl | rfl | rfl | rfl | rfl | rfl
  all_goals
    rcases hs with rfl | rfl | rfl
    all_goals first
      | cases haction; exact bare_many1 hdigit hsize
      | cases haction; exact bare_idSize hsize
      | cases haction; exact bare_many1 hplain hsize
      | cases haction

/-- **Meaning of a lexed word.** When no quotation of a word of `{string}` has two adjacent backslashes,
the word consists of parts, and `interpret_complex_string_token` returns the meanings of its parts one
after the other. Each number, identifier and simple string of the lexer is returned as it is, as in the
grammar. -/
theorem meaning_of_word (henv : ∀ name value, env name = some value → '\x00' ∉ value) :
    (∀ w : Str, '\x00' ∉ w → w ≠ [] → CleanPieces w → (∃ parts, Proper parts ∧ textOf parts = w) ∧
      ∀ parts, Proper parts → textOf parts = w →
        interpretComplexStringToken env w = some (meaningOf env parts)) ∧
    ∀ input t s, t ∈ lex input → (t = .num s ∨ t = .id s ∨ t = .simStr s) →
      interpretComplexStringToken env s = some s ∧
        firstString env t = some (interpretComplexStringToken env s) := by
  refine ⟨fun w hw _ hclean => ⟨exists_parts _ le_rfl hclean, ?_⟩, fun input t s ht hs => ?_⟩
  · rintro parts hp rfl
    exact interpret_parts hp (nul_meaningOf henv hw)
  · have hint : interpretComplexStringToken env s = some s := interpret_bare (bare_token ht hs)
    rw [hint]
    refine ⟨rfl, ?_⟩
    rcases hs with rfl | rfl | rfl <;> rfl

/-- The word `a$V'b\'$c'\ d`, where the value of `V` is `*$V`. -/
theorem meaning_of_word_mixed : ∃ parts, Proper parts ∧ textOf parts = "a$V'b\\'$c'\\ d".toList ∧
    interpretComplexStringToken (fun name => if name = ['V'] then some "*$V".toList else none)
      "a$V'b\\'$c'\\ d".toList = some "a*$Vb'$c d".toList := by
  have henv : ∀ name value, (if name = ['V'] then some "*$V".toList else none) = some value →
      '\x00' ∉ value := fun name value h => by
    split_ifs at h
    cases h
    decide
  have hq : Quoted ['b', '\\', '\'', '$', 'c'] := .char (by decide) (by decide)
    (.escape _ (.char (by decide) (by decide) (.char (by decide) (by decide) .nil)))
  have hclean : Clean ['b', '\\', '\'', '$', 'c'] := by simp [Clean]
  have hpieces : CleanPieces "a$V'b\\'$c'\\ d".toList :=
    .plain rfl (.plain rfl (.plain rfl (.quote hq hclean (.escape _ (.plain rfl .nil)))))
  have hname : ∀ c ∈ ['V'], isIdChar c = true := List.forall_mem_singleton.mpr rfl
  have hproper : Proper [.char 'a', .deref ['V'], .quotation ['b', '\\', '\'', '$', 'c'],
      .escape '\x20', .char 'd'] :=
    ⟨⟨by decide, by decide, by decide⟩, ⟨rfl, hname, rfl⟩, ⟨hq, hclean⟩, rfl,
      ⟨by decide, by decide, by decide⟩, trivial⟩
  exact ⟨_, hproper, rfl,
    ((meaning_of_word henv).1 _ (by decide) (by decide) hpieces).2 _ hproper rfl⟩

/-! ### Escaped words -/

/-- The characters that the lexer treats specially. -/
def isSpecial (c : Char) : Bool :=
  ['\x20', '\t', '\'', '#', '<', '>', '=', '&', '|', '\\', '$'].contains c

/-- A backslash in front of each special character. -/
def escape (s : Str) : Str := s.flatMap fun c => if isSpecial c then ['\\', c] else [c]

/-- The parts of an escaped character: a backslash stays in front of `<` and `>`. -/
def escapedParts (c : Char) : List Part :=
  if isSpecial c then if isEscapable c then [.escape c] else [.backslash, .char c] else [.char c]

theorem special_angle {c : Char} (h : isSpecial c = true) :
    isEscapable c = false ↔ c = '<' ∨ c = '>' := by
  simp only [isSpecial, List.contains_eq_mem, List.mem_cons, List.not_mem_nil, or_false,
    decide_eq_true_eq] at h
  rcases h with rfl | rfl | rfl | rfl | rfl | rfl | rfl | rfl | rfl | rfl | rfl <;> decide

theorem text_escapedParts (c : Char) :
    textOf (escapedParts c) = if isSpecial c then ['\\', c] else [c] := by
  unfold escapedParts
  split_ifs <;> rfl

theorem escape_parts (s : Str) : textOf (s.flatMap escapedParts) = escape s := by
  rw [textOf, List.flatMap_assoc]
  exact congrArg (s.flatMap ·) (funext text_escapedParts)

theorem proper_escapedParts : ∀ s : Str, Proper (s.flatMap escapedParts)
  | [] => trivial
  | c :: s => by
    have ih := proper_escapedParts s
    rw [List.flatMap_cons, escapedParts]
    split_ifs with h1 h2
    · exact ⟨h2, ih⟩
    · have h2' : isEscapable c = false := by simpa using h2
      obtain ⟨h3, h4, h5⟩ := not_escapable h2'
      have hnl : c ≠ '\n' := fun he => absurd (he ▸ h1) (by decide)
      exact ⟨⟨h2', hnl⟩, ⟨h3, h4, fun he => absurd he h5⟩, ih⟩
    · have hne : ∀ d, isSpecial d = true → c ≠ d := fun d hd he => h1 (he ▸ hd)
      exact ⟨⟨hne _ rfl, hne _ rfl, fun he => absurd he (hne _ rfl)⟩, ih⟩

/-- What is read back. -/
theorem meaning_escapedParts (c : Char) : meaningOf env (escapedParts c) =
    if c = '<' ∨ c = '>' then ['\\', c] else [c] := by
  unfold escapedParts
  split_ifs with h1 h2 h3 h3 h3
  · exact absurd ((special_angle h1).mpr h3) (by simp [h2])
  · rfl
  · rfl
  · exact absurd ((special_angle h1).mp (by simpa using h2)) h3
  · rcases h3 with rfl | rfl <;> exact absurd rfl h1
  · rfl

theorem interpret_escape (env : Str → Option Str) {s : Str} (hs : '\x00' ∉ s) :
    interpretComplexStringToken env (escape s) =
      some (s.flatMap fun c => if c = '<' ∨ c = '>' then ['\\', c] else [c]) := by
  have hmeaning : meaningOf env (s.flatMap escapedParts) =
      s.flatMap fun c => if c = '<' ∨ c = '>' then ['\\', c] else [c] := by
    rw [meaningOf, List.flatMap_assoc]
    exact congrArg (s.flatMap ·) (funext meaning_escapedParts)
  rw [← escape_parts, ← hmeaning]
  refine interpret_parts (proper_escapedParts s) fun hmem => ?_
  rw [hmeaning] at hmem
  obtain ⟨c, hc, hmem⟩ := List.mem_flatMap.mp hmem
  have hne : c ≠ '\x00' := fun he => hs (he ▸ hc)
  split_ifs at hmem <;> simp [hne.symm] at hmem

/-- The backslashes in front of `<` and `>` are too many. -/
theorem kept_eq : ∀ {s : Str}, (s.flatMap fun c => if c = '<' ∨ c = '>' then ['\\', c] else [c]) = s ↔
    '<' ∉ s ∧ '>' ∉ s
  | [] => iff_of_true rfl (by simp)
  | c :: s => by
    rw [List.flatMap_cons]
    split_ifs with h
    · refine iff_of_false (fun he => ?_) fun hs => ?_
      · have hc : '\\' = c := (List.cons.inj he).1
        rcases h with rfl | rfl <;> exact absurd hc (by decide)
      · rcases h with rfl | rfl <;> simp at hs
    · push Not at h
      rw [List.singleton_append, List.cons.injEq, kept_eq]
      simp [h.1.symm, h.2.symm]

theorem pieces_escape : ∀ {s : Str}, (∀ c ∈ s, c ≠ '\n' ∧ c ≠ '\r') → Pieces (escape s)
  | [], _ => .nil
  | c :: s, h => by
    obtain ⟨hc, hs⟩ := List.forall_mem_cons.mp h
    have ih : Pieces (escape s) := pieces_escape hs
    rw [escape, List.flatMap_cons, ← escape]
    split_ifs with hsp
    · exact .escape c ih
    · refine .plain ?_ ih
      simp only [isSpecial, isPlain, List.contains_eq_mem, List.mem_cons, List.not_mem_nil, or_false,
        decide_eq_true_eq, Bool.not_eq_true', decide_eq_false_iff_not, not_or] at hsp ⊢
      tauto

/-- The lexer takes all of a word of `{string}`. -/
theorem stringSize_pieces {w : Str} (hne : w ≠ []) (h : Pieces w) : stringSize w = some w.length := by
  have hall : From .start (w.take w.length) := by
    rw [List.take_length]
    exact from_start.mpr ⟨hne, h⟩
  obtain ⟨n, hn, hle⟩ := Scanner.longest_complete le_rfl hall
  rw [stringSize, hn, le_antisymm (Scanner.longest_sound hn).1 hle]

/-- **Escaped characters are literal, apart from `<` and `>`.** -/
theorem escape_iff {s : Str} (hne : s ≠ []) (hs : ∀ c ∈ s, c ≠ '\x00' ∧ c ≠ '\n' ∧ c ≠ '\r') :
    (stringSize (escape s) = some (escape s).length ∧
      ∀ env, interpretComplexStringToken env (escape s) = some s) ↔ '<' ∉ s ∧ '>' ∉ s := by
  have hnul : '\x00' ∉ s := fun hmem => (hs _ hmem).1 rfl
  have hnil : escape s ≠ [] := by
    cases s with
    | nil => exact absurd rfl hne
    | cons c s =>
      rw [escape, List.flatMap_cons]
      split_ifs <;> simp
  have hword := stringSize_pieces hnil (pieces_escape fun c hc => (hs c hc).2)
  rw [← kept_eq]
  constructor
  · rintro ⟨-, hread⟩
    have hnone := hread fun _ => none
    rw [interpret_escape _ hnul] at hnone
    exact Option.some.inj hnone
  · refine fun hkept => ⟨hword, fun env => ?_⟩
    rw [interpret_escape env hnul, hkept]

theorem escape_iff_blank : stringSize (escape ['a', '\x20', '$']) = some 5 ∧
    ∀ env, interpretComplexStringToken env (escape ['a', '\x20', '$']) = some ['a', '\x20', '$'] := by
  have hs : ∀ c ∈ ['a', '\x20', '$'], c ≠ '\x00' ∧ c ≠ '\n' ∧ c ≠ '\r' := by
    intro c hc
    simp only [List.mem_cons, List.not_mem_nil, or_false] at hc
    rcases hc with rfl | rfl | rfl <;> decide
  exact (escape_iff (by decide) hs).mpr (by decide)

/-- `\<` is read as the two characters it is written with. -/
theorem escape_iff_less : stringSize (escape ['<']) = some (escape ['<']).length ∧
    interpretComplexStringToken (fun _ => none) (escape ['<']) = some ['\\', '<'] ∧
    ¬ ∀ env, interpretComplexStringToken env (escape ['<']) = some ['<'] :=
  ⟨by decide, by decide, fun h => absurd (h fun _ => none) (by decide)⟩

end Eecs678.Quash.Meaning
