import Eecs678.Buddy.Sizes
import Mathlib.Data.List.TakeWhile

/-!
# The format of the commands

`parse_command` reads a line without its blanks (`strip`, `cString_squeeze`). The format has allocations
(`AllocForm`), frees (`FreeForm`) and empty lines; `AcceptsFormat` says what is to happen for each line.
`sscanf` does not say whether the literals after the last conversion matched, so what comes after the size
or the variable is not looked at, and a line is taken for an empty one by its first character:
`accepts_iff` says exactly for which lines the parser follows the format.
-/

namespace Eecs678.Buddy.Commands

open Eecs678.Lib.Scanf (cString isSpace isDigit isSpace_of_digit numeral scanSign scanSign_digit scanNumeral
  skipPrefix_decimal)
open Eecs678.Lib.PrefixCode Eecs678.Buddy.Model Eecs678.Buddy.FrontEnd Eecs678.Buddy.LiveBlocks
open Eecs678.Buddy.Sizes

/-! ### The format -/

/-- The line without its blanks. -/
def strip (text : List Char) : List Char := text.filter fun c => !isBlank c

/-- The names of variables. -/
def IsLetter (v : Char) : Prop := ('a' ≤ v ∧ v ≤ 'z') ∨ ('A' ≤ v ∧ v ≤ 'Z')

/-- An integer as it is written, and its value. -/
inductive Integer : List Char → ℤ → Prop
  | plain {digits : List Char} (hne : digits ≠ []) (hd : ∀ d ∈ digits, isDigit 10 d = true) :
      Integer digits (numeral 10 digits)
  | minus {digits : List Char} (hne : digits ≠ []) (hd : ∀ d ∈ digits, isDigit 10 d = true) :
      Integer ('-' :: digits) (-numeral 10 digits)
  | plus {digits : List Char} (hne : digits ≠ []) (hd : ∀ d ∈ digits, isDigit 10 d = true) :
      Integer ('+' :: digits) (numeral 10 digits)

/-- The line starts as an allocation of `size` bytes for `v`: white space stands before the number, and
`tail` is what follows it, a closing bracket or a unit first. -/
def StartsAlloc (convert : ℤ → Option ℤ) (line : List Char) (v : Char) (size : ℤ)
    (space tail : List Char) : Prop :=
  IsLetter v ∧ (∀ c ∈ space, isSpace c = true) ∧ ∃ (num : List Char) (n m : ℤ) (x : Char)
    (rest : List Char), Integer num n ∧ convert n = some m ∧ alter x m = some size ∧ tail = x :: rest ∧
      line = v :: (['=', 'a', 'l', 'l', 'o', 'c', '('] ++ (space ++ (num ++ tail)))

/-- `letter=alloc(integer)`, `letter=alloc(integerk)` or `letter=alloc(integerK)`. -/
def AllocForm (convert : ℤ → Option ℤ) (line : List Char) (v : Char) (size : ℤ) : Prop :=
  ∃ unit : SizeUnit, StartsAlloc convert line v size [] unit.text

/-- `free(letter)`. -/
def FreeForm (line : List Char) (v : Char) : Prop :=
  IsLetter v ∧ line = ['f', 'r', 'e', 'e', '(', v, ')']

/-- The parser does with a line what its format says. -/
structure AcceptsFormat (convert : ℤ → Option ℤ) (text : List Char) (s : Front) (out : Outcome) :
    Prop where
  allocs : ∀ size mem, .alloc size mem ∈ out.1 → ∃ v, AllocForm convert (strip text) v size
  frees : ∀ mem, .free mem ∈ out.1 → ∃ v, FreeForm (strip text) v
  alloc : ∀ v size, AllocForm convert (strip text) v size →
    out = withDump (allocVar (strip text) v size s)
  free : ∀ v, FreeForm (strip text) v → out =
    if (s.varMap v).inUse then withDump (freeVar v s)
    else ([.fault s.linenum (strip text) "Double free" .error], .ok (.doubleFree, s))
  empty : strip text = [] → out = ([], .ok (.success, s))
  malformed : strip text ≠ [] → (∀ v size, ¬ AllocForm convert (strip text) v size) →
    (∀ v, ¬ FreeForm (strip text) v) →
      out = ([.fault s.linenum (strip text) "Failed to parse command" .error], .ok (.badInput, s))

/-- The line is taken for an empty one. -/
def LooksEmpty (text : List Char) : Prop :=
  text = [] ∨ text.head? = some '\n' ∨ text.head? = some '\r'

/-- The lines for which the parser follows the format. -/
structure Clean (convert : ℤ → Option ℤ) (text : List Char) : Prop where
  /-- A line that looks empty is empty, and an empty one looks so. -/
  empty : strip text = [] ↔ LooksEmpty text
  /-- A line that starts as an allocation is one. -/
  alloc : ∀ v size space tail, StartsAlloc convert (strip text) v size space tail →
    ∃ v size, AllocForm convert (strip text) v size
  /-- A line that starts as a free is one. -/
  free : ∀ v tail, IsLetter v → strip text = ['f', 'r', 'e', 'e', '('] ++ v :: tail →
    ¬ ['a', 'l', 'l', 'o', 'c'] <:+: strip text → ∃ v, FreeForm (strip text) v

/-! ### Reading -/

/-- **The loop over the blanks**: what the buffer had before does not matter. -/
theorem cString_squeeze {text residue : List Char} {cmdLen : ℤ} (hnul : '\x00' ∉ text)
    (hlen : text.length < cmdLen) :
    cString (squeeze (text ++ '\x00' :: residue) cmdLen) = strip text := by
  obtain ⟨k, hk⟩ : ∃ k, cmdLen.toNat = text.length + (k + 1) :=
    ⟨cmdLen.toNat - text.length - 1, by omega⟩
  have htake : (text ++ '\x00' :: residue).take cmdLen.toNat = text ++ '\x00' :: residue.take k := by
    rw [hk, List.take_length_add_append, List.take_succ_cons]
  have hnul' : ∀ c ∈ strip text, decide (c ≠ '\x00') = true := fun c hc => by
    have hmem := List.mem_of_mem_filter hc
    simp only [decide_eq_true_eq]
    rintro rfl
    exact hnul hmem
  unfold squeeze cString
  simp only [htake, List.filter_append]
  rw [List.filter_cons_of_pos (by decide), List.append_assoc, List.cons_append, ← strip,
    takeWhile_word hnul' (by simp)]

/-- What a sign is. -/
theorem scanSign_cases (str : List Char) : (scanSign str = (1, str)) ∨
    (∃ rest, str = '-' :: rest ∧ scanSign str = (-1, rest)) ∨
    ∃ rest, str = '+' :: rest ∧ scanSign str = (1, rest) := by
  cases str with
  | nil => exact Or.inl rfl
  | cons c rest =>
    simp only [scanSign]
    split_ifs with hm hp
    · exact Or.inr (Or.inl ⟨rest, by rw [hm], rfl⟩)
    · exact Or.inr (Or.inr ⟨rest, by rw [hp], rfl⟩)
    · exact Or.inl rfl

/-- The first character of an integer is no white space. -/
theorem Integer.dropSpace {num rest : List Char} {n : ℤ} (h : Integer num n) :
    (num ++ rest).dropWhile isSpace = num ++ rest := by
  cases h with
  | plain hne hd =>
    obtain ⟨d, ds, rfl⟩ := List.exists_cons_of_ne_nil hne
    exact List.dropWhile_cons_of_neg (by simp [isSpace_of_digit (hd d (List.mem_cons_self ..))])
  | minus => rfl
  | plus => rfl

/-- **`%d` reads an integer** after white space. -/
theorem scanInt_integer {num space rest : List Char} {n : ℤ} {x : Char} (h : Integer num n)
    (hs : ∀ c ∈ space, isSpace c = true) (hx : isDigit 10 x = false) :
    scanInt (space ++ (num ++ x :: rest)) = some (n, x :: rest) := by
  have hdrop : (space ++ (num ++ x :: rest)).dropWhile isSpace = num ++ x :: rest := by
    rw [List.dropWhile_append_of_pos hs, h.dropSpace]
  cases h with
  | plain hne hd =>
    obtain ⟨d, ds, rfl⟩ := List.exists_cons_of_ne_nil hne
    have hsign : scanSign (d :: ds ++ x :: rest) = (1, d :: ds ++ x :: rest) :=
      scanSign_digit (hd d (List.mem_cons_self ..)) (ds ++ x :: rest)
    rw [scanInt_digits ((congrArg scanSign hdrop).trans hsign) hne hd hx, one_mul]
  | minus hne hd => rw [scanInt_digits ((congrArg scanSign hdrop).trans rfl) hne hd hx, neg_one_mul]
  | plus hne hd => rw [scanInt_digits ((congrArg scanSign hdrop).trans rfl) hne hd hx, one_mul]

/-- What `%d` has read. -/
theorem scanInt_some {str rest : List Char} {n : ℤ} (h : scanInt str = some (n, rest)) :
    ∃ space num, (∀ c ∈ space, isSpace c = true) ∧ Integer num n ∧ str = space ++ (num ++ rest) := by
  obtain ⟨body, hbody⟩ : ∃ body, body = str.dropWhile isSpace := ⟨_, rfl⟩
  have hstr : str = str.takeWhile isSpace ++ body := by rw [hbody, List.takeWhile_append_dropWhile]
  have hspace : ∀ c ∈ str.takeWhile isSpace, isSpace c = true := fun c hc =>
    List.mem_takeWhile_imp hc
  unfold scanInt scanNumeral at h
  rw [← hbody] at h
  have key : ∀ {sign : ℤ} {ds : List Char}, scanSign body = (sign, ds) →
      ds.takeWhile (isDigit 10) ≠ [] ∧ n = sign * numeral 10 (ds.takeWhile (isDigit 10)) ∧
        ds = ds.takeWhile (isDigit 10) ++ rest := fun {sign ds} hsign => by
    rw [hsign] at h
    simp only [skipPrefix_decimal] at h
    split_ifs at h with hne
    · simp at h
    simp only [Option.map_some, Option.some.injEq, Prod.mk.injEq] at h
    exact ⟨hne, h.1.symm, by rw [← h.2, List.takeWhile_append_dropWhile]⟩
  have hdigits : ∀ ds : List Char, ∀ d ∈ ds.takeWhile (isDigit 10), isDigit 10 d = true := fun ds d hd =>
    List.mem_takeWhile_imp hd
  rcases scanSign_cases body with hsign | ⟨ds, hb, hsign⟩ | ⟨ds, hb, hsign⟩
  · obtain ⟨hne, hn, hds⟩ := key hsign
    refine ⟨_, body.takeWhile (isDigit 10), hspace, ?_, by rw [← hds]; exact hstr⟩
    rw [hn, one_mul]
    exact .plain hne (hdigits body)
  · obtain ⟨hne, hn, hds⟩ := key hsign
    refine ⟨_, '-' :: ds.takeWhile (isDigit 10), hspace, ?_, ?_⟩
    · rw [hn, neg_one_mul]
      exact .minus hne (hdigits ds)
    · rw [List.cons_append, ← hds, ← hb]
      exact hstr
  · obtain ⟨hne, hn, hds⟩ := key hsign
    refine ⟨_, '+' :: ds.takeWhile (isDigit 10), hspace, ?_, ?_⟩
    · rw [hn, one_mul]
      exact .plus hne (hdigits ds)
    · rw [List.cons_append, ← hds, ← hb]
      exact hstr

/-! ### The commands -/

variable {convert : ℤ → Option ℤ} {line text residue : List Char} {v : Char} {size : ℤ} {s : Front}

theorem getVar_eq : getVar v = some v ↔ IsLetter v := by
  unfold getVar IsLetter
  split_ifs with h
  · exact ⟨fun _ => h, fun _ => rfl⟩
  · exact ⟨fun hv => (by cases hv), fun hv => absurd hv h⟩

theorem getVar_some {w : Char} (h : getVar w = some v) : w = v ∧ IsLetter v := by
  unfold getVar at h
  split_ifs at h with hw
  rw [Option.some.injEq] at h
  exact ⟨h, h ▸ hw⟩

theorem alter_digit {x : Char} {m : ℤ} (h : alter x m = some size) : isDigit 10 x = false := by
  unfold alter at h
  split_ifs at h with hk hp
  · rcases hk with rfl | rfl <;> rfl
  · subst hp
    rfl

/-- **What `parse_alloc` reads off a line.** -/
theorem allocRequest_iff : allocRequest convert line = some (v, size) ↔
    ∃ space tail, StartsAlloc convert line v size space tail := by
  constructor
  · intro h
    obtain ⟨⟨w, n, x⟩, hscan, h⟩ := Option.bind_eq_some_iff.mp h
    obtain ⟨m, hm, h⟩ := Option.bind_eq_some_iff.mp h
    obtain ⟨size', hsize, h⟩ := Option.bind_eq_some_iff.mp h
    obtain ⟨v', hv, h⟩ := Option.bind_eq_some_iff.mp h
    obtain ⟨rfl, rfl⟩ : v' = v ∧ size' = size := by simpa [pure] using h
    obtain ⟨⟨w', str⟩, hchar, hscan⟩ := Option.bind_eq_some_iff.mp hscan
    obtain ⟨str', htext, hscan⟩ := Option.bind_eq_some_iff.mp hscan
    obtain ⟨⟨n', str''⟩, hint, hscan⟩ := Option.bind_eq_some_iff.mp hscan
    obtain ⟨⟨x', rest⟩, hlast, hscan⟩ := Option.bind_eq_some_iff.mp hscan
    obtain ⟨rfl, rfl, rfl⟩ : w' = w ∧ n' = n ∧ x' = x := by simpa [pure] using hscan
    have hline : line = w' :: str := by
      cases line with
      | nil => cases hchar
      | cons c l =>
        cases hchar
        rfl
    have htail : str'' = x' :: rest := by
      cases str'' with
      | nil => cases hlast
      | cons c l =>
        cases hlast
        rfl
    obtain ⟨rfl, hletter⟩ := getVar_some hv
    obtain ⟨space, num, hspace, hnum, hstr⟩ := scanInt_some hint
    exact ⟨space, str'', hletter, hspace, num, n', m, x', rest, hnum, hm, hsize, htail,
      by rw [hline, scanText_eq htext, hstr]⟩
  · rintro ⟨space, tail, hletter, hspace, num, n, m, x, rest, hnum, hm, hsize, rfl, rfl⟩
    unfold allocRequest scanAlloc
    simp only [scanChar, bind, Option.bind, scanText_append,
      scanInt_integer hnum hspace (alter_digit hsize), pure, hm, hsize, getVar_eq.mpr hletter]

theorem AllocForm.request (h : AllocForm convert line v size) :
    allocRequest convert line = some (v, size) := by
  obtain ⟨unit, hstart⟩ := h
  exact allocRequest_iff.mpr ⟨[], unit.text, hstart⟩

theorem StartsAlloc.infix {space tail : List Char} (h : StartsAlloc convert line v size space tail) :
    ['a', 'l', 'l', 'o', 'c'] <:+: line := by
  obtain ⟨-, -, num, n, m, x, rest, -, -, -, -, rfl⟩ := h
  exact ⟨[v, '='], '(' :: (space ++ (num ++ tail)), rfl⟩

/-- There is no `alloc` in a free. -/
theorem FreeForm.not_infix (h : FreeForm line v) : ¬ ['a', 'l', 'l', 'o', 'c'] <:+: line := by
  obtain ⟨-, rfl⟩ := h
  intro hin
  have hl : 'l' ∈ ['f', 'r', 'e', 'e', '(', v, ')'] := hin.subset (by simp)
  have ho : 'o' ∈ ['f', 'r', 'e', 'e', '(', v, ')'] := hin.subset (by simp)
  have hlv : 'l' = v := by simpa using hl
  have hov : 'o' = v := by simpa using ho
  exact absurd (hlv.trans hov.symm) (by decide)

/-- What `parse_free` reads off a line. -/
theorem freeRequest_iff : scanFree line >>= getVar = some v ↔
    IsLetter v ∧ ∃ tail, line = ['f', 'r', 'e', 'e', '('] ++ v :: tail := by
  constructor
  · intro h
    obtain ⟨w, hscan, hv⟩ := Option.bind_eq_some_iff.mp h
    obtain ⟨str, htext, hscan⟩ := Option.bind_eq_some_iff.mp hscan
    obtain ⟨⟨w', tail⟩, hchar, hscan⟩ := Option.bind_eq_some_iff.mp hscan
    obtain rfl : w' = w := by simpa [pure] using hscan
    obtain ⟨rfl, hletter⟩ := getVar_some hv
    refine ⟨hletter, tail, ?_⟩
    cases str with
    | nil => cases hchar
    | cons c l =>
      cases hchar
      exact scanText_eq htext
  · rintro ⟨hletter, tail, rfl⟩
    unfold scanFree
    simp only [scanText_append, scanChar, bind, Option.bind, pure, getVar_eq.mpr hletter]

/-- The `free` of a variable, in use or not. -/
theorem parseSqueezed_free (hnot : ¬ ['a', 'l', 'l', 'o', 'c'] <:+: line)
    (hv : scanFree line >>= getVar = some v) : withDump (parseSqueezed convert line s) =
      if (s.varMap v).inUse then withDump (freeVar v s)
      else ([.fault s.linenum line "Double free" .error], .ok (.doubleFree, s)) := by
  obtain ⟨-, tail, hline⟩ := freeRequest_iff.mp hv
  have hin : ['f', 'r', 'e', 'e'] <:+: line := ⟨[], '(' :: v :: tail, hline.symm⟩
  unfold parseSqueezed
  rw [if_neg hnot, if_pos hin, parseFree, hv]
  simp only
  cases (s.varMap v).inUse <;> rfl

theorem parseSqueezed_alloc (h : allocRequest convert line = some (v, size)) :
    parseSqueezed convert line s = allocVar line v size s := by
  obtain ⟨space, tail, hstart⟩ := allocRequest_iff.mp h
  unfold parseSqueezed
  rw [if_pos hstart.infix, parseAlloc, h]

/-- Every other line is refused. -/
theorem parseSqueezed_error (halloc : allocRequest convert line = none)
    (hfree : ¬ ['a', 'l', 'l', 'o', 'c'] <:+: line → scanFree line >>= getVar = none) :
    withDump (parseSqueezed convert line s) =
      ([.fault s.linenum line "Failed to parse command" .error], .ok (.badInput, s)) := by
  unfold parseSqueezed
  split_ifs with hin hfr
  · rw [parseAlloc, halloc]
    rfl
  · rw [parseFree, hfree hin]
    rfl
  · rfl

/-! ### What a command does -/

/-- An allocation is neither nothing nor an error of the parser. -/
theorem allocVar_acts (line : List Char) (v : Char) (size : ℤ) (s s' : Front) :
    withDump (allocVar line v size s) ≠ ([], .ok (.success, s')) ∧
      (withDump (allocVar line v size s)).2 ≠ .ok (.badInput, s') := by
  unfold allocVar
  cases buddyAlloc size s.heap with
  | error e => exact ⟨nofun, nofun⟩
  | ok r =>
    obtain ⟨_ | addr, heap⟩ := r
    · exact ⟨nofun, nofun⟩
    · exact ⟨nofun, nofun⟩

theorem allocVar_events {e : Event} (h : e ∈ (withDump (allocVar line v size s)).1) :
    (∀ size' mem, e = .alloc size' mem → size' = size) ∧ ∀ mem, e ≠ .free mem := by
  unfold allocVar at h
  cases hb : buddyAlloc size s.heap with
  | error err => simp [hb, withDump] at h
  | ok r =>
    obtain ⟨_ | addr, heap⟩ := r
    · simp only [hb, withDump, List.mem_cons, List.not_mem_nil, or_false] at h
      rcases h with rfl | rfl | rfl <;> simp +contextual
    · simp only [hb, withDump, List.cons_append, List.nil_append, List.mem_cons, List.not_mem_nil,
        or_false] at h
      rcases h with rfl | rfl <;> simp +contextual

/-- The outcome of a free. -/
def freeOutcome (line : List Char) (v : Char) (s : Front) : Outcome :=
  if (s.varMap v).inUse then withDump (freeVar v s)
  else ([.fault s.linenum line "Double free" .error], .ok (.doubleFree, s))

theorem freeOutcome_acts (line : List Char) (v : Char) (s s' : Front) :
    freeOutcome line v s ≠ ([], .ok (.success, s')) ∧
      (freeOutcome line v s).2 ≠ .ok (.badInput, s') := by
  unfold freeOutcome freeVar
  split_ifs
  · cases (s.varMap v).mem with
    | none => exact ⟨nofun, nofun⟩
    | some addr =>
      simp only
      cases buddyFree addr s.heap with
      | error e => exact ⟨nofun, nofun⟩
      | ok heap => exact ⟨nofun, nofun⟩
  · exact ⟨nofun, nofun⟩

theorem freeOutcome_events {size : ℤ} {mem : Option ℕ} :
    Event.alloc size mem ∉ (freeOutcome line v s).1 := by
  unfold freeOutcome freeVar
  split_ifs
  · cases (s.varMap v).mem with
    | none => simp [withDump]
    | some addr =>
      simp only
      cases buddyFree addr s.heap with
      | error e => simp [withDump]
      | ok heap => simp [withDump]
  · simp

theorem parseCommand_empty (h : LooksEmpty text) (cmdLen : ℤ) :
    parseCommand convert (text ++ '\x00' :: residue) cmdLen s = ([], .ok (.success, s)) := by
  refine if_pos ?_
  cases text with
  | nil => exact Or.inl rfl
  | cons c text => exact Or.inr (h.resolve_left (List.cons_ne_nil c text))

theorem parseCommand_line {cmdLen : ℤ} (h : ¬ LooksEmpty text) (hnul : '\x00' ∉ text)
    (hlen : text.length < cmdLen) : parseCommand convert (text ++ '\x00' :: residue) cmdLen s =
      withDump (parseSqueezed convert (strip text) s) := by
  unfold parseCommand
  rw [cString_squeeze hnul hlen, if_neg]
  cases text with
  | nil => exact absurd (Or.inl rfl) h
  | cons c text =>
    rintro (hc | hc)
    · exact hnul (by
        rw [List.cons_append, List.head?_cons, Option.some.injEq] at hc
        exact hc ▸ List.mem_cons_self ..)
    · exact h (Or.inr hc)

/-! ### The parser and its format -/

theorem AllocForm.ne_nil (h : AllocForm convert line v size) : line ≠ [] := by
  obtain ⟨unit, -, -, num, n, m, x, rest, -, -, -, -, rfl⟩ := h
  exact List.cons_ne_nil _ _

theorem FreeForm.ne_nil (h : FreeForm line v) : line ≠ [] := by
  obtain ⟨-, rfl⟩ := h
  exact List.cons_ne_nil _ _

theorem AllocForm.infix (h : AllocForm convert line v size) :
    ['a', 'l', 'l', 'o', 'c'] <:+: line := by
  obtain ⟨unit, hstart⟩ := h
  exact StartsAlloc.infix hstart

theorem FreeForm.request (h : FreeForm line v) : scanFree line >>= getVar = some v :=
  freeRequest_iff.mpr ⟨h.1, [')'], h.2⟩

theorem accepts_alloc (h : Clean convert text) (hne : strip text ≠ [])
    (hreq : allocRequest convert (strip text) = some (v, size)) :
    AcceptsFormat convert text s (withDump (parseSqueezed convert (strip text) s)) := by
  obtain ⟨space, tail, hstart⟩ := allocRequest_iff.mp hreq
  obtain ⟨v', size', hform⟩ := h.alloc v size space tail hstart
  have hsame : ∀ {w : Char} {n : ℤ}, AllocForm convert (strip text) w n → w = v ∧ n = size :=
    fun hw => by simpa using hw.request.symm.trans hreq
  obtain ⟨rfl, rfl⟩ := hsame hform
  rw [parseSqueezed_alloc hreq]
  refine ⟨fun n mem hmem => ⟨v', ?_⟩, fun mem hmem => absurd rfl ((allocVar_events hmem).2 mem),
    fun w n hw => ?_, fun w hw => absurd hform.infix hw.not_infix, fun hnil => absurd hnil hne,
    fun _ hno => absurd hform (hno v' size')⟩
  · rw [(allocVar_events hmem).1 n mem rfl]
    exact hform
  · obtain ⟨rfl, rfl⟩ := hsame hw
    rfl

theorem accepts_free (h : Clean convert text) (hne : strip text ≠ [])
    (hno : ∀ v size, ¬ AllocForm convert (strip text) v size)
    (hnot : ¬ ['a', 'l', 'l', 'o', 'c'] <:+: strip text)
    (hv : scanFree (strip text) >>= getVar = some v) :
    AcceptsFormat convert text s (withDump (parseSqueezed convert (strip text) s)) := by
  obtain ⟨hletter, tail, hline⟩ := freeRequest_iff.mp hv
  obtain ⟨v', hform⟩ := h.free v tail hletter hline hnot
  have hsame : ∀ {w : Char}, FreeForm (strip text) w → w = v := fun hw => by
    simpa using hw.request.symm.trans hv
  obtain rfl := hsame hform
  rw [parseSqueezed_free hnot hv, ← freeOutcome]
  refine ⟨fun n mem hmem => absurd hmem freeOutcome_events, fun mem _ => ⟨v', hform⟩,
    fun w n hw => absurd hw (hno w n), fun w hw => ?_, fun hnil => absurd hnil hne,
    fun _ _ hnf => absurd hform (hnf v')⟩
  obtain rfl := hsame hw
  rfl

/-- **A clean line is treated as the format says.** -/
theorem accepts_of_clean {cmdLen : ℤ} (hnul : '\x00' ∉ text) (hlen : text.length < cmdLen)
    (h : Clean convert text) :
    AcceptsFormat convert text s (parseCommand convert (text ++ '\x00' :: residue) cmdLen s) := by
  by_cases hlook : LooksEmpty text
  · have hnil := h.empty.mpr hlook
    rw [parseCommand_empty hlook]
    exact ⟨nofun, nofun, fun v size hform => absurd hnil hform.ne_nil,
      fun v hform => absurd hnil hform.ne_nil, fun _ => rfl, fun hne => absurd hnil hne⟩
  · have hne : strip text ≠ [] := fun hnil => hlook (h.empty.mp hnil)
    rw [parseCommand_line hlook hnul hlen]
    cases hreq : allocRequest convert (strip text) with
    | some r => exact accepts_alloc h hne hreq
    | none =>
      have hno : ∀ v size, ¬ AllocForm convert (strip text) v size := fun v size hform => by
        rw [hform.request] at hreq
        cases hreq
      by_cases hfree : ¬ ['a', 'l', 'l', 'o', 'c'] <:+: strip text ∧
          ∃ v, scanFree (strip text) >>= getVar = some v
      · obtain ⟨hnot, v, hv⟩ := hfree
        exact accepts_free h hne hno hnot hv
      · rw [parseSqueezed_error hreq fun hnot => by
          by_contra hv
          exact hfree ⟨hnot, Option.ne_none_iff_exists'.mp hv⟩]
        exact ⟨fun n mem hmem => by simp at hmem, fun mem hmem => by simp at hmem,
          fun w n hw => absurd hw (hno w n), fun w hw => absurd ⟨hw.not_infix, w, hw.request⟩ hfree,
          fun hnil => absurd hnil hne, fun _ _ _ => rfl⟩

/-- **A line that is treated as the format says is clean.** -/
theorem clean_of_accepts {cmdLen : ℤ} (hnul : '\x00' ∉ text) (hlen : text.length < cmdLen)
    (h : AcceptsFormat convert text s (parseCommand convert (text ++ '\x00' :: residue) cmdLen s)) :
    Clean convert text := by
  have hempty : LooksEmpty text → strip text = [] := fun hlook => by
    by_contra hne
    rw [parseCommand_empty hlook] at h
    by_cases ha : ∃ v size, AllocForm convert (strip text) v size
    · obtain ⟨v, size, hform⟩ := ha
      exact (allocVar_acts ..).1 (h.alloc v size hform).symm
    · by_cases hf : ∃ v, FreeForm (strip text) v
      · obtain ⟨v, hform⟩ := hf
        exact (freeOutcome_acts ..).1 (h.free v hform).symm
      · have hbad := h.malformed hne (fun v size hform => ha ⟨v, size, hform⟩)
          fun v hform => hf ⟨v, hform⟩
        cases hbad
  refine ⟨⟨fun hnil => ?_, hempty⟩, fun v size space tail hstart => ?_, fun v tail hletter hline hnot => ?_⟩
  · by_contra hlook
    have hsuccess := h.empty hnil
    rw [parseCommand_line hlook hnul hlen, hnil, parseSqueezed_error rfl fun _ => rfl] at hsuccess
    cases hsuccess
  · by_contra hno
    have hreq := allocRequest_iff.mpr ⟨space, tail, hstart⟩
    have hin := hstart.infix
    have hne : strip text ≠ [] := fun hnil => by
      rw [hnil] at hreq
      cases hreq
    have hbad := h.malformed hne (fun v size hform => hno ⟨v, size, hform⟩)
      fun v hform => hform.not_infix hin
    rw [parseCommand_line (fun hlook => hne (hempty hlook)) hnul hlen, parseSqueezed_alloc hreq] at hbad
    exact (allocVar_acts ..).2 (congrArg Prod.snd hbad)
  · by_contra hno
    have hreq := freeRequest_iff.mpr ⟨hletter, tail, hline⟩
    have hne : strip text ≠ [] := fun hnil => by
      rw [hnil] at hreq
      cases hreq
    have hbad := h.malformed hne (fun v size hform => hnot hform.infix)
      fun v hform => hno ⟨v, hform⟩
    rw [parseCommand_line (fun hlook => hne (hempty hlook)) hnul hlen, parseSqueezed_free hnot hreq,
      ← freeOutcome] at hbad
    exact (freeOutcome_acts ..).2 (congrArg Prod.snd hbad)

/-- **The parser follows its format exactly for the clean lines**, whatever an earlier line has left in
the buffer. -/
theorem accepts_iff (convert : ℤ → Option ℤ) {text : List Char} (residue : List Char) {cmdLen : ℤ}
    (s : Front) (hnul : '\x00' ∉ text) (hlen : text.length < cmdLen) :
    AcceptsFormat convert text s (parseCommand convert (text ++ '\x00' :: residue) cmdLen s) ↔
      Clean convert text :=
  ⟨clean_of_accepts hnul hlen, accepts_of_clean hnul hlen⟩

/-- The command of the README is a clean line, and so the parser follows the format. -/
theorem accepts_iff_sample : AcceptsFormat some "a = alloc(44K)\n".toList start
    (parseCommand some ("a = alloc(44K)\n".toList ++ '\x00' :: "le = 1".toList) 22 start) := by
  have hform : AllocForm some (strip "a = alloc(44K)\n".toList) 'a' (44 * 1024) := by
    have hletter : IsLetter 'a' := Or.inl (by decide)
    refine ⟨.K, hletter, by simp, ['4', '4'], 44, 44, 'K', [')'], ?_, rfl, rfl, rfl, by decide⟩
    refine .plain (by simp) fun d hd => ?_
    obtain rfl : d = '4' := by simpa using hd
    rfl
  refine (accepts_iff some _ start (by simp) (by decide)).mpr ⟨?_, ?_, ?_⟩
  · refine ⟨fun h => absurd h (by decide), ?_⟩
    rintro (h | h | h)
    · cases h
    · cases h
    · cases h
  · intro v size space tail _
    exact ⟨'a', 44 * 1024, hform⟩
  · intro v tail _ hfree
    have hstrip : strip "a = alloc(44K)\n".toList = "a=alloc(44K)".toList := by decide
    rw [hstrip] at hfree
    cases hfree

/-- A line of one blank is refused. -/
theorem accepts_iff_blank : ¬ AcceptsFormat some " \n".toList start
    (parseCommand some (" \n".toList ++ '\x00' :: []) 3 start) := by
  intro h
  cases h.empty rfl

/-- **Lines that differ only in blanks** have the same effect, where the parser follows the format. -/
theorem AcceptsFormat.unique {text' : List Char} {out out' : Outcome}
    (h : AcceptsFormat convert text s out) (h' : AcceptsFormat convert text' s out')
    (heq : strip text = strip text') : out = out' := by
  by_cases ha : ∃ v size, AllocForm convert (strip text) v size
  · obtain ⟨v, size, hform⟩ := ha
    rw [h.alloc v size hform, h'.alloc v size (heq ▸ hform), heq]
  · by_cases hf : ∃ v, FreeForm (strip text) v
    · obtain ⟨v, hform⟩ := hf
      rw [h.free v hform, h'.free v (heq ▸ hform), heq]
    · by_cases hnil : strip text = []
      · rw [h.empty hnil, h'.empty (heq ▸ hnil)]
      · have hna : ∀ v size, ¬ AllocForm convert (strip text) v size :=
          fun v size hform => ha ⟨v, size, hform⟩
        have hnf : ∀ v, ¬ FreeForm (strip text) v := fun v hform => hf ⟨v, hform⟩
        rw [h.malformed hnil hna hnf, h'.malformed (heq ▸ hnil) (heq ▸ hna) (heq ▸ hnf), heq]

/-- `parse_file` passes the size of the buffer: enough, as long as it is an `int`. -/
theorem length_lt_cmdLen (hsize : (text ++ '\x00' :: residue).length < 2 ^ 31) :
    (text.length : ℤ) < Int.bmod (text ++ '\x00' :: residue).length (2 ^ 32) := by
  rw [Int.bmod_eq_of_le (by omega) (by push_cast; omega)]
  simp only [List.length_append, List.length_cons]
  push_cast
  omega

end Eecs678.Buddy.Commands
