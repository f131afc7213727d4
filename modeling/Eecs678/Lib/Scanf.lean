import Mathlib.Algebra.Order.Ring.Int
import Mathlib.Data.List.TakeWhile

/-!
# Reading numerals

`sscanf` with formats of white space, characters, `%d` and `%x`, and `atoi`. A numeral that is too long
is read as `strtol` and `strtoul` read it. `sscanf_newline`: a newline at the end of the string does not
matter.
-/

namespace Eecs678.Lib.Scanf

/-- The string that starts at a buffer. -/
def cString (buf : List Char) : List Char := buf.takeWhile (· ≠ '\x00')

/-- `isspace`. -/
def isSpace (c : Char) : Bool := [' ', '\t', '\n', '\x0b', '\x0c', '\r'].contains c

/-! ### Numerals -/

/-- The value of a digit. -/
def digit (base : ℕ) (c : Char) : Option ℕ :=
  let value :=
    if '0' ≤ c ∧ c ≤ '9' then some (c.toNat - '0'.toNat)
    else if 'a' ≤ c ∧ c ≤ 'z' then some (c.toNat - 'a'.toNat + 10)
    else if 'A' ≤ c ∧ c ≤ 'Z' then some (c.toNat - 'A'.toNat + 10)
    else none
  value.filter (· < base)

def isDigit (base : ℕ) (c : Char) : Bool := (digit base c).isSome

/-- The value of a string of digits. -/
def numeral (base : ℕ) (digits : List Char) : ℕ :=
  digits.foldl (fun n c => base * n + (digit base c).getD 0) 0

/-- The sign of a numeral. -/
def scanSign : List Char → ℤ × List Char
  | [] => (1, [])
  | c :: str => if c = '-' then (-1, str) else if c = '+' then (1, str) else (1, c :: str)

/-- The `0x` that a numeral to the base 16 may have. -/
def skipPrefix (base : ℕ) : List Char → List Char
  | c :: x :: str => if base = 16 ∧ c = '0' ∧ (x = 'x' ∨ x = 'X') then str else c :: x :: str
  | str => str

/-- A numeral at the start of a string, after white space: its sign, its value, and the rest. -/
def scanNumeral (base : ℕ) (str : List Char) : Option (ℤ × ℕ × List Char) :=
  let (sign, str) := scanSign (str.dropWhile isSpace)
  let str := skipPrefix base str
  let digits := str.takeWhile (isDigit base)
  if digits = [] then none else some (sign, numeral base digits, str.dropWhile (isDigit base))

/-- What `strtol` gives for a numeral. -/
def toLong (sign : ℤ) (n : ℕ) : ℤ := max (-2 ^ 63) (min (sign * n) (2 ^ 63 - 1))

/-- What `strtoul` gives for a numeral. -/
def toUnsignedLong (sign : ℤ) (n : ℕ) : ℤ := if n < 2 ^ 64 then sign * n else 2 ^ 64 - 1

/-- `atoi`: a `long` that is stored in an `int`. -/
def atoi (str : List Char) : ℤ :=
  match scanNumeral 10 str with
  | some (sign, n, _) => Int.bmod (toLong sign n) (2 ^ 32)
  | none => 0

/-! ### Formats -/

/-- A part of a format. -/
inductive Directive
  | white
  | char (c : Char)
  | decimal
  | hex
deriving DecidableEq, Repr

def directives : List Char → List Directive
  | '%' :: 'd' :: format => .decimal :: directives format
  | '%' :: 'x' :: format => .hex :: directives format
  | c :: format => (if isSpace c then .white else .char c) :: directives format
  | [] => []

/-- One part of the format: the number it stores, if any, and the rest of the string. -/
def scanDirective : Directive → List Char → Option (Option ℤ × List Char)
  | .white, str => some (none, str.dropWhile isSpace)
  | .char _, [] => none
  | .char c, d :: str => if c = d then some (none, str) else none
  | .decimal, str => (scanNumeral 10 str).map fun (sign, n, str) => (some (toLong sign n), str)
  | .hex, str => (scanNumeral 16 str).map fun (sign, n, str) => (some (toUnsignedLong sign n), str)

/-- The numbers that are stored, up to the first part that does not match. -/
def scan : List Directive → List Char → List ℤ
  | [], _ => []
  | d :: ds, str =>
    match scanDirective d str with
    | none => []
    | some (value, str) => value.toList ++ scan ds str

/-- `sscanf`: the numbers that it stores. -/
def sscanf (format : String) (buf : List Char) : List ℤ := scan (directives format.toList) (cString buf)

/-! ### Strings of digits -/

theorem isSpace_of_digit {base : ℕ} {c : Char} (h : isDigit base c = true) : isSpace c = false := by
  by_contra hc
  have hmem : c ∈ [' ', '\t', '\n', '\x0b', '\x0c', '\r'] :=
    List.contains_iff_mem.mp (Bool.not_eq_false _ ▸ hc)
  simp only [List.mem_cons, List.not_mem_nil, or_false] at hmem
  rcases hmem with rfl | rfl | rfl | rfl | rfl | rfl <;> cases h

theorem scanSign_digit {base : ℕ} {c : Char} (h : isDigit base c = true) (str : List Char) :
    scanSign (c :: str) = (1, c :: str) := by
  have hminus : c ≠ '-' := by
    rintro rfl
    cases h
  have hplus : c ≠ '+' := by
    rintro rfl
    cases h
  rw [scanSign, if_neg hminus, if_neg hplus]

theorem skipPrefix_digits {base : ℕ} : ∀ {digits : List Char}, (∀ c ∈ digits, isDigit base c = true) →
    skipPrefix base digits = digits
  | [], _ => rfl
  | [_], _ => rfl
  | c :: x :: str, h => by
    have hx : ¬ (base = 16 ∧ c = '0' ∧ (x = 'x' ∨ x = 'X')) := by
      have hdigit := h x (by simp)
      rintro ⟨rfl, -, rfl | rfl⟩
      · cases hdigit
      · cases hdigit
    exact if_neg hx

/-- Only a numeral to the base 16 has a prefix. -/
theorem skipPrefix_decimal : ∀ str : List Char, skipPrefix 10 str = str
  | [] => rfl
  | [_] => rfl
  | _ :: _ :: _ => rfl

/-- **A string of digits** is read as its value. -/
theorem scanNumeral_digits {base : ℕ} {digits : List Char} (hne : digits ≠ [])
    (h : ∀ c ∈ digits, isDigit base c = true) :
    scanNumeral base digits = some (1, numeral base digits, []) := by
  obtain ⟨c, str, rfl⟩ := List.exists_cons_of_ne_nil hne
  have hc := h c (List.mem_cons_self ..)
  unfold scanNumeral
  rw [List.dropWhile_cons_of_neg (by simp [isSpace_of_digit hc]), scanSign_digit hc]
  simp only [skipPrefix_digits h]
  rw [List.takeWhile_eq_self_iff.mpr h, if_neg hne, List.dropWhile_eq_nil_iff.mpr h]

/-! ### A newline at the end -/

/-- Two strings that are the same up to a newline at the end. -/
def Same (str str' : List Char) : Prop := str' = str ∨ str' = str ++ ['\n']

variable {str str' : List Char}

theorem Same.dropWhile (h : Same str str') (p : Char → Bool) : Same (str.dropWhile p) (str'.dropWhile p) := by
  rcases h with rfl | rfl
  · exact .inl rfl
  · rw [List.dropWhile_append]
    split_ifs with hempty
    · rw [List.isEmpty_iff.mp hempty, List.dropWhile_cons]
      split_ifs
      · exact .inl rfl
      · exact .inr rfl
    · exact .inr rfl

theorem Same.takeWhile_eq (h : Same str str') {p : Char → Bool} (hp : p '\n' = false) :
    str'.takeWhile p = str.takeWhile p := by
  rcases h with rfl | rfl
  · rfl
  · rw [List.takeWhile_append]
    split_ifs with hall
    · rw [List.takeWhile_cons_of_neg (by simp [hp]), List.append_nil]
      exact ((List.takeWhile_prefix p).eq_of_length hall).symm
    · rfl

theorem Same.cString (h : Same str str') : Same (cString str) (cString str') := by
  rcases h with rfl | rfl
  · exact .inl rfl
  · unfold Scanf.cString
    rw [List.takeWhile_append]
    split_ifs with hall
    · rw [(List.takeWhile_prefix _).eq_of_length hall]
      exact .inr rfl
    · exact .inl rfl

theorem Same.scanSign (h : Same str str') :
    (scanSign str').1 = (scanSign str).1 ∧ Same (scanSign str).2 (scanSign str').2 := by
  rcases h with rfl | rfl
  · exact ⟨rfl, .inl rfl⟩
  · rcases str with _ | ⟨c, str⟩
    · exact ⟨rfl, .inr rfl⟩
    · rw [List.cons_append]
      simp only [Scanf.scanSign]
      split_ifs
      · exact ⟨rfl, .inr rfl⟩
      · exact ⟨rfl, .inr rfl⟩
      · exact ⟨rfl, .inr rfl⟩

theorem Same.skipPrefix (h : Same str str') (base : ℕ) : Same (skipPrefix base str) (skipPrefix base str') := by
  rcases h with rfl | rfl
  · exact .inl rfl
  · rcases str with _ | ⟨c, _ | ⟨x, str⟩⟩
    · exact .inr rfl
    · -- the newline is no `x`
      have hx : ¬ (base = 16 ∧ c = '0' ∧ ('\n' = 'x' ∨ '\n' = 'X')) := fun h => by
        rcases h.2.2 with h | h <;> cases h
      show Same [c] (Scanf.skipPrefix base [c, '\n'])
      rw [Scanf.skipPrefix, if_neg hx]
      exact .inr rfl
    · rw [List.cons_append, List.cons_append]
      simp only [Scanf.skipPrefix]
      split_ifs
      · exact .inr rfl
      · exact .inr rfl

theorem isDigit_newline (base : ℕ) : isDigit base '\n' = false := rfl

/-- The same numeral is read from both. -/
theorem Same.scanNumeral (h : Same str str') (base : ℕ) :
    (scanNumeral base str = none ∧ scanNumeral base str' = none) ∨ ∃ sign n rest rest',
      scanNumeral base str = some (sign, n, rest) ∧ scanNumeral base str' = some (sign, n, rest') ∧
        Same rest rest' := by
  obtain ⟨hsign, hrest⟩ := (h.dropWhile isSpace).scanSign
  have hrest := hrest.skipPrefix base
  have hdigits := hrest.takeWhile_eq (isDigit_newline base)
  unfold Scanf.scanNumeral
  simp only [hsign, hdigits]
  split_ifs
  · exact .inl ⟨rfl, rfl⟩
  · exact .inr ⟨_, _, _, _, rfl, rfl, hrest.dropWhile _⟩

theorem Same.scanDirective (h : Same str str') {d : Directive} (hd : d ≠ .char '\n') :
    (scanDirective d str = none ∧ scanDirective d str' = none) ∨ ∃ value rest rest',
      scanDirective d str = some (value, rest) ∧ scanDirective d str' = some (value, rest') ∧
        Same rest rest' := by
  rcases d with _ | c | _ | _
  · exact .inr ⟨_, _, _, rfl, rfl, h.dropWhile _⟩
  · rcases h with rfl | rfl
    · cases hs : Scanf.scanDirective (.char c) str' with
      | none => exact .inl ⟨rfl, rfl⟩
      | some r => exact .inr ⟨_, _, _, rfl, rfl, .inl rfl⟩
    · rcases str with _ | ⟨x, str⟩
      · have hc : c ≠ '\n' := fun hc => hd (hc ▸ rfl)
        exact .inl ⟨rfl, if_neg hc⟩
      · by_cases hc : c = x
        · exact .inr ⟨none, str, str ++ ['\n'], if_pos hc, if_pos hc, .inr rfl⟩
        · exact .inl ⟨if_neg hc, if_neg hc⟩
  · rcases h.scanNumeral 10 with ⟨h1, h2⟩ | ⟨sign, n, rest, rest', h1, h2, hrest⟩
    · exact .inl ⟨by rw [Scanf.scanDirective, h1]; rfl, by rw [Scanf.scanDirective, h2]; rfl⟩
    · exact .inr ⟨_, _, _, by rw [Scanf.scanDirective, h1]; rfl, by rw [Scanf.scanDirective, h2]; rfl, hrest⟩
  · rcases h.scanNumeral 16 with ⟨h1, h2⟩ | ⟨sign, n, rest, rest', h1, h2, hrest⟩
    · exact .inl ⟨by rw [Scanf.scanDirective, h1]; rfl, by rw [Scanf.scanDirective, h2]; rfl⟩
    · exact .inr ⟨_, _, _, by rw [Scanf.scanDirective, h1]; rfl, by rw [Scanf.scanDirective, h2]; rfl, hrest⟩

theorem scan_same : ∀ {ds : List Directive} {str str' : List Char}, (∀ d ∈ ds, d ≠ .char '\n') →
    Same str str' → scan ds str' = scan ds str
  | [], _, _, _, _ => rfl
  | d :: ds, str, str', hds, h => by
    obtain ⟨hd, hds⟩ := List.forall_mem_cons.mp hds
    rcases h.scanDirective hd with ⟨h1, h2⟩ | ⟨value, rest, rest', h1, h2, hrest⟩
    · rw [scan, scan, h1, h2]
    · rw [scan, scan, h1, h2]
      simp only
      rw [scan_same hds hrest]

/-- A newline in a format is white space. -/
theorem directives_ne_newline : ∀ (format : List Char), ∀ d ∈ directives format, d ≠ .char '\n' := by
  intro format
  fun_induction directives format with
  | case1 format ih => exact List.forall_mem_cons.mpr ⟨nofun, ih⟩
  | case2 format ih => exact List.forall_mem_cons.mpr ⟨nofun, ih⟩
  | case3 c format _ _ ih =>
    refine List.forall_mem_cons.mpr ⟨?_, ih⟩
    split_ifs with hspace
    · nofun
    · rintro hc
      obtain rfl := Directive.char.inj hc
      exact hspace rfl
  | case4 => nofun

/-- **A newline at the end of the string does not matter.** -/
theorem sscanf_newline (format : String) (str : List Char) :
    sscanf format (str ++ ['\n']) = sscanf format str :=
  scan_same (directives_ne_newline format.toList) (Same.cString (.inr rfl))

end Eecs678.Lib.Scanf
