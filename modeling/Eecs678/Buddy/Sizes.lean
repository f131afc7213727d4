import Eecs678.Buddy.LiveBlocks
import Eecs678.Buddy.Requests
import Eecs678.Lib.PrefixCode

/-!
# How large a granted block is

A command `v=alloc(n)` asks for `n` bytes, `v=alloc(nK)` and `v=alloc(nk)` for `1024 * n`
(`SizeUnit.bytes`). `parse_alloc` scales the number in an `int`, so what `buddy_alloc` gets is the product
modulo `2 ^ 32` (`SizeUnit.request`): `large_enough_iff` says when each command that goes well leaves its
variable with a block as large as asked.
-/

namespace Eecs678.Buddy.Sizes

open Eecs678.Lib.Scanf (cString isSpace isDigit isSpace_of_digit numeral scanSign scanSign_digit scanNumeral
  skipPrefix_decimal)
open Eecs678.Lib.Dyadic Eecs678.Lib.PrefixCode Eecs678.Buddy.Model Eecs678.Buddy.Invariant
open Eecs678.Buddy.Partition Eecs678.Buddy.FrontEnd Eecs678.Buddy.LiveBlocks Eecs678.Buddy.Requests

/-! ### Commands -/

/-- What follows the number in a command. -/
inductive SizeUnit
  | plain
  | k
  | K
deriving DecidableEq, Repr

/-- The unit as it is written. -/
def SizeUnit.text : SizeUnit → List Char
  | .plain => [')']
  | .k => ['k', ')']
  | .K => ['K', ')']

/-- The bytes that a command with the number `n` asks for. -/
def SizeUnit.bytes : SizeUnit → ℤ → ℤ
  | .plain, n => n
  | _, n => n * 1024

/-- The bytes that `buddy_alloc` is asked for. -/
def SizeUnit.request : SizeUnit → ℤ → ℤ
  | .plain, n => n
  | _, n => Int.bmod (n * 1024) (2 ^ 32)

/-- The buffer holds the command `v=alloc(digits unit`, but for blanks. -/
structure AllocCommand (cmd : List Char) (cmdLen : ℤ) (v : Char) (digits : List Char)
    (unit : SizeUnit) : Prop where
  letter : ('a' ≤ v ∧ v ≤ 'z') ∨ ('A' ≤ v ∧ v ≤ 'Z')
  digits_ne : digits ≠ []
  isDigit : ∀ d ∈ digits, isDigit 10 d = true
  head : ¬ (cmd.head? = some '\x00' ∨ cmd.head? = some '\n' ∨ cmd.head? = some '\r')
  text : cString (squeeze cmd cmdLen) =
    v :: (['=', 'a', 'l', 'l', 'o', 'c', '('] ++ (digits ++ unit.text))

/-- The state in which `parse_command` is called: the commands before went well. -/
def Running (convert : ℤ → Option ℤ) (s : Front) : Prop :=
  ∃ lines s₀, (parseFile convert lines start).2 = .ok (.success, s₀) ∧
    s = { s₀ with linenum := s₀.linenum + 1 }

/-- The size of the block at an address, as its page has it. -/
def blockSize (heap : Allocator) (addr : ℕ) : ℤ := 2 ^ (heap.gPages (addrToPage addr)).order

/-- The variable was assigned a block of at least `n` bytes. -/
def Holds (s : Front) (v : Char) (n : ℤ) : Prop :=
  ∃ addr, s.varMap v = ⟨some addr, true⟩ ∧ n ≤ blockSize s.heap addr

/-! ### Reading a command -/

theorem scanText_append : ∀ text rest : List Char, scanText text (text ++ rest) = some rest
  | [], _ => rfl
  | c :: text, rest => by
    rw [List.cons_append, scanText, if_pos rfl]
    exact scanText_append text rest

/-- After white space and a sign, `%d` reads a numeral up to the next character that is no digit. -/
theorem scanInt_digits {str digits rest : List Char} {sign : ℤ} {c : Char}
    (hsign : scanSign (str.dropWhile isSpace) = (sign, digits ++ c :: rest)) (hne : digits ≠ [])
    (hd : ∀ d ∈ digits, isDigit 10 d = true) (hc : isDigit 10 c = false) :
    scanInt str = some (sign * numeral 10 digits, c :: rest) := by
  unfold scanInt scanNumeral
  rw [hsign]
  simp only [skipPrefix_decimal, takeWhile_word hd hc, dropWhile_word hd hc, if_neg hne, Option.map_some]

theorem scanInt_append {digits rest : List Char} {c : Char} (hne : digits ≠ [])
    (hd : ∀ d ∈ digits, isDigit 10 d = true) (hc : isDigit 10 c = false) :
    scanInt (digits ++ c :: rest) = some ((numeral 10 digits : ℤ), c :: rest) := by
  have hsign : scanSign ((digits ++ c :: rest).dropWhile isSpace) = (1, digits ++ c :: rest) := by
    obtain ⟨d, ds, rfl⟩ := List.exists_cons_of_ne_nil hne
    have hdigit := hd d (List.mem_cons_self ..)
    rw [List.cons_append, List.dropWhile_cons_of_neg (by simp [isSpace_of_digit hdigit]),
      scanSign_digit hdigit]
  rw [scanInt_digits hsign hne hd hc, one_mul]

variable {convert : ℤ → Option ℤ} {cmd digits : List Char} {cmdLen : ℤ} {v : Char} {unit : SizeUnit}
  {s : Front}

theorem allocRequest_eq (h : AllocCommand cmd cmdLen v digits unit)
    (hconv : convert (numeral 10 digits) = some (numeral 10 digits)) :
    allocRequest convert (cString (squeeze cmd cmdLen)) = some (v, unit.request (numeral 10 digits)) := by
  have hv : getVar v = some v := if_pos h.letter
  unfold allocRequest scanAlloc
  rw [h.text]
  cases unit with
  | plain =>
    simp only [scanChar, bind, Option.bind, scanText_append, SizeUnit.text,
      scanInt_append h.digits_ne h.isDigit (show isDigit 10 ')' = false from rfl), pure, hconv, alter, hv]
    rfl
  | k =>
    simp only [scanChar, bind, Option.bind, scanText_append, SizeUnit.text,
      scanInt_append h.digits_ne h.isDigit (show isDigit 10 'k' = false from rfl), pure, hconv, alter, hv]
    rfl
  | K =>
    simp only [scanChar, bind, Option.bind, scanText_append, SizeUnit.text,
      scanInt_append h.digits_ne h.isDigit (show isDigit 10 'K' = false from rfl), pure, hconv, alter, hv]
    rfl

/-- **The command is an allocation** of the size scaled in an `int`. -/
theorem parseCommand_alloc (h : AllocCommand cmd cmdLen v digits unit)
    (hconv : convert (numeral 10 digits) = some (numeral 10 digits)) :
    parseCommand convert cmd cmdLen s = withDump
      (allocVar (cString (squeeze cmd cmdLen)) v (unit.request (numeral 10 digits)) s) := by
  have hinfix : ['a', 'l', 'l', 'o', 'c'] <:+: cString (squeeze cmd cmdLen) := by
    rw [h.text]
    exact ⟨[v, '='], '(' :: (digits ++ unit.text), rfl⟩
  unfold parseCommand parseSqueezed parseAlloc
  rw [if_neg h.head, if_pos hinfix, allocRequest_eq h hconv]

theorem withDump_allocVar {text : List Char} {size : ℤ} {events : List Event} {s' : Front} :
    withDump (allocVar text v size s) = (events, .ok (.success, s')) →
      ∃ addr heap, buddyAlloc size s.heap = .ok (some addr, heap) ∧
        s' = setVar v ⟨some addr, true⟩ { s with heap := heap } := by
  unfold allocVar
  cases hb : buddyAlloc size s.heap with
  | error e => intro h; simp [withDump] at h
  | ok r =>
    obtain ⟨_ | addr, heap⟩ := r
    · intro h; simp [withDump] at h
    · intro h
      simp only [withDump, Prod.mk.injEq, Except.ok.injEq, true_and] at h
      exact ⟨addr, heap, rfl, h.2.symm⟩

/-! ### The size of the block -/

theorem blockSize_eq {a : Allocator} {live : List Blk} {size : ℤ} {addr : ℕ} {a' : Allocator}
    (h : Inv a [] live) (hb : buddyAlloc size a = .ok (some addr, a')) :
    ∃ o found, requestOrder size = .ok o ∧ blockSize a' addr = 2 ^ o ∧ o ≤ found ∧ found ≤ maxOrder ∧
      a.freeArea found ≠ [] := by
  obtain ⟨hpos, o, ho⟩ := order_of_alloc hb
  rcases alloc_spec h hpos ho with ⟨he, -⟩ | ⟨found, i, rest, s₁, h1, h2, hil, -, -, -, he⟩
  · rw [he] at hb; simp at hb
  · rw [he, Except.ok.injEq, Prod.mk.injEq, Option.some.injEq] at hb
    obtain ⟨rfl, rfl⟩ := hb
    refine ⟨o, found, ho, ?_, h1, h2, by rw [hil]; simp⟩
    rw [blockSize, addrToPage_pageToAddr, gPages_setPage, if_pos rfl]

theorem Running.inv (h : Running convert s) : ∃ live, Inv s.heap [] live := by
  obtain ⟨lines, s₀, hs, rfl⟩ := h
  obtain ⟨live, hinv, -⟩ := ((parseFile_keeps convert lines tied_start).tied s₀ hs).live
  exact ⟨live, hinv⟩

/-- A product that an `int` holds is not changed. -/
theorem request_eq {n : ℤ} (h0 : 0 ≤ n) (h : unit.bytes n < 2 ^ 31) : unit.request n = unit.bytes n := by
  have hbmod : n * 1024 < 2 ^ 31 → Int.bmod (n * 1024) (2 ^ 32) = n * 1024 := fun hlt =>
    Int.bmod_eq_of_le_mul_two (by omega) (by omega)
  cases unit with
  | plain => rfl
  | k => exact hbmod h
  | K => exact hbmod h

/-- **A granted block is as large as asked**, in each call of `parse_command` with a command
`v=alloc(n)`, `v=alloc(nk)` or `v=alloc(nK)` and each number from 1 to `2 ^ 31 - 1`, exactly when an `int`
holds the bytes asked for, or what it holds instead is not positive, or no free block is large enough even
for that. -/
theorem large_enough_iff (hconv : ∀ n : ℤ, 1 ≤ n → n < 2 ^ 31 → convert n = some n)
    (hs : Running convert s) (h : AllocCommand cmd cmdLen v digits unit)
    (h1 : 1 ≤ numeral 10 digits) (h2 : numeral 10 digits < 2 ^ 31) :
    (∀ events s', parseCommand convert cmd cmdLen s = (events, .ok (.success, s')) →
        Holds s' v (unit.bytes (numeral 10 digits))) ↔
      unit.bytes (numeral 10 digits) < 2 ^ 31 ∨ unit.request (numeral 10 digits) ≤ 0 ∨
        ∀ o, minOrder ≤ o → unit.request (numeral 10 digits) ≤ 2 ^ o → s.heap.freeArea o = [] := by
  obtain ⟨live, hinv⟩ := hs.inv
  rw [parseCommand_alloc h (hconv _ (by omega) (by omega))]
  generalize hn : (numeral 10 digits : ℤ) = n at *
  constructor
  · intro hall
    by_contra hcond
    push Not at hcond
    obtain ⟨hlarge, hpos, o, hmin, hso, hne⟩ := hcond
    have hmax : o ≤ maxOrder := by
      by_contra hlt
      exact hne (area_empty hinv (not_le.mp hlt))
    have hp : (2 : ℤ) ^ o ≤ 2 ^ 20 := pow_le_pow_right₀ (by decide) hmax
    obtain ⟨k, hk⟩ : ∃ k, requestOrder (unit.request n) = .ok k := requestOrder_ok (by omega)
    have hko : k ≤ o := (requestOrder_isLeast hk).2 ⟨hmin, hso⟩
    -- the request is granted
    rcases alloc_spec hinv hpos hk with ⟨-, hempty⟩ | ⟨found, i, rest, s₁, -, -, -, -, -, -, he⟩
    · exact hne (hempty o hko)
    · obtain ⟨addr, hmem, hsize⟩ := hall _ _ (by unfold allocVar; rw [he]; rfl)
      have hsz : blockSize (setPage i ⟨k, false⟩ s₁) (pageToAddr i) = 2 ^ k := by
        rw [blockSize, addrToPage_pageToAddr, gPages_setPage, if_pos rfl]
      rw [setVar_varMap, if_pos rfl, VarT.mk.injEq, Option.some.injEq] at hmem
      have hk2 : (2 : ℤ) ^ k ≤ 2 ^ o := pow_le_pow_right₀ (by decide) hko
      have hle : unit.bytes n ≤ 2 ^ k := by
        rw [← hsz, hmem.1]
        exact hsize
      omega
  · intro hcond events s' hres
    obtain ⟨addr, heap, hb, rfl⟩ := withDump_allocVar hres
    obtain ⟨o, found, ho, hsz, hof, -, hne⟩ := blockSize_eq hinv hb
    have hle := (requestOrder_isLeast ho).1
    refine ⟨addr, by rw [setVar_varMap, if_pos rfl], ?_⟩
    change unit.bytes n ≤ blockSize heap addr
    rw [hsz]
    rcases hcond with hsmall | hneg | hempty
    · rw [← request_eq (by omega) hsmall]
      exact hle.2
    · exact absurd (order_of_alloc hb).1 (not_lt.mpr hneg)
    · have hp : (2 : ℤ) ^ o ≤ 2 ^ found := pow_le_pow_right₀ (by decide) hof
      exact absurd (hempty found (hle.1.trans hof) (hle.2.trans hp)) hne

/-- The first command asks for `4194305K`, which is 1024 bytes modulo `2 ^ 32`. -/
theorem large_enough_iff_wraps : ∃ s cmd digits, Running some s ∧ AllocCommand cmd 120 'a' digits .K ∧
    numeral 10 digits = 4194305 ∧ ∃ events s', parseCommand some cmd 120 s = (events, .ok (.success, s')) ∧
      ¬ Holds s' 'a' (SizeUnit.bytes .K 4194305) := by
  have hcmd : AllocCommand ['a', '=', 'a', 'l', 'l', 'o', 'c', '(', '4', '1', '9', '4', '3', '0', '5', 'K',
      ')', '\n', '\x00'] 120 'a' ['4', '1', '9', '4', '3', '0', '5'] .K :=
    ⟨by decide, by decide, List.all_eq_true.mp (by decide), by decide, by decide⟩
  obtain ⟨heap, hb, hp⟩ : ∃ heap, buddyAlloc 1024 buddyInit = .ok (some 0, heap) ∧
      (heap.gPages 0).order = 12 := ⟨_, rfl, rfl⟩
  refine ⟨{ start with linenum := 1 }, _, _, ⟨[], start, rfl, rfl⟩, hcmd, rfl, ?_⟩
  rw [parseCommand_alloc hcmd rfl]
  have hreq : SizeUnit.request .K (numeral 10 ['4', '1', '9', '4', '3', '0', '5']) = 1024 := by decide
  rw [hreq, allocVar, show ({ start with linenum := 1 } : Front).heap = buddyInit from rfl, hb]
  refine ⟨_, _, rfl, ?_⟩
  rintro ⟨addr, hmem, hsize⟩
  rw [setVar_varMap, if_pos rfl, VarT.mk.injEq, Option.some.injEq] at hmem
  -- the block has 4096 bytes
  rw [← hmem.1] at hsize
  change SizeUnit.bytes .K 4194305 ≤ (2 : ℤ) ^ (heap.gPages 0).order at hsize
  rw [hp] at hsize
  exact absurd hsize (by decide)

/-- The command `a = alloc(44K)` leaves `a` with at least 45056 bytes. -/
theorem large_enough_iff_sample : ∃ events s',
    parseCommand some ['a', ' ', '=', ' ', 'a', 'l', 'l', 'o', 'c', '(', '4', '4', 'K', ')', '\n', '\x00']
      120 { start with linenum := 1 } = (events, .ok (.success, s')) ∧ Holds s' 'a' 45056 := by
  have h : AllocCommand ['a', ' ', '=', ' ', 'a', 'l', 'l', 'o', 'c', '(', '4', '4', 'K', ')', '\n', '\x00']
      120 'a' ['4', '4'] .K :=
    ⟨by decide, by decide, List.all_eq_true.mp (by decide), by decide, by decide⟩
  obtain ⟨events, s', he⟩ : ∃ events s', parseCommand some ['a', ' ', '=', ' ', 'a', 'l', 'l', 'o', 'c', '(',
    '4', '4', 'K', ')', '\n', '\x00'] 120 { start with linenum := 1 } =
      (events, .ok (.success, s')) := ⟨_, _, rfl⟩
  exact ⟨events, s', he, (large_enough_iff (fun _ _ _ => rfl) ⟨[], start, rfl, rfl⟩ h (by decide)
    (by decide)).mpr (Or.inl (by decide)) events s' he⟩

end Eecs678.Buddy.Sizes
