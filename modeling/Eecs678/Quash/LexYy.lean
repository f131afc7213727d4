import Eecs678.Quash.Lexer

/-!
# The generated scanner

`project1/quash/src/parsing/lex.yy.c`: its tables, and `yylex` as a machine whose `step` goes from one
label to the next. The buffer is the list of its `yy_n_chars` bytes, after which the two `NUL`s of
`YY_END_OF_BUFFER_CHAR` stand; a position in it is a number. `yyin` is what has still to be read. What
`yy_hold_char` saves is never overwritten here, and the line count, the text of the last rule's message
and buffers of `2 ^ 30` bytes or more are left out.
-/

namespace Eecs678.Quash.LexYy

open Eecs678.Lib.Scanf (cString)
open Eecs678.Quash.Commands Eecs678.Quash.Lexer

/-! ### Tables -/

/-- `yy_accept`. -/
def yyAcceptTable : List ℕ :=
  [0, 0, 0, 23, 17, 20, 13, 19, 18, 2, 21, 15, 4, 3, 5, 16, 21, 16, 16, 16, 16, 16, 16, 1, 17, 18,
    0, 0, 20, 19, 0, 0, 15, 6, 16, 9, 16, 16, 16, 16, 16, 16, 16, 16, 16, 16, 16, 10, 16, 7, 14, 16,
    11, 12, 16, 8, 0]

/-- `yy_ec`. -/
def yyEcTable : List ℕ :=
  [0, 1, 1, 1, 1, 1, 1, 1, 1, 2, 3, 1, 1, 2, 1, 1, 1, 1, 1, 1, 1, 1, 1, 1, 1, 1, 1, 1, 1, 1, 1, 1,
    2, 1, 1, 4, 5, 1, 6, 7, 1, 1, 1, 1, 1, 1, 1, 1, 8, 8, 8, 8, 8, 8, 8, 8, 8, 8, 1, 1, 9, 10, 11,
    1, 1, 12, 12, 12, 12, 12, 12, 12, 12, 12, 12, 12, 12, 12, 12, 12, 12, 12, 12, 12, 12, 12, 12,
    12, 12, 12, 12, 1, 13, 1, 1, 12, 1, 12, 14, 15, 16, 17, 12, 12, 18, 19, 20, 21, 22, 12, 12, 23,
    24, 25, 26, 27, 28, 29, 12, 30, 31, 12, 12, 1, 32, 1, 1, 1, 1, 1, 1, 1, 1, 1, 1, 1, 1, 1, 1, 1,
    1, 1, 1, 1, 1, 1, 1, 1, 1, 1, 1, 1, 1, 1, 1, 1, 1, 1, 1, 1, 1, 1, 1, 1, 1, 1, 1, 1, 1, 1, 1, 1,
    1, 1, 1, 1, 1, 1, 1, 1, 1, 1, 1, 1, 1, 1, 1, 1, 1, 1, 1, 1, 1, 1, 1, 1, 1, 1, 1, 1, 1, 1, 1, 1,
    1, 1, 1, 1, 1, 1, 1, 1, 1, 1, 1, 1, 1, 1, 1, 1, 1, 1, 1, 1, 1, 1, 1, 1, 1, 1, 1, 1, 1, 1, 1, 1,
    1, 1, 1, 1, 1, 1, 1, 1, 1, 1, 1, 1, 1, 1, 1, 1, 1, 1, 1, 1]

/-- `yy_meta`. -/
def yyMetaTable : List ℕ :=
  [0, 1, 2, 3, 2, 1, 2, 1, 1, 2, 2, 2, 1, 1, 1, 1, 1, 1, 1, 1, 1, 1, 1, 1, 1, 1, 1, 1, 1, 1, 1, 1,
    2]

/-- `yy_base`. -/
def yyBaseTable : List ℕ :=
  [0, 0, 0, 132, 28, 129, 133, 0, 27, 133, 29, 38, 133, 133, 119, 43, 55, 87, 22, 31, 33, 39, 44,
    133, 63, 64, 65, 0, 127, 0, 67, 0, 76, 133, 112, 111, 75, 66, 81, 80, 104, 82, 63, 47, 83, 88,
    89, 101, 91, 100, 98, 92, 97, 96, 93, 94, 133, 66, 121, 61, 123, 38]

/-- `yy_def`. -/
def yyDefTable : List ℕ :=
  [0, 56, 1, 56, 57, 56, 56, 58, 59, 56, 60, 57, 56, 56, 56, 61, 59, 61, 17, 17, 17, 17, 17, 56,
    57, 59, 60, 16, 56, 58, 60, 60, 57, 56, 17, 17, 17, 17, 17, 17, 17, 17, 17, 17, 17, 17, 17, 17,
    17, 17, 17, 17, 17, 17, 17, 17, 0, 56, 56, 56, 56, 56]

/-- `yy_nxt`. -/
def yyNxtTable : List ℕ :=
  [0, 4, 5, 6, 7, 8, 9, 10, 11, 12, 13, 14, 15, 16, 15, 17, 15, 18, 15, 15, 19, 20, 15, 15, 21, 22,
    15, 15, 15, 15, 15, 15, 23, 25, 26, 26, 25, 36, 34, 34, 27, 27, 31, 25, 24, 26, 32, 34, 25, 34,
    26, 27, 39, 37, 38, 34, 27, 25, 25, 25, 34, 25, 25, 34, 25, 25, 25, 24, 25, 40, 26, 26, 25, 41,
    25, 50, 27, 27, 31, 34, 31, 25, 34, 26, 32, 43, 49, 25, 24, 27, 44, 34, 25, 42, 26, 45, 34, 34,
    34, 34, 27, 48, 46, 35, 34, 34, 51, 34, 34, 34, 34, 53, 34, 34, 34, 52, 34, 34, 54, 50, 47, 55,
    29, 29, 30, 30, 30, 34, 34, 28, 33, 28, 56, 3, 56, 56, 56, 56, 56, 56, 56, 56, 56, 56, 56, 56,
    56, 56, 56, 56, 56, 56, 56, 56, 56, 56, 56, 56, 56, 56, 56, 56, 56, 56, 56, 56]

/-- `yy_chk`. -/
def yyChkTable : List ℕ :=
  [0, 1, 1, 1, 1, 1, 1, 1, 1, 1, 1, 1, 1, 1, 1, 1, 1, 1, 1, 1, 1, 1, 1, 1, 1, 1, 1, 1, 1, 1, 1, 1,
    1, 4, 8, 4, 10, 18, 18, 61, 8, 4, 10, 11, 15, 11, 11, 19, 15, 20, 15, 11, 20, 18, 19, 21, 15,
    16, 16, 16, 22, 16, 59, 43, 16, 16, 16, 57, 24, 21, 24, 25, 26, 22, 30, 43, 24, 25, 26, 42, 30,
    32, 37, 32, 32, 37, 42, 16, 17, 32, 37, 36, 17, 36, 17, 38, 39, 38, 41, 44, 17, 41, 39, 17, 45,
    46, 44, 48, 51, 54, 55, 46, 53, 52, 50, 45, 49, 47, 51, 48, 40, 54, 58, 58, 60, 60, 60, 35, 34,
    28, 14, 5, 3, 56, 56, 56, 56, 56, 56, 56, 56, 56, 56, 56, 56, 56, 56, 56, 56, 56, 56, 56, 56,
    56, 56, 56, 56, 56, 56, 56, 56, 56, 56, 56, 56, 56]

def yyAccept (state : ℕ) : ℕ := yyAcceptTable.getD state 0

/-- `yy_ec[YY_SC_TO_UI(b)]`. -/
def yyEc (b : UInt8) : ℕ := yyEcTable.getD b.toNat 0

def yyBase (state : ℕ) : ℕ := yyBaseTable.getD state 0

/-- The loop that looks for the entry of a state and a class: through `yy_def` as long as `yy_chk` does
not name the state, for at most `n` rounds. -/
def yyNextN : ℕ → ℕ → ℕ → ℕ
  | 0, state, c => yyNxtTable.getD (yyBase state + c) 0
  | n + 1, state, c =>
    if yyChkTable.getD (yyBase state + c) 0 = state then yyNxtTable.getD (yyBase state + c) 0
    else
      let state := yyDefTable.getD state 0
      yyNextN n state (if 57 ≤ state then yyMetaTable.getD c 0 else c)

/-- The next state; the loop never takes more rounds (`LexTables.yyNext_rounds`). -/
def yyNext (state c : ℕ) : ℕ := yyNextN 3 state c

/-- The class of a byte that is known not to end the buffer. -/
def yyClass (b : UInt8) : ℕ := if b = 0 then 1 else yyEc b

/-! ### The buffer -/

inductive BufferStatus
  | new
  | normal
  | eofPending
deriving DecidableEq, Repr

structure Scanner where
  yyChBuf : List UInt8
  yyBufSize : ℕ
  yyBufferStatus : BufferStatus
  yyIsInteractive : Bool
  yytextPtr : ℕ
  yyCBufP : ℕ
  yyLastAcceptingState : ℕ
  yyLastAcceptingCpos : ℕ
  yyin : List UInt8
deriving DecidableEq, Repr

def Scanner.yyNChars (s : Scanner) : ℕ := s.yyChBuf.length

/-- `*yy_cp`. -/
def Scanner.byte (s : Scanner) (yyCp : ℕ) : UInt8 := s.yyChBuf.getD yyCp 0

/-- The bytes from one position to another. -/
def Scanner.slice (s : Scanner) (yyBp yyCp : ℕ) : List UInt8 := (s.yyChBuf.drop yyBp).take (yyCp - yyBp)

/-- A buffer that nothing has been read into, as `yy_create_buffer` makes it. -/
def create (interactive : Bool) (yyin : List UInt8) : Scanner where
  yyChBuf := []
  yyBufSize := 16384
  yyBufferStatus := .new
  yyIsInteractive := interactive
  yytextPtr := 0
  yyCBufP := 0
  yyLastAcceptingState := 0
  yyLastAcceptingCpos := 0
  yyin := yyin

/-- `yyrestart`: the buffer is flushed. -/
def Scanner.yyrestart (s : Scanner) : Scanner :=
  { s with yyChBuf := [], yyBufferStatus := .new, yytextPtr := 0, yyCBufP := 0 }

/-- What `YY_INPUT` reads: up to the end of a line from a terminal, and as much as there is room for
from anything else. -/
def yyInput (interactive : Bool) (maxSize : ℕ) (yyin : List UInt8) : List UInt8 :=
  if interactive then yyin.take (min maxSize ((yyin.takeWhile (· ≠ 10)).length + 1)) else yyin.take maxSize

/-- The buffer is made larger until there is room behind the bytes that are kept. -/
def grow (size numberToMove : ℕ) : ℕ :=
  if 0 < size ∧ size ≤ numberToMove + 1 then grow (size * 2) numberToMove else size
termination_by numberToMove + 2 - size

inductive EobAct
  | continueScan
  | endOfFile
  | lastMatch
deriving DecidableEq, Repr

/-- `yy_get_next_buffer`. -/
def Scanner.yyGetNextBuffer (s : Scanner) : EobAct × Scanner :=
  let moved := s.slice s.yytextPtr (s.yyCBufP - 1)
  if s.yyBufferStatus = .eofPending then
    if moved = [] then (.endOfFile, s.yyrestart)
    else (.lastMatch, { s with yyChBuf := moved, yytextPtr := 0 })
  else
    let size := grow s.yyBufSize moved.length
    let read := yyInput s.yyIsInteractive (min (size - moved.length - 1) 8192) s.yyin
    let s := { s with yyin := s.yyin.drop read.length, yyBufSize := size }
    if read = [] then
      if moved = [] then (.endOfFile, s.yyrestart)
      else (.lastMatch, { s with yyChBuf := moved, yytextPtr := 0, yyBufferStatus := .eofPending })
    else
      (.continueScan, { s with
        yyChBuf := moved ++ read
        yytextPtr := 0
        yyBufSize := if read.length + moved.length > size
          then read.length + moved.length + read.length / 2 - 2 else size })

/-! ### The state of the automaton -/

/-- A state that accepts is kept for the case that the scanner has to back up. -/
def Scanner.note (s : Scanner) (state yyCp : ℕ) : Scanner :=
  if yyAccept state ≠ 0 then { s with yyLastAcceptingState := state, yyLastAcceptingCpos := yyCp } else s

/-- The loop of `yy_get_previous_state`. -/
def previousState : List UInt8 → ℕ → ℕ → Scanner → Scanner × ℕ
  | [], _, state, s => (s, state)
  | b :: l, yyCp, state, s =>
    previousState l (yyCp + 1) (yyNext state (yyClass b)) (s.note state yyCp)

/-- `yy_get_previous_state`. -/
def Scanner.yyGetPreviousState (s : Scanner) : Scanner × ℕ :=
  previousState (s.slice s.yytextPtr s.yyCBufP) s.yytextPtr 1 s

/-- `yy_try_NUL_trans`. -/
def Scanner.yyTryNulTrans (s : Scanner) (state : ℕ) : Scanner × ℕ :=
  let state' := yyNext state 1
  (s.note state s.yyCBufP, if state' = 56 then 0 else state')

/-! ### `yylex` -/

/-- The actions of the rules, under their numbers; the last one is `ECHO`. -/
def action (yyAct : ℕ) (yytext : List Char) : Option Token :=
  match yyAct with
  | 1 => some .pipe
  | 2 => some .bckgrnd
  | 3 => some .equals
  | 4 => some .redirIn
  | 5 => some .redirOut
  | 6 => some .redirOutApp
  | 7 => some .echoTok
  | 8 => some .exportTok
  | 9 => some .cdTok
  | 10 => some .pwdTok
  | 11 => some .jobsTok
  | 12 => some .killTok
  | 13 => some .eocTok
  | 14 => some (.exitTok (cString yytext))
  | 15 => some (.num (cString yytext))
  | 16 => some (.id (cString yytext))
  | 17 => some (.simStr (cString yytext))
  | 18 => some (.str (cString yytext))
  | _ => none

/-- The labels of `yylex`, with the variables that are read there. -/
inductive Control
  /-- The head of the outer loop. -/
  | scan
  | yyMatch (yyBp yyCp state : ℕ)
  | yyFindAction (yyBp yyCp state : ℕ)
  | doAction (yyBp yyCp yyAct : ℕ)
  /-- A token is returned, or `END`. -/
  | returned (token : Option Token)
  | fatal
deriving DecidableEq, Repr

/-- A byte of the input, as a character. -/
def byteChar (b : UInt8) : Char := Char.ofNat b.toNat

/-- `case YY_END_OF_BUFFER`, after the call of `yy_get_next_buffer`. -/
def refilled (amount yyCp : ℕ) : EobAct × Scanner → Scanner × Control
  | (.endOfFile, s) => ({ s with yyCBufP := s.yytextPtr }, .doAction s.yytextPtr yyCp 24)
  | (.continueScan, s) =>
    let (s, state) := { s with yyCBufP := s.yytextPtr + amount }.yyGetPreviousState
    (s, .yyMatch s.yytextPtr s.yyCBufP state)
  | (.lastMatch, s) =>
    let (s, state) := { s with yyCBufP := s.yyNChars }.yyGetPreviousState
    (s, .yyFindAction s.yytextPtr s.yyCBufP state)

/-- `case YY_END_OF_BUFFER`. -/
def endOfBuffer (s : Scanner) (yyCp : ℕ) : Scanner × Control :=
  let amount := yyCp - s.yytextPtr - 1
  let s := if s.yyBufferStatus = .new then { s with yyBufferStatus := .normal } else s
  if s.yyCBufP ≤ s.yyNChars then
    -- this was really a NUL
    let (s, state) := { s with yyCBufP := s.yytextPtr + amount }.yyGetPreviousState
    let (s, next) := s.yyTryNulTrans state
    if next ≠ 0 then ({ s with yyCBufP := s.yyCBufP + 1 }, .yyMatch s.yytextPtr (s.yyCBufP + 1) next)
    else (s, .yyFindAction s.yytextPtr s.yyCBufP state)
  else if s.yyNChars + 1 < s.yyCBufP then (s, .fatal)
  else refilled amount yyCp s.yyGetNextBuffer

/-- From one label to the next. -/
def step : Scanner × Control → Scanner × Control
  | (s, .scan) => (s, .yyMatch s.yyCBufP s.yyCBufP 1)
  | (s, .yyMatch yyBp yyCp state) =>
    let next := yyNext state (yyEc (s.byte yyCp))
    (s.note state yyCp,
      if yyBase next ≠ 133 then .yyMatch yyBp (yyCp + 1) next else .yyFindAction yyBp (yyCp + 1) next)
  | (s, .yyFindAction yyBp yyCp state) =>
    if yyAccept state = 0 then
      ({ s with yytextPtr := yyBp, yyCBufP := s.yyLastAcceptingCpos },
        .doAction yyBp s.yyLastAcceptingCpos (yyAccept s.yyLastAcceptingState))
    else ({ s with yytextPtr := yyBp, yyCBufP := yyCp }, .doAction yyBp yyCp (yyAccept state))
  | (s, .doAction yyBp yyCp yyAct) =>
    if yyAct = 0 then (s, .yyFindAction yyBp s.yyLastAcceptingCpos s.yyLastAcceptingState)
    else if yyAct ≤ 22 then
      match action yyAct ((s.slice s.yytextPtr yyCp).map byteChar) with
      | some token => (s, .returned (some token))
      | none => (s, .scan)
    else if yyAct = 23 then endOfBuffer s yyCp
    else if yyAct = 24 then (s, .returned none)
    else (s, .fatal)
  | (s, .returned token) => (s, .returned token)
  | (s, .fatal) => (s, .fatal)

/-- A call of `yylex` returns the token, or `END`. -/
def Yylex (s : Scanner) (token : Option Token) (s' : Scanner) : Prop :=
  ∃ n, step^[n] (s, .scan) = (s', .returned token)

/-- The calls of `yylex` up to the first `END`. -/
inductive Calls : Scanner → List Token → Scanner → Prop
  | eof {s s' : Scanner} (h : Yylex s none s') : Calls s [] s'
  | token {s s' s'' : Scanner} {t : Token} {ts : List Token} (h : Yylex s (some t) s')
      (hs : Calls s' ts s'') : Calls s (t :: ts) s''

end Eecs678.Quash.LexYy
