import Eecs678.Quash.Lexer

/-!
# Words

`interpret_complex_string_token` of `project1/quash/src/parsing/parsing_interface.c`: quotes, escapes
and variables of a word. `bld` is the sequence that the string builder holds. `none` is a failed
`assert`, a read past the terminating `NUL`, or a string builder that is popped or updated while it is
empty. The loops are recursions on the number of rounds they can still make.
-/

namespace Eecs678.Quash.Words

open Eecs678.Lib.Scanf (cString)
open Eecs678.Quash.Commands Eecs678.Quash.Lexer

/-- `str[i]`; the string ends with a `NUL`. -/
def charAt (str : Str) (i : ℕ) : Option Char := if i = str.length then some '\x00' else str[i]?

/-- `pop_back_MPStrBuilder`. -/
def popBack (bld : List Char) : Option (List Char) := if bld = [] then none else some bld.dropLast

/-- `update_back_MPStrBuilder`. -/
def updateBack (bld : List Char) (c : Char) : Option (List Char) :=
  if bld = [] then none else some (bld.dropLast ++ [c])

/-- The characters a backslash makes literal outside of quotes. -/
def isEscapable (c : Char) : Bool :=
  ['\\', '\'', '#', '$', '=', '&', '|', ';', '\x20', '\t'].contains c

/-- `while (__is_identifier_char((c = str[++(*idx)])))`: the identifier, and `*idx` after the loop. -/
def identifierLoop (str : Str) : ℕ → ℕ → Option (Str × ℕ)
  | 0, _ => none
  | n + 1, idx => do
    let c ← charAt str (idx + 1)
    if isIdChar c then
      let (id, last) ← identifierLoop str n (idx + 1)
      return (c :: id, last)
    else return ([], idx + 1)

/-- `__interpret_deref`: the string builder and `*idx` afterwards. -/
def interpretDeref (env : Str → Option Str) (bld : List Char) (str : Str) (idx : ℕ) :
    Option (List Char × ℕ) := do
  let c ← charAt str idx
  if c = '$' ∧ bld.getLast? = some '$' then
    let bld ← popBack bld
    let (id, last) ← identifierLoop str str.length idx
    return (bld ++ (env id).getD [], last - 1)
  else none

/-- The `switch` on `str[i] = c`, which has just been put on the string builder: the string builder,
the last index that is used up, and `in_quotes`. -/
def interpretChar (env : Str → Option Str) (str : Str) (c : Char) (i : ℕ) (inQuotes : Bool)
    (bld : List Char) : Option (List Char × ℕ × Bool) :=
  match c with
  | '\\' => do
    let next ← charAt str (i + 1)
    if !inQuotes then
      if isEscapable next then return (← updateBack bld next, i + 1, inQuotes)
      else if next = '\n' then return (← popBack bld, i + 1, inQuotes)
      else return (bld, i, inQuotes)
    else if next = '\'' then return (← updateBack bld '\'', i + 1, inQuotes)
    else return (bld, i, inQuotes)
  | '\'' => do return (← popBack bld, i, !inQuotes)
  | '$' => do
    if !inQuotes && isIdFirst (← charAt str (i + 1)) then
      let (bld, idx) ← interpretDeref env bld str i
      return (bld, idx, inQuotes)
    else return (bld, i, inQuotes)
  | _ => some (bld, i, inQuotes)

/-- The loop of `interpret_complex_string_token`. -/
def interpretLoop (env : Str → Option Str) (str : Str) :
    ℕ → ℕ → Bool → List Char → Option (List Char × Bool)
  | 0, _, _, _ => none
  | n + 1, i, inQuotes, bld =>
    if str.length < i then some (bld, inQuotes) else do
      let c ← charAt str i
      let (bld, i, inQuotes) ← interpretChar env str c i inQuotes (bld ++ [c])
      interpretLoop env str n (i + 1) inQuotes bld

/-- `interpret_complex_string_token`. -/
def interpretComplexStringToken (env : Str → Option Str) (str : Str) : Option Str := do
  let (bld, inQuotes) ← interpretLoop env str (str.length + 2) 0 false []
  let bld ← updateBack bld '\x00'
  if inQuotes then none else return cString bld

end Eecs678.Quash.Words
