import Eecs678.Buddy.Model
import Eecs678.Lib.Scanf

/-!
# The front end of the allocator

`project2/buddy/simulator.c`. A byte is a `Char`. What a run does to the outside is a list of `Event`s:
the calls of the allocator, what `buddy_dump` prints and the fault messages.

`getline` leaves in its buffer the line, a `NUL` and what was there before: the input is the list of the
lines, each with that residue. A numeral that `%d` reads is stored through `convert`, which says what an
`int` gets, or that `errno` is set.
-/

namespace Eecs678.Buddy.FrontEnd

open Eecs678.Lib.Scanf (cString isSpace isDigit numeral scanSign scanNumeral)
open Eecs678.Buddy.Model

/-- `status_t`. -/
inductive Status
  | success
  | outOfMemory
  | doubleFree
  | badInput
deriving DecidableEq, Repr

/-- `severity_t`. -/
inductive Severity
  | error
  | warning
deriving DecidableEq, Repr

/-- `var_t`. -/
structure VarT where
  mem : Option ℕ
  inUse : Bool
deriving DecidableEq, Repr

/-- The globals of `simulator.c`, and the allocator. -/
structure Front where
  heap : Allocator
  varMap : Char → VarT
  linenum : ℕ

/-- What the outside sees. A call of `buddy_alloc` is listed with what it returned. -/
inductive Event
  | alloc (size : ℤ) (mem : Option ℕ)
  | free (mem : Option ℕ)
  | dump (counts : List (ℕ × ℕ))
  | fault (linenum : ℕ) (cmd : List Char) (msg : String) (sev : Severity)
  | print (text : String)
deriving DecidableEq, Repr

/-- What a function did, and its result; no result when the allocator has none. -/
abbrev Outcome := List Event × Except Fault (Status × Front)

/-! ### Library functions -/

/-- `%c`. -/
def scanChar : List Char → Option (Char × List Char)
  | [] => none
  | c :: str => some (c, str)

/-- Characters of the format that stand for themselves. -/
def scanText : List Char → List Char → Option (List Char)
  | [], str => some str
  | _ :: _, [] => none
  | c :: text, d :: str => if c = d then scanText text str else none

/-- `%d`. -/
def scanInt (str : List Char) : Option (ℤ × List Char) :=
  (scanNumeral 10 str).map fun x => (x.1 * x.2.1, x.2.2)

/-- `sscanf(cmd, "%c=alloc(%d%c)", ..)`, if it reads all three. -/
def scanAlloc (cmd : List Char) : Option (Char × ℤ × Char) := do
  let (varName, str) ← scanChar cmd
  let str ← scanText ['=', 'a', 'l', 'l', 'o', 'c', '('] str
  let (size, str) ← scanInt str
  let (alterSize, _) ← scanChar str
  return (varName, size, alterSize)

/-- `sscanf(cmd, "free(%c)", ..)`, if it reads the character. -/
def scanFree (cmd : List Char) : Option Char := do
  let str ← scanText ['f', 'r', 'e', 'e', '('] cmd
  let (varName, _) ← scanChar str
  return varName

/-! ### The functions -/

/-- `get_var`: the index into `var_map`. -/
def getVar (var : Char) : Option Char :=
  if ('a' ≤ var ∧ var ≤ 'z') ∨ ('A' ≤ var ∧ var ≤ 'Z') then some var else none

/-- `parse_error`. -/
def parseError (cmd : List Char) (s : Front) : Outcome :=
  ([.fault s.linenum cmd "Failed to parse command" .error], .ok (.badInput, s))

/-- The `switch` on `alter_size`. -/
def alter (alterSize : Char) (size : ℤ) : Option ℤ :=
  if alterSize = 'k' ∨ alterSize = 'K' then some (Int.bmod (size * 1024) (2 ^ 32))
  else if alterSize = ')' then some size
  else none

def setVar (v : Char) (var : VarT) (s : Front) : Front :=
  { s with varMap := Function.update s.varMap v var }

/-- The end of `parse_alloc`, once the variable and the size are known. -/
def allocVar (cmd : List Char) (v : Char) (size : ℤ) (s : Front) : Outcome :=
  match buddyAlloc size s.heap with
  | .error e => ([], .error e)
  | .ok (none, heap) =>
    ([.alloc size none, .fault s.linenum cmd "buddy_alloc returned NULL" .warning,
      .print "Out of memory\n"],
      .ok (.outOfMemory, setVar v { s.varMap v with mem := none } { s with heap := heap }))
  | .ok (some addr, heap) =>
    ([.alloc size (some addr)], .ok (.success, setVar v ⟨some addr, true⟩ { s with heap := heap }))

/-- What `parse_alloc` and the scaling of the size read off a command. -/
def allocRequest (convert : ℤ → Option ℤ) (cmd : List Char) : Option (Char × ℤ) := do
  let (varName, n, alterSize) ← scanAlloc cmd
  let size ← convert n
  let size ← alter alterSize size
  let v ← getVar varName
  return (v, size)

/-- `parse_alloc`. -/
def parseAlloc (convert : ℤ → Option ℤ) (cmd : List Char) (s : Front) : Outcome :=
  match allocRequest convert cmd with
  | none => parseError cmd s
  | some (v, size) => allocVar cmd v size s

/-- The end of `parse_free`; `buddy_free` has no result for `NULL`. -/
def freeVar (v : Char) (s : Front) : Outcome :=
  match (s.varMap v).mem with
  | none => ([.free none], .error .page)
  | some addr =>
    match buddyFree addr s.heap with
    | .error e => ([.free (some addr)], .error e)
    | .ok heap => ([.free (some addr)], .ok (.success, setVar v ⟨none, false⟩ { s with heap := heap }))

/-- `parse_free`. -/
def parseFree (cmd : List Char) (s : Front) : Outcome :=
  match scanFree cmd >>= getVar with
  | none => parseError cmd s
  | some v =>
    if !(s.varMap v).inUse then
      ([.fault s.linenum cmd "Double free" .error], .ok (.doubleFree, s))
    else freeVar v s

/-- The blanks that `parse_command` removes. -/
def isBlank (c : Char) : Bool := [' ', '\n', '\r', '\t'].contains c

/-- The buffer after the loop of `parse_command`: the first `cmd_len` bytes that are no blanks move to
the front. -/
def squeeze (cmd : List Char) (cmdLen : ℤ) : List Char :=
  let kept := (cmd.take cmdLen.toNat).filter fun c => !isBlank c
  kept ++ cmd.drop kept.length

/-- `parse_command` after the blanks are removed. -/
def parseSqueezed (convert : ℤ → Option ℤ) (cmd : List Char) (s : Front) : Outcome :=
  if ['a', 'l', 'l', 'o', 'c'] <:+: cmd then parseAlloc convert cmd s
  else if ['f', 'r', 'e', 'e'] <:+: cmd then parseFree cmd s
  else parseError cmd s

/-- The blocks are printed after a command that went well. -/
def withDump : Outcome → Outcome
  | (events, .ok (.success, s)) => (events ++ [.dump (buddyDump s.heap)], .ok (.success, s))
  | r => r

/-- `parse_command`. -/
def parseCommand (convert : ℤ → Option ℤ) (cmd : List Char) (cmdLen : ℤ) (s : Front) : Outcome :=
  if cmd.head? = some '\x00' ∨ cmd.head? = some '\n' ∨ cmd.head? = some '\r' then ([], .ok (.success, s))
  else withDump (parseSqueezed convert (cString (squeeze cmd cmdLen)) s)

/-- `parse_file`: the lines that `getline` reads, with what the rest of its buffer holds. The length of
the buffer is passed as an `int`. -/
def parseFile (convert : ℤ → Option ℤ) : List (List Char × List Char) → Front → Outcome
  | [], s => ([], .ok (.success, s))
  | (text, residue) :: lines, s =>
    if text = [] then ([], .ok (.success, s))
    else
      let buf := text ++ '\x00' :: residue
      match parseCommand convert buf (Int.bmod buf.length (2 ^ 32)) { s with linenum := s.linenum + 1 } with
      | (events, .ok (.success, s)) =>
        (events ++ (parseFile convert lines s).1, (parseFile convert lines s).2)
      | r => r

/-- The state in which `main` calls `parse_file`. -/
def start : Front where
  heap := buddyInit
  varMap := fun _ => ⟨none, false⟩
  linenum := 0

end Eecs678.Buddy.FrontEnd
