import Mathlib.Algebra.Order.Ring.Int

/-!
# Commands

`project1/quash/src/command.h` and `command.c`. A C string is the list of its bytes before the
terminating `NUL`, a byte the character with its code; an array of strings or of holders that ends
with `NULL` or an `EOC` command is the list of what comes before.
-/

namespace Eecs678.Quash.Commands

/-- A C string. -/
abbrev Str : Type := List Char

inductive Command
  | generic (args : List Str)
  | echo (args : List Str)
  | export (envVar val : Str)
  | kill (sig job : ℤ) (sigStr jobStr : Str)
  | cd (dir : Option Str)
  | pwd
  | jobs
  | exit
deriving DecidableEq, Repr

/-- The bits of `CommandHolder.flags`. -/
structure Flags where
  redirectIn : Bool
  redirectOut : Bool
  redirectAppend : Bool
  pipeIn : Bool
  pipeOut : Bool
  background : Bool
deriving DecidableEq, Repr

structure CommandHolder where
  redirectIn : Option Str
  redirectOut : Option Str
  flags : Flags
  cmd : Command
deriving DecidableEq, Repr

/-- `strtol(s, NULL, 10)` of a string of digits: saturated at `LONG_MAX`. -/
def strtol (s : Str) : ℤ :=
  min (s.foldl (fun n c => 10 * n + (c.toNat - '0'.toNat : ℤ)) 0) (2 ^ 63 - 1)

/-- A `long` stored in an `int`. -/
def toInt (x : ℤ) : ℤ := Int.bmod x (2 ^ 32)

/-- `mk_kill_command`. -/
def mkKillCommand (sig job : Str) : Command := .kill (toInt (strtol sig)) (toInt (strtol job)) sig job

end Eecs678.Quash.Commands
