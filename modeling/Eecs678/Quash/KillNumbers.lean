import Eecs678.Quash.Jobs
import Eecs678.Quash.Parser
import Mathlib.Data.List.Induction
import Mathlib.Data.Nat.Digits.Defs

/-!
# The numbers of `kill`

From the digits of a `kill` command to the signals that are sent. `strtol` gives a `long`, which is
stored in an `int` without a test, so a number from `2 ^ 31` on is taken for another one
(`kill_numbers_iff`).
-/

namespace Eecs678.Quash.KillNumbers

open Eecs678.Quash.Commands Eecs678.Quash.Execute Eecs678.Quash.Jobs Eecs678.Quash.Lexer
open Eecs678.Quash.Parser

/-- The number that a string of digits stands for. -/
def decimal (s : Str) : ℕ := Nat.ofDigits 10 (s.map fun c => c.toNat - '0'.toNat).reverse

/-- A string of digits. -/
def Digits (s : Str) : Prop := ∀ c ∈ s, isDigit c = true

/-- The signals that a `kill` with these numbers asks for. -/
def asked (sig job : ℕ) (jobs : List Job) : List Event :=
  if sig < 2 ^ 31 ∧ job < 2 ^ 31 then
    jobs.flatMap fun j => if j.jobId = (job : ℤ) then j.pids.map fun pid => .kill pid sig else []
  else []

/-! ### From digits to an `int` -/

theorem zero_le_digit {c : Char} (h : isDigit c = true) : '0'.toNat ≤ c.toNat := by
  simp only [isDigit, Bool.and_eq_true, decide_eq_true_eq] at h
  exact UInt32.le_iff_toNat_le.mp h.1

theorem decimal_append (s : Str) (c : Char) :
    decimal (s ++ [c]) = (c.toNat - '0'.toNat) + 10 * decimal s := by
  unfold decimal
  rw [List.map_append, List.map_singleton, List.reverse_append, List.reverse_singleton,
    List.singleton_append, Nat.ofDigits_cons]

/-- The number that `strtol` reads before it is saturated. -/
theorem foldl_eq_decimal (s : Str) (h : Digits s) :
    s.foldl (fun n c => 10 * n + (c.toNat - '0'.toNat : ℤ)) 0 = decimal s := by
  induction s using List.reverseRecOn with
  | nil => rfl
  | append_singleton s c ih =>
    have hc := zero_le_digit (h c (List.mem_append_right s (List.mem_singleton_self c)))
    rw [List.foldl_append, ih fun d hd => h d (List.mem_append_left _ hd), decimal_append,
      List.foldl_cons, List.foldl_nil, Nat.cast_add, Nat.cast_sub hc, Nat.cast_mul]
    exact Int.add_comm _ _

theorem strtol_eq {s : Str} (h : Digits s) : strtol s = min (decimal s : ℤ) (2 ^ 63 - 1) := by
  rw [strtol, foldl_eq_decimal s h]

/-- **A number below `2 ^ 31` stays what it is.** -/
theorem toInt_strtol {s : Str} (h : Digits s) (hs : decimal s < 2 ^ 31) :
    toInt (strtol s) = decimal s := by
  rw [strtol_eq h, min_eq_left (by omega), toInt]
  exact Int.bmod_eq_of_le (by omega) (by omega)

/-! ### The signals -/

theorem emit_inj {s : Shell} {es es' : List Event} (h : s.emit es = s.emit es') : es = es' :=
  List.append_cancel_left (congrArg Shell.log h)

theorem killed_eq_nil {sig jobId : ℤ} {jobs : List Job} : jobs.flatMap (killed sig jobId) = [] ↔
    ∀ j ∈ jobs, j.jobId = jobId → j.pids = [] := by
  rw [List.flatMap_eq_nil_iff]
  refine forall₂_congr fun j _ => ?_
  unfold killed
  split_ifs with hid
  · rw [List.map_eq_nil_iff]
    exact ⟨fun h _ => h, fun h => h hid⟩
  · exact iff_of_true rfl fun he => absurd he hid

/-- **When `kill` means the numbers that were typed.** With any jobs and any digits, `kill` sends exactly
the signals that are asked for if and only if both numbers are below `2 ^ 31`, or no job with a process has
the id that is left of the job number, saturated at `LONG_MAX`, in 32 bits. -/
theorem kill_numbers_iff {s : Shell} (h : s.dequesInitialized = true) {sig job : Str} (hsig : Digits sig)
    (hjob : Digits job) (a : Answers) (env realpath : Str → Option Str) :
    ∃ cmd, cmdContent env realpath [.killTok, .num sig, .num job] = .ok cmd [] ∧
      (parentRunCommand a cmd s = some (s.emit (asked (decimal sig) (decimal job) s.backgroundJobs)) ↔
        (decimal sig < 2 ^ 31 ∧ decimal job < 2 ^ 31) ∨
          ∀ j ∈ s.backgroundJobs, j.jobId = Int.bmod (min (decimal job) (2 ^ 63 - 1)) (2 ^ 32) →
            j.pids = []) := by
  refine ⟨mkKillCommand sig job, rfl, ?_⟩
  have hrun : parentRunCommand a (mkKillCommand sig job) s =
      some (s.emit (s.backgroundJobs.flatMap (killed (toInt (strtol sig)) (toInt (strtol job))))) :=
    runKill_eq _ _ h
  rw [hrun, Option.some_inj, asked]
  by_cases hrep : decimal sig < 2 ^ 31 ∧ decimal job < 2 ^ 31
  · rw [if_pos hrep, toInt_strtol hsig hrep.1, toInt_strtol hjob hrep.2]
    exact iff_of_true rfl (.inl hrep)
  · rw [if_neg hrep, or_iff_right hrep, ← toInt, ← strtol_eq hjob, ← killed_eq_nil]
    exact ⟨fun he => emit_inj he, fun he => congrArg s.emit he⟩

/-- Quash with the job 1 in the background. -/
def oneJob : Shell :=
  { initialShell fun _ => none with backgroundJobs := [⟨1, [7], []⟩], dequesInitialized := true }

/-- `kill 9 01`. -/
theorem kill_numbers_iff_one : ∃ cmd, cmdContent (fun _ => none) (fun _ => none)
      [.killTok, .num ['9'], .num ['0', '1']] = .ok cmd [] ∧
    parentRunCommand ⟨true, none, true, true, true, []⟩ cmd oneJob =
      some (oneJob.emit (asked (decimal ['9']) (decimal ['0', '1']) oneJob.backgroundJobs)) := by
  have hsig : Digits ['9'] := List.forall_mem_singleton.mpr rfl
  have hjob : Digits ['0', '1'] := List.forall_mem_cons.mpr ⟨rfl, List.forall_mem_singleton.mpr rfl⟩
  obtain ⟨cmd, hcmd, hiff⟩ := kill_numbers_iff (s := oneJob) rfl hsig hjob
    ⟨true, none, true, true, true, []⟩ (fun _ => none) fun _ => none
  exact ⟨cmd, hcmd, hiff.mpr (.inl (by decide))⟩

/-- `kill 9 4294967297` signals the process of the job 1. -/
theorem kill_numbers_iff_large : Digits "4294967297".toList ∧ decimal "4294967297".toList = 2 ^ 32 + 1 ∧
    ∃ s', parentRunCommand ⟨true, none, true, true, true, []⟩
        (mkKillCommand ['9'] "4294967297".toList) oneJob = some s' ∧ s'.log = [.kill 7 9] ∧
      asked (decimal ['9']) (decimal "4294967297".toList) oneJob.backgroundJobs = [] :=
  ⟨List.all_eq_true.mp rfl, by decide, _, rfl, by decide, by decide⟩

end Eecs678.Quash.KillNumbers
