import Eecs678.Quash.Commands

/-!
# The actions of the grammar

What the rules of `project1/quash/src/parsing/parse.y` build from a command, its redirections and its
`&`, and from the stages of a pipeline. `delivered_cmds` says which flags the stages of a pipeline
have in the end.
-/

namespace Eecs678.Quash.Actions

open Eecs678.Quash.Commands

/-- `Redirect`. -/
structure Redirect where
  input : Option Str
  out : Option Str
  append : Bool
deriving DecidableEq, Repr

/-- `redir_mark`. -/
inductive RedirMark
  | input
  | out
  | append
deriving DecidableEq, Repr

/-- `redir:` without redirections. -/
def noRedirect : Redirect := ⟨none, none, false⟩

/-- `redir_inner: redir_mark string`. -/
def lastRedirect (mark : RedirMark) (file : Str) : Redirect :=
  match mark with
  | .input => ⟨some file, none, false⟩
  | .out => ⟨none, some file, false⟩
  | .append => ⟨none, some file, true⟩

/-- `redir_inner: redir_mark string redir_inner`. -/
def addRedirect (mark : RedirMark) (file : Str) (rest : Redirect) : Redirect :=
  match mark with
  | .input => { rest with input := some file }
  | .out => { rest with out := some file, append := false }
  | .append => { rest with out := some file, append := true }

/-- `cmd_top: cmd_content redir cmd_bg`. -/
def cmdTop (content : Command) (redir : Redirect) (bg : Bool) : CommandHolder where
  redirectIn := redir.input
  redirectOut := redir.out
  flags :=
    { redirectIn := redir.input.isSome, redirectOut := redir.out.isSome, redirectAppend := redir.append,
      pipeIn := false, pipeOut := false, background := bg }
  cmd := content

/-- The stage before a `PIPE`, when the stage after it is `prev`. -/
def pipeFrom (holder prev : CommandHolder) : CommandHolder :=
  { holder with flags := { holder.flags with
      redirectAppend := false, redirectOut := false, pipeOut := true,
      background := holder.flags.background || prev.flags.background } }

/-- The stage after a `PIPE`. -/
def pipeTo (prev : CommandHolder) : CommandHolder :=
  { prev with flags := { prev.flags with redirectIn := false, pipeIn := true } }

/-- `cmds: cmd_top PIPE cmds`. -/
def cmdsPipe (holder : CommandHolder) : List CommandHolder → List CommandHolder
  | [] => []
  | prev :: rest => pipeFrom holder prev :: pipeTo prev :: rest

/-- `cmds` of the stages of a pipeline. -/
def cmds (holder : CommandHolder) : List CommandHolder → List CommandHolder
  | [] => [holder]
  | next :: rest => cmdsPipe holder (cmds next rest)

/-! ### The flags of a pipeline -/

/-- A stage as `cmd_top` makes it, without pipes. -/
def Plain (holder : CommandHolder) : Prop := holder.flags.pipeIn = false ∧ holder.flags.pipeOut = false

theorem plain_cmdTop (content : Command) (redir : Redirect) (bg : Bool) :
    Plain (cmdTop content redir bg) := ⟨rfl, rfl⟩

/-- The flags of the stage number `k` in a pipeline of `n`. -/
structure FlagsAt (n k : ℕ) (flags : Flags) : Prop where
  pipeIn : flags.pipeIn = true ↔ 0 < k
  pipeOut : flags.pipeOut = true ↔ k + 1 < n
  redirectIn : flags.redirectIn = true → k = 0
  redirectOut : flags.redirectOut = true → k + 1 = n

/-- Pipes between the stages, redirections at the ends only. -/
def Delivered (holders : List CommandHolder) : Prop :=
  ∀ k holder, holders[k]? = some holder → FlagsAt holders.length k holder.flags

theorem delivered_one {holder : CommandHolder} (h : Plain holder) : Delivered [holder] := by
  rintro (_ | k) x hx
  · cases hx
    refine ⟨?_, ?_, fun _ => rfl, fun _ => rfl⟩
    · simp only [h.1, Bool.false_eq_true, lt_irrefl]
    · simp only [h.2, Bool.false_eq_true, List.length_singleton, lt_irrefl]
  · simp only [List.getElem?_cons_succ, List.getElem?_nil, reduceCtorEq] at hx

/-- One more stage in front. -/
theorem delivered_cmdsPipe {holder prev : CommandHolder} {rest : List CommandHolder}
    (h : Plain holder) (hrest : Delivered (prev :: rest)) :
    Delivered (cmdsPipe holder (prev :: rest)) := by
  unfold cmdsPipe
  rintro (_ | _ | k) x hx
  · cases hx
    refine ⟨?_, ?_, fun _ => rfl, fun hout => ?_⟩
    · simp only [pipeFrom, h.1, Bool.false_eq_true, lt_irrefl]
    · simp only [pipeFrom, List.length_cons, true_iff]
      omega
    · simp only [pipeFrom, Bool.false_eq_true] at hout
  · cases hx
    have hprev := hrest 0 prev rfl
    refine ⟨?_, ?_, fun hin => ?_, fun hout => ?_⟩
    · simp only [pipeTo, Nat.lt_add_one]
    · rw [show (pipeTo prev).flags.pipeOut = prev.flags.pipeOut from rfl, hprev.pipeOut]
      simp only [List.length_cons]
      omega
    · simp only [pipeTo, Bool.false_eq_true] at hin
    · have := hprev.redirectOut hout
      simp only [List.length_cons] at this ⊢
      omega
  · have hx' := hrest (k + 1) x hx
    refine ⟨?_, ?_, fun hin => ?_, fun hout => ?_⟩
    · rw [hx'.pipeIn]
      omega
    · rw [hx'.pipeOut]
      simp only [List.length_cons]
      omega
    · have := hx'.redirectIn hin
      omega
    · have := hx'.redirectOut hout
      simp only [List.length_cons] at this ⊢
      omega

/-- **What the grammar delivers**, whatever the stages were written with. -/
theorem delivered_cmds : ∀ {holder : CommandHolder} {rest : List CommandHolder}, Plain holder →
    (∀ x ∈ rest, Plain x) → Delivered (cmds holder rest)
  | holder, [], h, _ => delivered_one h
  | holder, next :: rest, h, hrest => by
    have ih := delivered_cmds (hrest next List.mem_cons_self)
      fun x hx => hrest x (List.mem_cons_of_mem _ hx)
    unfold cmds
    cases hc : cmds next rest with
    | nil =>
      rintro k x hx
      simp only [cmdsPipe, List.getElem?_nil, reduceCtorEq] at hx
    | cons prev tail => exact delivered_cmdsPipe h (hc ▸ ih)

theorem cmds_length : ∀ (holder : CommandHolder) (rest : List CommandHolder),
    (cmds holder rest).length = rest.length + 1
  | holder, [] => rfl
  | holder, next :: rest => by
    have ih := cmds_length next rest
    unfold cmds
    cases hc : cmds next rest with
    | nil =>
      rw [hc] at ih
      cases ih
    | cons prev tail =>
      rw [hc] at ih
      simp only [cmdsPipe, List.length_cons] at ih ⊢
      omega

end Eecs678.Quash.Actions
