import Eecs678.Lib.Machine
import Eecs678.Quash.Jobs
import Eecs678.Quash.Lines

/-!
# The main loop

`main` of `project1/quash/src/quash.c`, without the prompt and the memory pool: the outer loop over
`is_running()` and the inner one, `while ((script = parse(&state)) == NULL);`. A step is one test of
`is_running()`, or one call of `parse` with the `run_script` of what it returns. The `n`-th call of
`parse` meets the `n`-th `World`.

The inner loop does not look at `is_running()`, and at the end of the input a call of `parse` that finds
no command returns `NULL`, as does each call after it. So quash stops on some inputs only: `main_loop`.
-/

namespace Eecs678.Quash.MainLoop

open Eecs678.Lib.Machine Eecs678.Quash.Commands Eecs678.Quash.Actions Eecs678.Quash.Execute
open Eecs678.Quash.Jobs Eecs678.Quash.Lexer Eecs678.Quash.Parser Eecs678.Quash.Lines

/-- What the operating system answers during one call of `parse` and of `run_script`. -/
structure World where
  kernel : Kernel
  realpath : Str → Option Str

inductive Control
  /-- Before the test of `is_running()`. -/
  | loop
  /-- Before a call of `parse`. -/
  | parsing
  /-- `main` has returned, for ever. -/
  | returned
  /-- An assertion has failed. -/
  | aborted
deriving DecidableEq, Repr

/-- The state of `main`: `parses` is how often `parse` has been called, `tokens` what `yylex` has still
to return before it returns `END` for ever. -/
structure Main where
  control : Control
  parses : ℕ
  tokens : List Token
  shell : Shell

/-- `end_main_loop`, where the parser calls it. -/
def endMainLoop (ended : Bool) (s : Shell) : Shell := if ended then { s with running := false } else s

/-- One round of the inner loop, and `run_script` when it is the last. -/
def round (w : World) (m : Main) : Main :=
  match yyparse m.shell.env w.realpath m.tokens with
  | .abort => { m with control := .aborted, parses := m.parses + 1 }
  | .done ended none rest => ⟨.parsing, m.parses + 1, rest, endMainLoop ended m.shell⟩
  | .done ended (some holders) rest =>
    match runScript w.kernel holders
      { endMainLoop ended m.shell with parsedStr := parsedStr holders } with
    | some (_, s) => ⟨.loop, m.parses + 1, rest, s⟩
    | none => { m with control := .aborted, parses := m.parses + 1 }

def step (world : ℕ → World) (m : Main) : Main :=
  match m.control with
  | .loop => { m with control := if m.shell.running then .parsing else .returned }
  | .parsing => round (world m.parses) m
  | .returned => m
  | .aborted => m

/-- `main` at its start. -/
def start (env : Str → Option Str) (input : List Char) : Main := ⟨.loop, 0, lex input, initialShell env⟩

/-- `main` returns. -/
def Returns (world : ℕ → World) (m : Main) : Prop := Eventually (step world) (·.control = .returned) m

/-- The lines from the `n`-th on, of which the last one ends with the input, stop quash: one of them is
nothing but `exit`, or the last one is a command, and no assertion fails before. -/
inductive Stops (world : ℕ → World) : ℕ → (Str → Option Str) → List (List Token) → Prop
  | exit {n : ℕ} {env : Str → Option Str} {line : List Token} {rest : List (List Token)}
      {holders : List CommandHolder} (h : verdict env (world n).realpath line = .script holders)
      (hexit : exitAlone holders = true) : Stops world n env (line :: rest)
  | last {n : ℕ} {env : Str → Option Str} {tail : List Token} {holders : List CommandHolder}
      (h : verdict env (world n).realpath tail = .script holders) : Stops world n env [tail]
  | nothing {n : ℕ} {env : Str → Option Str} {line : List Token} {rest : List (List Token)}
      (h : verdict env (world n).realpath line = .nothing) (hrest : Stops world (n + 1) env rest) :
      Stops world n env (line :: rest)
  | script {n : ℕ} {env : Str → Option Str} {line : List Token} {rest : List (List Token)}
      {holders : List CommandHolder} (h : verdict env (world n).realpath line = .script holders)
      (hrest : Stops world (n + 1) (envAfter (world n).kernel.stage 0 holders env) rest) :
      Stops world n env (line :: rest)

/-! ### One step -/

variable {world : ℕ → World} {m : Main}

theorem step_loop (h : m.control = .loop) :
    step world m = { m with control := if m.shell.running then .parsing else .returned } := by
  simp only [step, h]

theorem step_parsing (h : m.control = .parsing) : step world m = round (world m.parses) m := by
  simp only [step, h]

/-- A call of `parse` on a line without a command. -/
theorem round_nothing {w : World} {ended : Bool} {rest : List Token}
    (h : yyparse m.shell.env w.realpath m.tokens = .done ended none rest) :
    round w m = ⟨.parsing, m.parses + 1, rest, endMainLoop ended m.shell⟩ := by
  simp only [round, h]

/-- A call of `parse` on a command. -/
theorem round_script {w : World} {ended : Bool} {holders : List CommandHolder} {rest : List Token}
    (h : yyparse m.shell.env w.realpath m.tokens = .done ended (some holders) rest)
    (hrun : m.shell.running = true) :
    ∃ s, round w m = ⟨.loop, m.parses + 1, rest, s⟩ ∧ s.running = (!ended && !exitAlone holders) ∧
      (exitAlone holders = false → s.env = envAfter w.kernel.stage 0 holders m.shell.env) := by
  obtain ⟨news, s, h1, h2, h3⟩ := runScript_eq w.kernel holders
    { endMainLoop ended m.shell with parsedStr := parsedStr holders }
  refine ⟨s, by simp only [round, h, h1], ?_, fun hexit => ?_⟩
  · rw [h2]
    cases ended <;> simp [endMainLoop, hrun]
  · rw [h3 hexit]
    cases ended <;> rfl

/-! ### Runs -/

/-- After the end of the input `parse` returns `NULL` for ever. -/
theorem not_returns_end (hc : m.control = .parsing) (ht : m.tokens = []) : ¬ Returns world m := by
  refine not_eventually (fun m => m.control = .parsing ∧ m.tokens = []) ?_ ?_ ⟨hc, ht⟩
  · rintro m ⟨hc, ht⟩
    have hyy : yyparse m.shell.env (world m.parses).realpath m.tokens = .done true none [] := by
      rw [ht]
      rfl
    rw [step_parsing hc, round_nothing hyy]
    exact ⟨rfl, rfl⟩
  · rintro m ⟨hc, -⟩ hr
    rw [hc] at hr
    cases hr

theorem not_returns_aborted (hc : m.control = .aborted) : ¬ Returns world m := by
  refine not_eventually (fun m => m.control = .aborted) ?_ ?_ hc
  · intro m hc
    simp only [step, hc]
  · intro m hc hr
    rw [hc] at hr
    cases hr

theorem returns_step (h : m.control ≠ .returned) : Returns world m ↔ Returns world (step world m) :=
  eventually_step h

theorem returns_loop (h : m.control = .loop) : Returns world m ↔
    m.shell.running = false ∨ (m.shell.running = true ∧ Returns world { m with control := .parsing }) := by
  rw [returns_step (by rw [h]; decide), step_loop h]
  cases m.shell.running with
  | false => exact iff_of_true (eventually_now rfl) (.inl rfl)
  | true => simp only [if_true, Bool.true_eq_false, true_and, false_or]

/-! ### The condition -/

variable {n : ℕ} {env : Str → Option Str} {line : List Token} {rest : List (List Token)}

theorem not_stops_nil : ¬ Stops world n env [] := by
  intro h
  cases h

theorem not_stops_abort (hv : verdict env (world n).realpath line = .abort) :
    ¬ Stops world n env (line :: rest) := by
  intro h
  cases h with
  | exit h hexit => cases hv.symm.trans h
  | last h => cases hv.symm.trans h
  | nothing h hrest => cases hv.symm.trans h
  | script h hrest => cases hv.symm.trans h

theorem stops_nothing (hv : verdict env (world n).realpath line = .nothing) :
    Stops world n env (line :: rest) ↔ Stops world (n + 1) env rest := by
  refine ⟨fun h => ?_, fun h => .nothing hv h⟩
  cases h with
  | exit h hexit => cases hv.symm.trans h
  | last h => cases hv.symm.trans h
  | nothing h hrest => exact hrest
  | script h hrest => cases hv.symm.trans h

theorem stops_script {holders : List CommandHolder}
    (hv : verdict env (world n).realpath line = .script holders) :
    Stops world n env (line :: rest) ↔ exitAlone holders = true ∨ rest = [] ∨
      Stops world (n + 1) (envAfter (world n).kernel.stage 0 holders env) rest := by
  constructor
  · intro h
    cases h with
    | exit h hexit =>
      cases hv.symm.trans h
      exact .inl hexit
    | last h => exact .inr (.inl rfl)
    | nothing h hrest => cases hv.symm.trans h
    | script h hrest =>
      cases hv.symm.trans h
      exact .inr (.inr hrest)
  · rintro (hexit | rfl | hrest)
    · exact .exit hv hexit
    · exact .last hv
    · exact .script hv hrest

theorem yyparse_texts {realpath : Str → Option Str} (hlines : ∀ text ∈ line :: rest, .eocTok ∉ text) :
    yyparse env realpath (joinTexts (line :: rest)) =
      parsed rest.isEmpty (joinTexts rest) (verdict env realpath line) := by
  cases rest with
  | nil => exact yyparse_tail (hlines line (List.mem_cons_self ..))
  | cons text rest => exact yyparse_line (hlines line (List.mem_cons_self ..)) _

/-- **The run over the lines**, from a call of `parse` on. -/
theorem returns_iff : ∀ (line : List Token) (rest : List (List Token)) {m : Main},
    (∀ text ∈ line :: rest, .eocTok ∉ text) → m.control = .parsing → m.shell.running = true →
    m.tokens = joinTexts (line :: rest) →
    (Returns world m ↔ Stops world m.parses m.shell.env (line :: rest))
  | line, rest, m, hlines, hc, hrun, htokens => by
    have hyy : yyparse m.shell.env (world m.parses).realpath m.tokens =
        parsed rest.isEmpty (joinTexts rest) (verdict m.shell.env (world m.parses).realpath line) := by
      rw [htokens]
      exact yyparse_texts hlines
    have hstep : Returns world m ↔ Returns world (round (world m.parses) m) := by
      rw [returns_step (by rw [hc]; decide), step_parsing hc]
    rw [hstep]
    cases hv : verdict m.shell.env (world m.parses).realpath line with
    | abort =>
      rw [hv] at hyy
      refine iff_of_false (not_returns_aborted ?_) (not_stops_abort hv)
      simp only [round, hyy, parsed]
    | nothing =>
      rw [hv] at hyy
      rw [round_nothing hyy, stops_nothing hv]
      cases rest with
      | nil => exact iff_of_false (not_returns_end rfl rfl) not_stops_nil
      | cons text rest =>
        exact returns_iff text rest (fun t ht => hlines t (List.mem_cons_of_mem _ ht)) rfl hrun rfl
    | script holders =>
      rw [hv] at hyy
      obtain ⟨s, hround, hrunning, henv⟩ := round_script hyy hrun
      rw [hround, stops_script hv, returns_loop rfl]
      simp only [hrunning]
      cases hexit : exitAlone holders with
      | true => exact iff_of_true (.inl (Bool.and_false _)) (.inl rfl)
      | false =>
        cases rest with
        | nil => exact iff_of_true (.inl rfl) (.inr (.inl rfl))
        | cons text rest =>
          rw [hexit] at hrunning
          have ih := returns_iff text rest
            (m := ⟨.parsing, m.parses + 1, joinTexts (text :: rest), s⟩)
            (fun t ht => hlines t (List.mem_cons_of_mem _ ht)) rfl hrunning rfl
          simp only [henv hexit] at ih
          simp only [List.isEmpty_cons, Bool.not_false, Bool.and_true, Bool.true_eq_false,
            Bool.false_eq_true, reduceCtorEq, true_and, false_or]
          exact ih

/-- The run of `main` from the outer loop, on any tokens. -/
theorem returns_tokens (world : ℕ → World) (parses : ℕ) (tokens : List Token) {s : Shell}
    (h : s.running = true) :
    Returns world ⟨.loop, parses, tokens, s⟩ ↔ Stops world parses s.env (texts tokens) := by
  obtain ⟨line, rest, htexts⟩ := List.exists_cons_of_ne_nil (texts_ne_nil tokens)
  have hjoin := joinTexts_texts tokens
  have hlines := eocTok_not_mem_texts tokens
  rw [htexts] at hjoin hlines ⊢
  have hrun : Returns world ⟨.parsing, parses, tokens, s⟩ ↔ Stops world parses s.env (line :: rest) :=
    returns_iff line rest hlines rfl h hjoin.symm
  rw [returns_loop rfl]
  refine Iff.trans ⟨?_, fun hr => .inr ⟨h, hr⟩⟩ hrun
  rintro (hc | ⟨-, hr⟩)
  · rw [h] at hc
    cases hc
  · exact hr

/-- **When quash stops.** `main` returns exactly when one line is nothing but `exit`, or what stands
after the last newline is a command, and no assertion fails before. -/
theorem main_loop (world : ℕ → World) (env : Str → Option Str) (input : List Char) :
    Returns world (start env input) ↔ Stops world 0 env (texts (lex input)) :=
  returns_tokens world 0 (lex input) rfl

/-- A world where everything succeeds. -/
def easyWorld : World where
  kernel := { poll := fun _ => 0, stage := fun _ => ⟨true, some 7, true, true, true, "/".toList⟩ }
  realpath := some

/-- One command and a newline. -/
def echoHi : List Char := "echo hi\n".toList

/-- On `echo hi` and a newline quash never stops. -/
theorem main_loop_echo : ¬ Returns (fun _ => easyWorld) (start (fun _ => none) echoHi) := by
  have htexts : texts (lex echoHi) = [[.echoTok, .id "hi".toList], []] := by decide
  have hverdict : verdict (fun _ => none) easyWorld.realpath [.echoTok, .id "hi".toList] =
      .script [cmdTop (.echo ["hi".toList]) noRedirect false] := rfl
  have hend : ∀ env : Str → Option Str, verdict env easyWorld.realpath [] = .nothing := fun _ => rfl
  unfold start
  rw [returns_tokens _ _ _ rfl, htexts, stops_script hverdict, stops_nothing (hend _)]
  rintro (h | h | h)
  · cases h
  · cases h
  · exact not_stops_nil h

end Eecs678.Quash.MainLoop
