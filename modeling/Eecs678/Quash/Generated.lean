import Eecs678.Quash.LexRefines
import Eecs678.Quash.MainLoop
import Eecs678.Quash.ParseRefines

/-!
# The shell with its generated scanner and parser

The main loop of `quash.c` over `lex.yy.c` and `parse.tab.c`. `yylex` does not see what the parser does,
so the tokens that the parser has still to ask for are those of the calls of `yylex` on the input. On an
input whose lines fit into the stacks of the parser, the run is the one of `MainLoop.step`
(`generated_main`), which reads the rules of `parse.l` and `parse.y`.
-/

namespace Eecs678.Quash.Generated

open Eecs678.Lib.TableParser Eecs678.Quash.Commands Eecs678.Quash.Execute Eecs678.Quash.Lexer
open Eecs678.Quash.LexYy Eecs678.Quash.Lines Eecs678.Quash.MainLoop Eecs678.Quash.Parser

/-- `parse` with the generated parser, and `run_script` of what it returns. -/
inductive Round (w : World) (m : Main) : Main → Prop
  | crashed (h : ParseTab.Yyparse m.shell.env w.realpath m.tokens .crashed) :
      Round w m { m with control := .aborted, parses := m.parses + 1 }
  | nothing {accepted ended : Bool} {rest : List Token}
      (h : ParseTab.Yyparse m.shell.env w.realpath m.tokens (.returned accepted (some (ended, none)) rest)) :
      Round w m ⟨.parsing, m.parses + 1, rest, endMainLoop ended m.shell⟩
  | script {accepted ended : Bool} {holders : List CommandHolder} {rest : List Token} {news : List (Option Child)}
      {s : Shell}
      (h : ParseTab.Yyparse m.shell.env w.realpath m.tokens
        (.returned accepted (some (ended, some holders)) rest))
      (hrun : runScript w.kernel holders
        { endMainLoop ended m.shell with parsedStr := parsedStr holders } = some (news, s)) :
      Round w m ⟨.loop, m.parses + 1, rest, s⟩
  | failed {accepted ended : Bool} {holders : List CommandHolder} {rest : List Token}
      (h : ParseTab.Yyparse m.shell.env w.realpath m.tokens
        (.returned accepted (some (ended, some holders)) rest))
      (hrun : runScript w.kernel holders
        { endMainLoop ended m.shell with parsedStr := parsedStr holders } = none) :
      Round w m { m with control := .aborted, parses := m.parses + 1 }

/-- One step of `main`, until it has returned or an assertion has failed. -/
inductive Step (world : ℕ → World) (m : Main) : Main → Prop
  | loop (h : m.control = .loop) :
      Step world m { m with control := if m.shell.running then .parsing else .returned }
  | round {m' : Main} (h : m.control = .parsing) (hround : Round (world m.parses) m m') : Step world m m'

/-! ### The lines -/

/-- Between two newlines there are at most 9996 tokens. -/
def Short (ts : List Token) : Prop := ∀ line, line <:+: ts → .eocTok ∉ line → line.length + 3 < 10000

theorem Short.suffix {ts rest : List Token} (h : Short ts) (hrest : rest <:+ ts) : Short rest :=
  fun line hline hno => h line (hline.trans hrest.isInfix) hno

theorem Short.room {ts : List Token} (h : Short ts) : (ts.takeWhile (· ≠ .eocTok)).length + 3 < 10000 := by
  refine h _ (List.takeWhile_prefix _).isInfix fun hmem => ?_
  simpa using List.mem_takeWhile_imp hmem

/-- A parse leaves the end of what it was given. -/
theorem yyparse_suffix {env realpath : Str → Option Str} {ts rest : List Token} {ended : Bool}
    {script : Option (List CommandHolder)} (h : yyparse env realpath ts = .done ended script rest) :
    rest <:+ ts := by
  obtain ⟨line, more, htexts⟩ := List.exists_cons_of_ne_nil (texts_ne_nil ts)
  have hyy : yyparse env realpath (joinTexts (line :: more)) =
      parsed more.isEmpty (joinTexts more) (verdict env realpath line) :=
    yyparse_texts fun text ht => eocTok_not_mem_texts ts text (htexts ▸ ht)
  have hjoin := joinTexts_texts ts
  rw [htexts] at hjoin
  have hrest : rest = joinTexts more := by
    rw [hjoin, h] at hyy
    cases hv : verdict env realpath line with
    | nothing =>
      rw [hv] at hyy
      exact (Parsed.done.inj hyy).2.2
    | script holders =>
      rw [hv] at hyy
      exact (Parsed.done.inj hyy).2.2
    | abort =>
      rw [hv] at hyy
      cases hyy
  rw [hrest, ← hjoin]
  cases more with
  | nil => exact List.nil_suffix
  | cons text more => exact ⟨line ++ [.eocTok], by rw [joinTexts, List.append_assoc]; rfl⟩

/-! ### One step -/

variable {w : World} {world : ℕ → World} {m m' : Main}

/-- **A round of the inner loop** with the generated parser. -/
theorem round_iff (hshort : Short m.tokens) : Round w m m' ↔ m' = MainLoop.round w m := by
  obtain ⟨s, hs, hends⟩ : ∃ s, ParseTab.Yyparse m.shell.env w.realpath m.tokens s ∧
      ParseRefines.Ends (yyparse m.shell.env w.realpath m.tokens) s := ParseRefines.exists_ends hshort.room
  have huniq : ∀ {s'}, ParseTab.Yyparse m.shell.env w.realpath m.tokens s' → s' = s :=
    fun hs' => ParseRefines.yyparse_unique hs' hs
  unfold MainLoop.round
  cases hyy : yyparse m.shell.env w.realpath m.tokens with
  | abort =>
    rw [hyy] at hends
    obtain rfl : s = .crashed := hends
    constructor
    · intro h
      cases h with
      | crashed _ => rfl
      | nothing h => cases huniq h
      | script h _ => cases huniq h
      | failed h _ => cases huniq h
    · rintro rfl
      exact .crashed hs
  | done ended script rest =>
    rw [hyy] at hends
    obtain ⟨accepted, rfl⟩ := hends
    cases script with
    | none =>
      constructor
      · intro h
        cases h with
        | crashed h => cases huniq h
        | nothing h =>
          cases huniq h
          rfl
        | script h _ => cases huniq h
        | failed h _ => cases huniq h
      · rintro rfl
        exact .nothing hs
    | some holders =>
      constructor
      · intro h
        cases h with
        | crashed h => cases huniq h
        | nothing h => cases huniq h
        | script h hrun =>
          cases huniq h
          simp only [hrun]
        | failed h hrun =>
          cases huniq h
          simp only [hrun]
      · rintro rfl
        simp only
        cases hrun : runScript w.kernel holders
            { endMainLoop ended m.shell with parsedStr := parsedStr holders } with
        | none => exact .failed hs hrun
        | some news => exact .script hs hrun

theorem short_round (hshort : Short m.tokens) : Short (MainLoop.round w m).tokens := by
  unfold MainLoop.round
  split
  · exact hshort
  · next h => exact hshort.suffix (yyparse_suffix h)
  · next h =>
    split
    · exact hshort.suffix (yyparse_suffix h)
    · exact hshort

theorem step_iff (hshort : Short m.tokens) (hc : m.control = .loop ∨ m.control = .parsing) :
    Step world m m' ↔ m' = MainLoop.step world m := by
  rcases hc with hc | hc
  · rw [step_loop hc]
    constructor
    · intro h
      cases h with
      | loop _ => rfl
      | round h _ => cases hc.symm.trans h
    · rintro rfl
      exact .loop hc
  · rw [step_parsing hc, ← round_iff hshort]
    constructor
    · intro h
      cases h with
      | loop h => cases hc.symm.trans h
      | round _ h => exact h
    · exact .round hc

theorem step_ended (hc : m.control = .returned ∨ m.control = .aborted) : MainLoop.step world m = m := by
  rcases hc with hc | hc
  · simp only [MainLoop.step, hc]
  · simp only [MainLoop.step, hc]

theorem short_step (hshort : Short m.tokens) : Short (MainLoop.step world m).tokens := by
  unfold MainLoop.step
  split
  · exact hshort
  · exact short_round hshort
  · exact hshort
  · exact hshort

/-! ### Runs -/

theorem short_iterate (hshort : Short m.tokens) (n : ℕ) : Short ((MainLoop.step world)^[n] m).tokens := by
  induction n with
  | zero => exact hshort
  | succ n ih =>
    rw [Function.iterate_succ_apply']
    exact short_step ih

/-- The states of the two runs. -/
theorem runs_iff (hshort : Short m.tokens) :
    Relation.ReflTransGen (Step world) m m' ↔ ∃ n, m' = (MainLoop.step world)^[n] m := by
  constructor
  · intro h
    induction h with
    | refl => exact ⟨0, rfl⟩
    | @tail b c _ hstep ih =>
      obtain ⟨n, rfl⟩ := ih
      have hc : ((MainLoop.step world)^[n] m).control = .loop ∨
          ((MainLoop.step world)^[n] m).control = .parsing := by
        cases hstep with
        | loop h => exact .inl h
        | round h _ => exact .inr h
      refine ⟨n + 1, ?_⟩
      rw [Function.iterate_succ_apply']
      exact (step_iff (short_iterate hshort n) hc).mp hstep
  · rintro ⟨n, rfl⟩
    induction n with
    | zero => exact .refl
    | succ n ih =>
      rw [Function.iterate_succ_apply']
      cases hc : ((MainLoop.step world)^[n] m).control with
      | loop => exact ih.tail ((step_iff (short_iterate hshort n) (.inl hc)).mpr rfl)
      | parsing => exact ih.tail ((step_iff (short_iterate hshort n) (.inr hc)).mpr rfl)
      | returned => rwa [step_ended (.inl hc)]
      | aborted => rwa [step_ended (.inr hc)]

/-- **Quash with its generated code is the quash of the rules.** On every input of bytes whose lines have
at most 9996 tokens, from a terminal as from a file, the states that `main` comes to over `lex.yy.c` and
`parse.tab.c` are those of the main loop over the rules of `parse.l` and `parse.y`. -/
theorem generated_main (world : ℕ → World) (env : Str → Option Str) {interactive : Bool} {input : List UInt8}
    {ts : List Token} {scanner : Scanner} (hcalls : Calls (create interactive input) ts scanner)
    (hshort : Short ts) (m : Main) :
    Relation.ReflTransGen (Step world) ⟨.loop, 0, ts, initialShell env⟩ m ↔
      ∃ n, m = (MainLoop.step world)^[n] (MainLoop.start env (input.map byteChar)) := by
  rw [runs_iff hshort, MainLoop.start, LexRefines.calls_lex hcalls]

/-- The bytes of `echo hi` and a newline. -/
def echoBytes : List UInt8 := [101, 99, 104, 111, 32, 104, 105, 10]

/-- The first call of `parse` on `echo hi`. -/
theorem generated_main_echo : ∃ ts scanner, Calls (create false echoBytes) ts scanner ∧
    Relation.ReflTransGen (Step fun _ => easyWorld) ⟨.loop, 0, ts, initialShell fun _ => none⟩
      ((MainLoop.step fun _ => easyWorld)^[2] (MainLoop.start (fun _ => none) echoHi)) := by
  obtain ⟨scanner, hcalls, -⟩ := LexRefines.calls_scan le_rfl (LexRefines.ready_create false echoBytes)
  refine ⟨_, scanner, hcalls, ?_⟩
  have hlength : (Lib.Scanner.scan rules echoBytes.length (echoBytes.map byteChar)).length = 3 := by decide
  have hshort : Short (Lib.Scanner.scan rules echoBytes.length (echoBytes.map byteChar)) := by
    intro line hline _
    have hle := hline.length_le
    omega
  exact (generated_main (fun _ => easyWorld) (fun _ => none) hcalls hshort _).mpr ⟨2, rfl⟩

end Eecs678.Quash.Generated
