import Eecs678.Lib.TableParser
import Eecs678.Quash.Parser

/-!
# The generated parser

`project1/quash/src/parsing/parse.tab.c`: its tables, the numbers of its tokens and the actions of its
rules, for the automaton of `Lib.TableParser`. `yylex` returns the tokens of the list and `END` for ever
after, never the token `0`. The stacks grow up to `YYMAXDEPTH`. The messages are left out, and what an
action leaves undone (`yyval` is then what stood there before) never happens.
-/

namespace Eecs678.Quash.ParseTab

open Eecs678.Lib.TableParser Eecs678.Quash.Commands Eecs678.Quash.Actions Eecs678.Quash.Execute
  Eecs678.Quash.Lexer Eecs678.Quash.Words

/-- The tables of `parse.tab.c`. -/
def tables : Tables where
  pact :=
    [2, -6, 32, -12, 32, -18, -18, -11, -18, -18, -18, -18, -18, -18, 9, 21, 34, -2, -18, 32, -18,
    -18, -18, -18, -18, -18, -18, -18, -18, 32, -18, -18, 35, -18, 28, -18, -18, -18, 14, -18,
    -18, -18, 38, -18, 32, -18, -18, 32, -18, -18, -18, -18, -2, -18, -18]
  defact :=
    [0, 0, 11, 0, 14, 16, 17, 0, 2, 41, 42, 44, 43, 18, 0, 0, 7, 21, 10, 30, 6, 5, 35, 36, 38, 39,
    37, 40, 12, 31, 34, 33, 0, 15, 0, 1, 4, 3, 0, 24, 25, 26, 27, 20, 0, 29, 32, 0, 19, 8, 28, 9,
    23, 13, 22]
  pgoto :=
    [-18, -18, 17, -18, -18, -18, 4, -18, -18, -18, -17, -4, -18, 1]
  defgoto :=
    [-1, 14, 15, 16, 17, 42, 43, 44, 51, 18, 28, 29, 30, 31]
  table :=
    [33, 19, 45, 1, 20, 39, 40, 41, 32, 35, 34, 21, 46, 2, 3, 4, 5, 6, 7, 8, 9, 10, 11, 12, 13, 2,
    3, 4, 5, 6, 7, 36, 9, 10, 11, 12, 13, 38, 37, 19, 52, 47, 50, 53, 22, 23, 24, 25, 26, 48, 9,
    10, 11, 12, 27, 49, 54]
  check :=
    [4, 0, 19, 1, 10, 7, 8, 9, 20, 0, 21, 17, 29, 11, 12, 13, 14, 15, 16, 17, 18, 19, 20, 21, 22,
    11, 12, 13, 14, 15, 16, 10, 18, 19, 20, 21, 22, 3, 17, 38, 44, 6, 4, 47, 12, 13, 14, 15, 16,
    21, 18, 19, 20, 21, 22, 38, 52]
  r1 :=
    [0, 23, 24, 24, 24, 24, 24, 25, 25, 26, 27, 27, 27, 27, 27, 27, 27, 27, 27, 27, 28, 28, 29, 29,
    30, 30, 30, 31, 31, 32, 32, 33, 33, 34, 34, 35, 35, 35, 35, 35, 35, 36, 36, 36, 36]
  r2 :=
    [0, 2, 1, 2, 2, 2, 2, 1, 3, 3, 1, 1, 2, 4, 1, 2, 1, 1, 1, 3, 1, 0, 3, 2, 1, 1, 1, 0, 1, 2, 1,
    1, 2, 1, 1, 1, 1, 1, 1, 1, 1, 1, 1, 1, 1]
  ninf := -18
  last := 56
  final := 35
  ntokens := 23
  terror := 1
  maxdepth := 10000

/-- `YYTRANSLATE` of the token. -/
def yytranslate : Option Token → ℕ
  | some .pipe => 3
  | some .bckgrnd => 4
  | some .equals => 6
  | some .redirIn => 7
  | some .redirOut => 8
  | some .redirOutApp => 9
  | none => 10
  | some .echoTok => 11
  | some .exportTok => 12
  | some .cdTok => 13
  | some .pwdTok => 14
  | some .jobsTok => 15
  | some .killTok => 16
  | some .eocTok => 17
  | some (.str _) => 18
  | some (.simStr _) => 19
  | some (.id _) => 20
  | some (.num _) => 21
  | some (.exitTok _) => 22

/-- `YYSTYPE`. -/
inductive Value
  | unset
  | str (s : Str)
  | mark (mark : RedirMark)
  | background (bg : Bool)
  | redirect (redirect : Redirect)
  | cmd (cmd : Command)
  | holder (holder : CommandHolder)
  | cmdStrs (strs : List (Option Str))
  | cmdList (holders : List CommandHolder)
deriving DecidableEq, Repr

/-- `yylval`. -/
def yylval : Option Token → Value
  | some (.exitTok s) => .str s
  | some (.num s) => .str s
  | some (.id s) => .str s
  | some (.simStr s) => .str s
  | some (.str s) => .str s
  | _ => .unset

/-- The member `cmd_list`. -/
def Value.holders : Value → List CommandHolder
  | .cmdList holders => holders
  | _ => []

/-- `as_array_CmdStrs`, read up to the `NULL`. -/
def asArray (strs : List (Option Str)) : List Str := (strs.takeWhile Option.isSome).reduceOption

/-- Whether `end_main_loop` has been called, and `*__ret_cmds`. -/
abbrev Result : Type := Bool × Option (List CommandHolder)

/-- An action that ends the process when an assertion fails. -/
def orCrash : Option Value → Effect Value Result
  | some v => .value v
  | none => .crash

/-- The actions of the rules. -/
def reduce (env realpath : Str → Option Str) : ℕ → List Value → Effect Value Result
  | 2, _ => .done true (false, none)
  | 3, vs => .done true (false, some (vs.getD 1 .unset).holders)
  | 4, vs => .done true (true, some (vs.getD 1 .unset).holders)
  | 5, _ => .done false (false, none)
  | 6, _ => .done false (true, none)
  | 7, .holder holder :: _ => .value (.cmdList [holder])
  | 8, .cmdList holders :: _ :: .holder holder :: _ => .value (.cmdList (cmdsPipe holder holders))
  | 9, .background bg :: .redirect redirect :: .cmd cmd :: _ => .value (.holder (cmdTop cmd redirect bg))
  | 10, .cmdStrs strs :: _ => .value (.cmd (.generic (asArray strs)))
  | 11, _ => .value (.cmd (.echo []))
  | 12, .cmdStrs strs :: _ => .value (.cmd (.echo (asArray strs)))
  | 13, .str val :: _ :: .str envVar :: _ => .value (.cmd (.export envVar val))
  | 14, _ => orCrash ((env "HOME".toList).map fun home => .cmd (.cd (some home)))
  | 15, .str dir :: _ => .value (.cmd (.cd (realpath dir)))
  | 16, _ => .value (.cmd .pwd)
  | 17, _ => .value (.cmd .jobs)
  | 18, _ => .value (.cmd .exit)
  | 19, .str job :: .str sig :: _ => .value (.cmd (mkKillCommand sig job))
  | 20, .redirect redirect :: _ => .value (.redirect redirect)
  | 21, _ => .value (.redirect noRedirect)
  | 22, .redirect redirect :: .str file :: .mark mark :: _ =>
    .value (.redirect (addRedirect mark file redirect))
  | 23, .str file :: .mark mark :: _ => .value (.redirect (lastRedirect mark file))
  | 24, _ => .value (.mark .input)
  | 25, _ => .value (.mark .out)
  | 26, _ => .value (.mark .append)
  | 27, _ => .value (.background false)
  | 28, _ => .value (.background true)
  | 29, .cmdStrs strs :: .str str :: _ => .value (.cmdStrs (some str :: strs))
  | 30, .str str :: _ => .value (.cmdStrs [some str, none])
  | 31, .str str :: _ => .value (.cmdStrs [some str, none])
  | 32, .cmdStrs strs :: .str str :: _ => .value (.cmdStrs (some str :: strs))
  | 33, .str str :: _ => .value (.str str)
  | 34, .str str :: _ => .value (.str str)
  | 35, _ => .value (.str "export".toList)
  | 36, _ => .value (.str "cd".toList)
  | 37, _ => .value (.str "kill".toList)
  | 38, _ => .value (.str "pwd".toList)
  | 39, _ => .value (.str "jobs".toList)
  | 40, .str str :: _ => .value (.str str)
  | 41, .str str :: _ => orCrash ((interpretComplexStringToken env str).map .str)
  | 42, .str str :: _ => .value (.str str)
  | 43, .str str :: _ => .value (.str str)
  | 44, .str str :: _ => .value (.str str)
  | _, _ => .value .unset

/-- The tokens and the actions. -/
def semantics (env realpath : Str → Option Str) : Semantics Token Value Result where
  symbol := yytranslate
  lval := yylval
  act := reduce env realpath

/-- `yyparse` ends on these tokens with the status. -/
def Yyparse (env realpath : Str → Option Str) (tokens : List Token) (s : Status Token Value Result) : Prop :=
  ∃ n, (step tables (semantics env realpath))^[n] (start (semantics env realpath) tokens) = s ∧
    step tables (semantics env realpath) s = s

/-! ### The certificate -/

/-- Which states stand on which. -/
def above : List (ℕ × List ℕ) :=
  [(0, [1, 2, 3, 4, 5, 6, 7, 8, 9, 10, 11, 12, 13, 15, 16, 17, 18, 19]), (1, [20, 21]),
    (2, [9, 10, 11, 12, 22, 23, 24, 25, 26, 27, 28, 29, 30, 31]), (3, [32]),
    (4, [9, 10, 11, 12, 22, 23, 24, 25, 26, 27, 30, 31, 33]), (7, [34]), (15, [36, 37]), (16, [38]),
    (17, [39, 40, 41, 42, 43, 44]), (19, [9, 10, 11, 12, 22, 23, 24, 25, 26, 27, 29, 30, 31, 45]),
    (29, [9, 10, 11, 12, 22, 23, 24, 25, 26, 27, 29, 30, 31, 46]), (32, [47]), (34, [48]),
    (38, [2, 3, 4, 5, 6, 7, 9, 10, 11, 12, 13, 16, 17, 18, 19, 49]), (42, [50, 51]),
    (44, [9, 10, 11, 12, 22, 23, 24, 25, 26, 27, 30, 31, 52]),
    (47, [9, 10, 11, 12, 22, 23, 24, 25, 26, 27, 30, 31, 53]), (52, [39, 40, 41, 44, 54])]

/-- The states that are reached, and those in which `END` or the end of a line has been shifted. The
nonterminals `redir` and `cmd_bg` may be empty, and the error token stands for no token. -/
def certificate : Certificate where
  edges := above.flatMap fun e => e.2.map fun q => (e.1, q)
  states := 0 :: (above.flatMap Prod.snd).dedup
  endings := [8, 20, 21, 36, 37]
  stops := [10, 17]
  recovering := [1]
  slack q := if q = 51 then 2 else if q = 1 ∨ q = 42 ∨ q = 50 then 1 else 0
  maxSlack := 2

theorem valid : certificate.Valid tables := Certificate.valid_of_check _ _ (by decide +kernel)

theorem symbol_lt (t : Option Token) : yytranslate t < 23 := by
  rcases t with _ | t
  · exact Nat.lt_of_sub_eq_succ rfl
  · cases t <;> exact Nat.lt_of_sub_eq_succ rfl

/-- Where the input has ended, the parser returns. -/
theorem ending_rule : ∀ q ∈ certificate.endings, ∃ n ∈ [2, 3, 4, 5, 6], ∀ token,
    tables.action q token = .reduce n := by
  intro q hq
  simp only [certificate, List.mem_cons, List.not_mem_nil, or_false] at hq
  rcases hq with rfl | rfl | rfl | rfl | rfl
  · exact ⟨2, by decide, fun _ => rfl⟩
  · exact ⟨6, by decide, fun _ => rfl⟩
  · exact ⟨5, by decide, fun _ => rfl⟩
  · exact ⟨4, by decide, fun _ => rfl⟩
  · exact ⟨3, by decide, fun _ => rfl⟩

theorem suits (env realpath : Str → Option Str) : Suits certificate tables (semantics env realpath) where
  symbol := symbol_lt
  stops := List.mem_cons_self
  endings := by
    intro q hq token k hk vs v hv
    obtain ⟨n, hn, haction⟩ := ending_rule q hq
    rw [haction token] at hk
    cases hk
    simp only [List.mem_cons, List.not_mem_nil, or_false] at hn
    rcases hn with rfl | rfl | rfl | rfl | rfl <;> cases hv

/-! ### The depth of the stacks -/

theorem budget_eq (tokens : List Token) :
    certificate.budget yytranslate tokens = (tokens.takeWhile (· ≠ .eocTok)).length := by
  unfold Certificate.budget
  congr 2
  funext t
  cases t <;> rfl

/-- **No underflow, and no more than the tokens of a line**: in each state that the generated parser
reaches, the stacks hold the values of the rule that is reduced next, and the state below them; and they
are by three at most deeper than there are tokens before the end of the line. -/
theorem stack_bounds (env realpath : Str → Option Str) (tokens : List Token) (k : ℕ)
    (c : Config Token Value)
    (hrun : (step tables (semantics env realpath))^[k] (start (semantics env realpath) tokens) =
      .running c) :
    c.stack.length ≤ (tokens.takeWhile (· ≠ .eocTok)).length + 3 ∧
      ∀ n, tables.action (top c.stack) (yytranslate c.tokens.head?) = .reduce n →
        tables.r2.getD n 0 < c.stack.length := by
  have hinv := inv_run valid (suits env realpath) tokens k c (next_of_step _ hrun)
  constructor
  · rw [← budget_eq]
    exact hinv.depth
  · intro n hn
    exact found_of_reduce valid (suits env realpath) hinv hn

/-- After the first token of the line `pwd`. -/
theorem stack_bounds_pwd :
    [(5, Value.unset), (0, Value.unset)].length ≤
        ([Token.pwdTok, .eocTok].takeWhile (· ≠ .eocTok)).length + 3 ∧
      ∀ n, tables.action 5 (yytranslate (some .eocTok)) = .reduce n →
        tables.r2.getD n 0 < [(5, Value.unset), (0, Value.unset)].length :=
  stack_bounds (fun _ => none) (fun _ => none) [.pwdTok, .eocTok] 1
    ⟨[(5, .unset), (0, .unset)], [.eocTok], false, 0⟩ rfl

end Eecs678.Quash.ParseTab
