import Eecs678.Quash.Actions
import Eecs678.Quash.Execute
import Eecs678.Quash.Words

/-!
# The parser

`project1/quash/src/parsing/parse.y` and `parse` of `parsing_interface.c`. There is a function for each
nonterminal, with the actions of its rules in the order in which the generated parser runs them: an
action is run as soon as the tokens of its rule are read, and a rule without further tokens is reduced
whatever comes next, before an error in what comes next is found. The end of the list of tokens is
`END`. `realpath` is the library function in the present directory.
-/

namespace Eecs678.Quash.Parser

open Eecs678.Quash.Commands Eecs678.Quash.Actions Eecs678.Quash.Execute Eecs678.Quash.Lexer
  Eecs678.Quash.Words

/-- What a nonterminal gives: a value and the tokens after it, an error at a token, or the end of the
process by a failed `assert`. -/
inductive Outcome (β : Type)
  | ok (value : β) (rest : List Token)
  | error (rest : List Token)
  | abort
deriving DecidableEq, Repr

namespace Outcome

variable {β γ : Type}

def bind (x : Outcome β) (f : β → List Token → Outcome γ) : Outcome γ :=
  match x with
  | .ok value rest => f value rest
  | .error rest => .error rest
  | .abort => .abort

def map (f : β → γ) (x : Outcome β) : Outcome γ := x.bind fun value rest => .ok (f value) rest

/-- The value of an action that can fail. -/
def ofAction (value : Option β) (rest : List Token) : Outcome β :=
  match value with
  | some value => .ok value rest
  | none => .abort

end Outcome

variable (env realpath : Str → Option Str)

/-! ### Strings -/

/-- `first_string`, of a token that is one. -/
def firstString : Token → Option (Option Str)
  | .str s => some (interpretComplexStringToken env s)
  | .simStr s => some (some s)
  | .num s => some (some s)
  | .id s => some (some s)
  | _ => none

/-- `special_string`. -/
def specialString : Token → Option Str
  | .exportTok => some "export".toList
  | .cdTok => some "cd".toList
  | .killTok => some "kill".toList
  | .pwdTok => some "pwd".toList
  | .jobsTok => some "jobs".toList
  | .exitTok s => some s
  | _ => none

/-- `string`: the value of the action, for a token that is one. -/
def string (t : Token) : Option (Option Str) :=
  match firstString env t with
  | some value => some value
  | none => (specialString t).map some

/-- `string`, where nothing else can come. -/
def expectString : List Token → Outcome Str
  | [] => .error []
  | t :: ts =>
    match string env t with
    | some value => .ofAction value ts
    | none => .error (t :: ts)

/-- `cmd_arguments`, or none. -/
def cmdArguments : List Token → Outcome (List Str)
  | [] => .ok [] []
  | t :: ts =>
    match string env t with
    | some (some value) => (cmdArguments ts).map (value :: ·)
    | some none => .abort
    | none => .ok [] (t :: ts)

/-! ### Redirections and `&` -/

def redirMark : Token → Option RedirMark
  | .redirIn => some .input
  | .redirOut => some .out
  | .redirOutApp => some .append
  | _ => none

/-- `redir_inner`, or none. -/
def redir : List Token → Outcome Redirect
  | [] => .ok noRedirect []
  | [t] =>
    match redirMark t with
    | some _ => .error []
    | none => .ok noRedirect [t]
  | t :: u :: ts =>
    match redirMark t with
    | none => .ok noRedirect (t :: u :: ts)
    | some mark =>
      match string env u with
      | none => .error (u :: ts)
      | some none => .abort
      | some (some file) =>
        match ts with
        | [] => .ok (lastRedirect mark file) []
        | v :: ts =>
          if (redirMark v).isSome then (redir (v :: ts)).map (addRedirect mark file)
          else .ok (lastRedirect mark file) (v :: ts)

/-- `cmd_bg`. -/
def cmdBg : List Token → Outcome Bool
  | .bckgrnd :: ts => .ok true ts
  | ts => .ok false ts

/-! ### Commands -/

/-- `EXPORT_TOK ID EQUALS string`, after the first token. -/
def exportContent : List Token → Outcome Command
  | .id envVar :: .equals :: ts => (expectString env ts).map (.export envVar)
  | .id _ :: ts => .error ts
  | ts => .error ts

/-- `CD_TOK` and `CD_TOK string`, after the first token. -/
def cdContent : List Token → Outcome Command
  | [] => .ofAction ((env "HOME".toList).map fun home => .cd (some home)) []
  | t :: ts =>
    match string env t with
    | some dir => .ofAction (dir.map fun dir => .cd (realpath dir)) ts
    | none => .ofAction ((env "HOME".toList).map fun home => .cd (some home)) (t :: ts)

/-- `KILL_TOK NUM NUM`, after the first token. -/
def killContent : List Token → Outcome Command
  | .num sig :: .num job :: ts => .ok (mkKillCommand sig job) ts
  | .num _ :: ts => .error ts
  | ts => .error ts

/-- `cmd_content`. -/
def cmdContent : List Token → Outcome Command
  | [] => .error []
  | .echoTok :: ts => (cmdArguments env ts).map .echo
  | .exportTok :: ts => exportContent env ts
  | .cdTok :: ts => cdContent env realpath ts
  | .pwdTok :: ts => .ok .pwd ts
  | .jobsTok :: ts => .ok .jobs ts
  | .exitTok _ :: ts => .ok .exit ts
  | .killTok :: ts => killContent ts
  | t :: ts =>
    match firstString env t with
    | some (some value) => (cmdArguments env ts).map fun args => .generic (value :: args)
    | some none => .abort
    | none => .error (t :: ts)

/-- `cmd_top: cmd_content redir cmd_bg`. -/
def parseCmdTop (ts : List Token) : Outcome CommandHolder :=
  (cmdContent env realpath ts).bind fun content ts =>
    (redir env ts).bind fun red ts => (cmdBg ts).map fun bg => cmdTop content red bg

/-- `cmds`, for at most a number of stages. -/
def parseCmds : ℕ → List Token → Outcome (List CommandHolder)
  | 0, ts => .error ts
  | n + 1, ts =>
    (parseCmdTop env realpath ts).bind fun holder ts =>
      match ts with
      | .pipe :: ts => (parseCmds n ts).map (cmdsPipe holder)
      | ts => .ok [holder] ts

/-! ### A script -/

/-- What `yyparse` does: whether it calls `end_main_loop`, `*__ret_cmds`, and the tokens it leaves. -/
inductive Parsed
  | done (ended : Bool) (script : Option (List CommandHolder)) (rest : List Token)
  | abort
deriving DecidableEq, Repr

/-- `error EOC_TOK` and `error END`: the tokens up to there are discarded. -/
def recover : List Token → Parsed
  | [] => .done true none []
  | .eocTok :: ts => .done false none ts
  | _ :: ts => recover ts

/-- `top`. -/
def yyparse (ts : List Token) : Parsed :=
  match ts with
  | .eocTok :: ts => .done false none ts
  | ts =>
    match parseCmds env realpath ts.length ts with
    | .ok holders (.eocTok :: rest) => .done false (some holders) rest
    | .ok holders [] => .done true (some holders) []
    | .ok _ rest => recover rest
    | .error rest => recover rest
    | .abort => .abort

/-! ### The command string -/

/-- `__stringify_command`. -/
def stringifyCommand : Command → List (Option Str)
  | .generic args => args.map some
  | .echo args => some "echo".toList :: args.map some
  | .export envVar val => [some "export".toList, some envVar, some val]
  | .cd dir => [some "cd".toList, dir]
  | .kill _ _ sigStr jobStr => [some "kill".toList, some sigStr, some jobStr]
  | .pwd => [some "PWD".toList]
  | .jobs => [some "JOBS".toList]
  | .exit => [some "EXIT".toList]

/-- `__stringify_holder`. -/
def stringifyHolder (holder : CommandHolder) : List (Option Str) :=
  stringifyCommand holder.cmd ++
    (if holder.flags.redirectIn then [some "<".toList, holder.redirectIn] else []) ++
    (if holder.flags.redirectAppend then [some ">>".toList]
      else if holder.flags.redirectOut then [some ">".toList] else []) ++
    (if holder.flags.redirectOut then [holder.redirectOut] else []) ++
    if holder.flags.pipeOut then [some "|".toList] else []

/-- `__stringify_script`, with the `NULL` at the end. -/
def stringifyScript (holders : List CommandHolder) : List (Option Str) :=
  holders.flatMap stringifyHolder ++ (if isBackground holders then [some "&".toList] else []) ++ [none]

/-- `__condense_string_array`: the strings before the first `NULL`, each with a space after it. -/
def condenseStringArray (strs : List (Option Str)) : Str :=
  (strs.takeWhile Option.isSome).flatMap fun str => str.getD [] ++ ['\x20']

/-- The `parsed_str` that `parse` stores. -/
def parsedStr (holders : List CommandHolder) : Str := condenseStringArray (stringifyScript holders)

end Eecs678.Quash.Parser
