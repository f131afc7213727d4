import Eecs678.Quash.Stages

/-!
# The command string

The string that `parse` stores for a script, and the words of the script. `condense_spec` follows the two
passes of `__condense_string_array` over the array of strings. A `cd` whose directory does not resolve
puts a `NULL` into that array; `command_string_iff` says when no word is lost by it.
-/

namespace Eecs678.Quash.CommandString

open Eecs678.Quash.Commands Eecs678.Quash.Actions Eecs678.Quash.Execute Eecs678.Quash.Lexer
open Eecs678.Quash.Parser Eecs678.Quash.Stages

variable {env realpath : Str → Option Str}

/-! ### The two passes -/

/-- The first loop of `__condense_string_array`: `ss` and `len` after it. `none` is a read past the end
of the array. -/
def sizesLoop : List (Option Str) → List ℕ → ℕ → Option (List ℕ × ℕ)
  | [], _, _ => none
  | none :: _, ss, len => some (ss, len)
  | some str :: strs, ss, len => sizesLoop strs (ss ++ [str.length + 1]) (len + (str.length + 1))

/-- `strcpy(ret + pos, str)`. `none` is a write outside of the block. -/
def strcpy (ret : List Char) (pos : ℕ) (str : Str) : Option (List Char) :=
  if pos + (str.length + 1) ≤ ret.length then
    some (ret.take pos ++ (str ++ '\x00' :: ret.drop (pos + (str.length + 1))))
  else none

/-- `ret[i] = c`. -/
def store (ret : List Char) (i : ℕ) (c : Char) : Option (List Char) :=
  if i < ret.length then some (ret.set i c) else none

/-- The second loop of `__condense_string_array` and the line behind it: what is in the block then. -/
def copyLoop : List (Option Str) → List ℕ → ℕ → List Char → Option (List Char)
  | [], _, _, _ => none
  | none :: _, _, pos, ret => store ret pos '\x00'
  | some str :: strs, ss, pos, ret => do
    let ret ← strcpy ret pos str
    let size ← ss.head?
    let ret ← store ret (pos + size - 1) '\x20'
    copyLoop strs ss.tail (pos + size) ret

/-- Each word with a space behind it. -/
def line (words : List Str) : Str := words.flatMap fun word => word ++ ['\x20']

theorem line_cons (word : Str) (words : List Str) : line (word :: words) = word ++ '\x20' :: line words := by
  rw [line, List.flatMap_cons, List.append_assoc]
  rfl

theorem line_append (words words' : List Str) : line (words ++ words') = line words ++ line words' :=
  List.flatMap_append

theorem line_eq_nil {words : List Str} : line words = [] ↔ words = [] := by
  cases words with
  | nil => exact iff_of_true rfl rfl
  | cons word words =>
    rw [line_cons]
    simp

theorem condense_map (words : List Str) (strs : List (Option Str)) :
    condenseStringArray (words.map some ++ strs) = line words ++ condenseStringArray strs := by
  induction words with
  | nil => rfl
  | cons word words ih =>
    rw [line_cons, List.append_assoc, List.cons_append, ← ih]
    simp [condenseStringArray]

theorem condense_none (strs : List (Option Str)) : condenseStringArray (none :: strs) = [] := rfl

theorem sizesLoop_eq (words : List Str) (strs : List (Option Str)) : ∀ (ss : List ℕ) (len : ℕ),
    sizesLoop (words.map some ++ none :: strs) ss len =
      some (ss ++ words.map fun word => word.length + 1, len + (line words).length) := by
  induction words with
  | nil => exact fun ss len => by rw [List.map_nil, List.map_nil, List.append_nil]; rfl
  | cons word words ih =>
    intro ss len
    rw [List.map_cons, List.cons_append, sizesLoop, ih, line_cons]
    simp only [List.append_assoc, List.singleton_append, List.map_cons, List.length_append,
      List.length_cons, Option.some.injEq, Prod.mk.injEq, true_and]
    omega

theorem strcpy_eq (pre junk : List Char) {str : Str} (h : str.length + 1 ≤ junk.length) :
    strcpy (pre ++ junk) pre.length str =
      some (pre ++ (str ++ '\x00' :: junk.drop (str.length + 1))) := by
  rw [strcpy, if_pos (by rw [List.length_append]; omega), List.take_left, List.drop_append,
    List.drop_eq_nil_of_le (by omega), Nat.add_sub_cancel_left, List.nil_append]

theorem store_eq (pre : List Char) (c d : Char) (junk : List Char) :
    store (pre ++ c :: junk) pre.length d = some (pre ++ d :: junk) := by
  rw [store, if_pos (by simp)]
  simp

/-- **The second pass stays in the block** and fills it to the end. -/
theorem copyLoop_eq (words : List Str) (strs : List (Option Str)) : ∀ pre junk : List Char,
    junk.length = (line words).length + 1 →
    copyLoop (words.map some ++ none :: strs) (words.map fun word => word.length + 1) pre.length
      (pre ++ junk) = some (pre ++ (line words ++ ['\x00'])) := by
  induction words with
  | nil =>
    intro pre junk h
    obtain ⟨c, rfl⟩ := List.length_eq_one_iff.mp h
    exact store_eq pre c '\x00' []
  | cons word words ih =>
    intro pre junk h
    rw [line_cons, List.length_append, List.length_cons] at h
    -- the space goes over the `NUL` of the copy
    have hstore := store_eq (pre ++ word) '\x00' '\x20' (junk.drop (word.length + 1))
    have hrest := ih (pre ++ (word ++ ['\x20'])) (junk.drop (word.length + 1))
      (by rw [List.length_drop]; omega)
    simp only [List.length_append, List.append_assoc, List.singleton_append, List.length_cons,
      List.length_nil, Nat.zero_add] at hstore hrest
    rw [List.map_cons, List.cons_append, List.map_cons, copyLoop, strcpy_eq _ _ (by omega)]
    simp only [Option.bind_eq_bind, Option.bind_some, List.head?_cons, List.tail_cons,
      Nat.add_succ_sub_one, hstore, hrest, line_cons, List.append_assoc, List.cons_append]

/-- **`__condense_string_array` writes its block and nothing else**: the `len + 1` bytes that are
reserved hold the string and its `NUL` in the end, whatever is in them before. -/
theorem condense_spec {strs : List (Option Str)} (h : none ∈ strs) :
    ∃ ss len, sizesLoop strs [] 0 = some (ss, len) ∧ ∀ block : List Char, block.length = len + 1 →
      copyLoop strs ss 0 block = some (condenseStringArray strs ++ ['\x00']) := by
  obtain ⟨before, after, rfl, hbefore⟩ := List.eq_append_cons_of_mem h
  obtain ⟨words, rfl⟩ : ∃ words : List Str, before = words.map some := by
    refine ⟨before.filterMap id, ?_⟩
    have hsome : ∀ x ∈ before, x ≠ none := fun x hx he => hbefore (he ▸ hx)
    clear hbefore h
    induction before with
    | nil => rfl
    | cons x before ih =>
      obtain ⟨hx, hrest⟩ := List.forall_mem_cons.mp hsome
      obtain ⟨str, rfl⟩ := Option.ne_none_iff_exists'.mp hx
      rw [List.filterMap_cons, id, List.map_cons, ← ih hrest]
  refine ⟨_, _, sizesLoop_eq words after [] 0, fun block hblock => ?_⟩
  rw [condense_map, condense_none, List.append_nil]
  exact copyLoop_eq words after [] block (by rwa [Nat.zero_add] at hblock)

/-! ### The words of a script -/

/-- The words of a command; `typed` is what an unresolved directory was typed as. -/
def commandWords (typed : List Str) : Command → List Str
  | .generic args => args
  | .echo args => "echo".toList :: args
  | .export envVar val => ["export".toList, envVar, val]
  | .cd (some dir) => ["cd".toList, dir]
  | .cd none => "cd".toList :: typed
  | .kill _ _ sigStr jobStr => ["kill".toList, sigStr, jobStr]
  | .pwd => ["PWD".toList]
  | .jobs => ["JOBS".toList]
  | .exit => ["EXIT".toList]

/-- The redirect marks of a stage with their file names, and the pipe behind it. -/
def markWords (holder : CommandHolder) : List Str :=
  (if holder.flags.redirectIn then ["<".toList, holder.redirectIn.getD []] else []) ++
    (if holder.flags.redirectOut then
      [if holder.flags.redirectAppend then ">>".toList else ">".toList, holder.redirectOut.getD []]
    else []) ++
    if holder.flags.pipeOut then ["|".toList] else []

/-- The words of the stages; `typed k` are those of an unresolved directory of stage `k`. -/
def stageWords (typed : ℕ → List Str) : List CommandHolder → List Str
  | [] => []
  | holder :: holders => commandWords (typed 0) holder.cmd ++ markWords holder ++
      stageWords (fun k => typed (k + 1)) holders

def scriptWords (typed : ℕ → List Str) (holders : List CommandHolder) : List Str :=
  stageWords typed holders ++ if isBackground holders then ["&".toList] else []

/-- What the grammar takes care of in a stage. -/
structure Coherent (holder : CommandHolder) : Prop where
  args : holder.cmd ≠ .generic []
  redirectIn : holder.flags.redirectIn = true → holder.redirectIn.isSome = true
  redirectOut : holder.flags.redirectOut = true → holder.redirectOut.isSome = true
  append : holder.flags.redirectAppend = true → holder.flags.redirectOut = true

theorem stringifyCommand_eq (typed : List Str) {cmd : Command} (h : cmd ≠ .cd none) :
    stringifyCommand cmd = (commandWords typed cmd).map some := by
  cases cmd with
  | cd dir =>
    cases dir with
    | none => exact absurd rfl h
    | some dir => rfl
  | _ => rfl

theorem stringifyHolder_eq {holder : CommandHolder} (h : Coherent holder) :
    stringifyHolder holder = stringifyCommand holder.cmd ++ (markWords holder).map some := by
  obtain ⟨-, hin, hout, happ⟩ := h
  obtain ⟨redirIn, redirOut, ⟨fin, fout, fapp, _, fpipe, _⟩, cmd⟩ := holder
  simp only at hin hout happ
  have h1 : (if fin then [some "<".toList, redirIn] else []) =
      (if fin then ["<".toList, redirIn.getD []] else []).map some := by
    cases fin with
    | false => rfl
    | true =>
      obtain ⟨file, rfl⟩ := Option.isSome_iff_exists.mp (hin rfl)
      rfl
  have h2 : (if fapp then [some ">>".toList] else if fout then [some ">".toList] else []) ++
      (if fout then [redirOut] else []) =
      (if fout then [if fapp then ">>".toList else ">".toList, redirOut.getD []] else []).map some := by
    cases fout with
    | false =>
      obtain rfl : fapp = false := by simpa using happ
      rfl
    | true =>
      obtain ⟨file, rfl⟩ := Option.isSome_iff_exists.mp (hout rfl)
      cases fapp <;> rfl
  have h3 : (if fpipe then [some "|".toList] else []) = (if fpipe then ["|".toList] else []).map some := by
    cases fpipe <;> rfl
  simp only [stringifyHolder, markWords, List.map_append, List.append_assoc, h1, h3]
  rw [← List.append_assoc (if fapp then _ else _), h2]

theorem stageWords_ne_nil {typed : ℕ → List Str} {holder : CommandHolder} {holders : List CommandHolder}
    (h : Coherent holder) : stageWords typed (holder :: holders) ≠ [] := by
  have hne : commandWords (typed 0) holder.cmd ≠ [] := by
    have hargs := h.args
    cases hcmd : holder.cmd with
    | generic args => exact fun he => hargs (hcmd.trans (congrArg _ he))
    | cd dir => cases dir <;> exact List.cons_ne_nil _ _
    | _ => exact List.cons_ne_nil _ _
  rw [stageWords, List.append_assoc]
  exact List.append_ne_nil_of_left_ne_nil hne _

/-- No word comes behind a directory that does not resolve, and none is missing for it. -/
def Complete (typed : ℕ → List Str) (holders : List CommandHolder) (more : List Str) : Prop :=
  ∀ k holder, holders[k]? = some holder → holder.cmd = .cd none →
    typed k = [] ∧ markWords holder = [] ∧ k + 1 = holders.length ∧ more = []

theorem complete_cons {typed : ℕ → List Str} {holder : CommandHolder} {holders : List CommandHolder}
    {more : List Str} : Complete typed (holder :: holders) more ↔
      (holder.cmd = .cd none → typed 0 = [] ∧ markWords holder = [] ∧ holders = [] ∧ more = []) ∧
        Complete (fun k => typed (k + 1)) holders more := by
  constructor
  · intro h
    refine ⟨fun hcd => ?_, fun k x hk hcd => ?_⟩
    · obtain ⟨h1, h2, h3, h4⟩ := h 0 holder rfl hcd
      exact ⟨h1, h2, List.eq_nil_of_length_eq_zero (by simpa using h3.symm), h4⟩
    · obtain ⟨h1, h2, h3, h4⟩ := h (k + 1) x hk hcd
      exact ⟨h1, h2, by simpa using h3, h4⟩
  · rintro ⟨hfirst, hrest⟩ (_ | k) x hk hcd
    · obtain rfl : holder = x := Option.some.inj hk
      obtain ⟨h1, h2, h3, h4⟩ := hfirst hcd
      exact ⟨h1, h2, by rw [h3]; rfl, h4⟩
    · obtain ⟨h1, h2, h3, h4⟩ := hrest k x hk hcd
      exact ⟨h1, h2, congrArg (· + 1) h3, h4⟩

/-- The strings up to the first `NULL` are all the words if and only if nothing is behind it. -/
theorem condense_stages (more : List Str) : ∀ {holders : List CommandHolder} (typed : ℕ → List Str),
    (∀ holder ∈ holders, Coherent holder) →
    (condenseStringArray (holders.flatMap stringifyHolder ++ (more.map some ++ [none])) =
      line (stageWords typed holders ++ more) ↔ Complete typed holders more)
  | [], typed, _ => by
    refine iff_of_true ?_ fun k x hk => by simp at hk
    rw [List.flatMap_nil, List.nil_append, condense_map, condense_none, List.append_nil]
    rfl
  | holder :: holders, typed, h => by
    obtain ⟨hholder, hrest⟩ := List.forall_mem_cons.mp h
    have ih := condense_stages more (fun k => typed (k + 1)) hrest
    rw [complete_cons, List.flatMap_cons, stringifyHolder_eq hholder, stageWords]
    by_cases hcd : holder.cmd = .cd none
    · have hleft : condenseStringArray (stringifyCommand holder.cmd ++ (markWords holder).map some ++
          holders.flatMap stringifyHolder ++ (more.map some ++ [none])) = line ["cd".toList] := by
        rw [hcd]
        rfl
      have hright : line (commandWords (typed 0) holder.cmd ++ markWords holder ++
          stageWords (fun k => typed (k + 1)) holders ++ more) = line ["cd".toList] ++
            line (typed 0 ++ (markWords holder ++ (stageWords (fun k => typed (k + 1)) holders ++ more))) := by
        rw [hcd, commandWords, ← line_append]
        simp only [List.append_assoc, List.cons_append, List.nil_append]
      rw [hleft, hright, List.self_eq_append_right, line_eq_nil]
      simp only [List.append_eq_nil_iff, hcd, forall_const]
      constructor
      · rintro ⟨h1, h2, h3, h4⟩
        have hnil : holders = [] := by
          cases holders with
          | nil => rfl
          | cons next rest => exact absurd h3 (stageWords_ne_nil (hrest next List.mem_cons_self))
        exact ⟨⟨h1, h2, hnil, h4⟩, by simp [hnil, Complete]⟩
      · rintro ⟨⟨h1, h2, rfl, h4⟩, -⟩
        exact ⟨h1, h2, rfl, h4⟩
    · have hleft : condenseStringArray (stringifyCommand holder.cmd ++ (markWords holder).map some ++
          holders.flatMap stringifyHolder ++ (more.map some ++ [none])) =
          line (commandWords (typed 0) holder.cmd ++ markWords holder) ++
            condenseStringArray (holders.flatMap stringifyHolder ++ (more.map some ++ [none])) := by
        rw [stringifyCommand_eq (typed 0) hcd, ← List.map_append, List.append_assoc, condense_map]
      have hright : line (commandWords (typed 0) holder.cmd ++ markWords holder ++
          stageWords (fun k => typed (k + 1)) holders ++ more) =
          line (commandWords (typed 0) holder.cmd ++ markWords holder) ++
            line (stageWords (fun k => typed (k + 1)) holders ++ more) := by
        rw [← line_append, List.append_assoc]
      rw [hleft, hright, List.append_cancel_left_eq, ih]
      simp [hcd]

/-! ### The scripts of the parser -/

section content

variable {β : Type} {ts us rest : List Token} {content : Command}

theorem args_of_ok {c : Command} (hc : c ≠ .generic []) (h : Outcome.ok c us = .ok content rest) :
    content ≠ .generic [] := by
  simp only [Outcome.ok.injEq] at h
  exact h.1 ▸ hc

theorem args_of_map {x : Outcome β} {g : β → Command} (hg : ∀ v, g v ≠ .generic [])
    (h : x.map g = .ok content rest) : content ≠ .generic [] := by
  obtain ⟨v, us, -, hv⟩ := bind_ok h
  exact args_of_ok (hg v) hv

theorem args_of_action {value : Option β} {g : β → Command} (hg : ∀ v, g v ≠ .generic [])
    (h : Outcome.ofAction (value.map g) us = .ok content rest) : content ≠ .generic [] := by
  obtain ⟨v, -, rfl⟩ := Option.map_eq_some_iff.mp (ofAction_ok h).1
  exact hg v

/-- A generic command of the grammar has a word. -/
theorem cmdContent_args (h : cmdContent env realpath ts = .ok content rest) : content ≠ .generic [] := by
  have hgeneric : ∀ (value : Str) (args : List Str), Command.generic (value :: args) ≠ .generic [] :=
    fun value args => by simp
  rcases ts with _ | ⟨t, ts⟩
  · simp [cmdContent] at h
  cases t with
  | echoTok => exact args_of_map (g := .echo) (fun _ => by simp) h
  | exportTok =>
    rw [cmdContent] at h
    unfold exportContent at h
    split at h
    · exact args_of_map (fun _ => by simp) h
    · cases h
    · cases h
  | cdTok =>
    rw [cmdContent] at h
    unfold cdContent at h
    split at h
    · exact args_of_action (fun _ => by simp) h
    · split at h
      · exact args_of_action (fun _ => by simp) h
      · exact args_of_action (fun _ => by simp) h
  | killTok =>
    rw [cmdContent] at h
    unfold killContent at h
    split at h
    · exact args_of_ok (by simp [mkKillCommand]) h
    · cases h
    · cases h
  | pwdTok => exact args_of_ok (c := .pwd) (by simp) h
  | jobsTok => exact args_of_ok (c := .jobs) (by simp) h
  | exitTok s => exact args_of_ok (c := .exit) (by simp) h
  | num s => exact args_of_map (hgeneric s) h
  | id s => exact args_of_map (hgeneric s) h
  | simStr s => exact args_of_map (hgeneric s) h
  | str s =>
    cases hs : Words.interpretComplexStringToken env s with
    | none => simp [cmdContent, firstString, hs] at h
    | some value =>
      simp only [cmdContent, firstString, hs] at h
      exact args_of_map (hgeneric value) h
  | _ => simp [cmdContent, firstString] at h

end content

/-- What `cmd_top` gives is coherent, and stays so in a pipeline. -/
theorem coherent_stageAt {ts rest : List Token} {own : CommandHolder}
    (h : parseCmdTop env realpath ts = .ok own rest) (owns : List CommandHolder) (k : ℕ) :
    Coherent (stageAt owns k own) := by
  obtain ⟨content, ts₁, hcontent, h⟩ := bind_ok h
  obtain ⟨red, ts₂, hred, h⟩ := bind_ok h
  obtain ⟨bg, ts₃, -, h⟩ := bind_ok h
  simp only [Outcome.ok.injEq] at h
  obtain ⟨rfl, rfl⟩ := h
  obtain ⟨used, -, ⟨-, -, happ, -⟩, -⟩ := reads_redir ts₁ red ts₂ hred
  refine ⟨cmdContent_args hcontent, fun hin => ?_, fun hout => ?_, fun happ' => ?_⟩
  · simp only [stageAt, cmdTop, Bool.and_eq_true] at hin
    exact hin.1
  · simp only [stageAt, cmdTop, Bool.and_eq_true] at hout
    exact hout.1
  · simp only [stageAt, cmdTop, Bool.and_eq_true] at happ' ⊢
    exact ⟨happ happ'.1, happ'.2⟩

theorem coherent_script {ts rest : List Token} {ended : Bool} {holders : List CommandHolder}
    (h : yyparse env realpath ts = .done ended (some holders) rest) :
    ∀ holder ∈ holders, Coherent holder := by
  obtain ⟨used, own, more, -, rfl, hstaged⟩ := parseCmds_stages (yyparse_script h)
  have howns : own :: more.map Prod.snd = ((used, own) :: more).map Prod.snd := rfl
  have hplain : ∀ x ∈ own :: more.map Prod.snd, Plain x := by
    intro x hx
    obtain ⟨y, hy, rfl⟩ := List.mem_map.mp (howns ▸ hx)
    exact (hstaged y hy).1.plain
  intro holder hholder
  obtain ⟨k, hk⟩ := List.getElem?_of_mem hholder
  rw [cmds_getElem? own _ k hplain, howns, Option.map_eq_some_iff] at hk
  obtain ⟨x, hx, rfl⟩ := hk
  obtain ⟨y, hy, rfl⟩ := List.mem_map.mp (List.mem_of_getElem? hx)
  exact coherent_stageAt (hstaged y hy).2 _ k

/-- **The command string.** For each script of the parser `parsed_str` is made of all the words of the
script if and only if nothing comes behind a `cd` whose directory does not resolve: no word that stands for
the directory, no redirection, no further stage and no `&`. The block that `__condense_string_array` reserves
is filled to its end by the string and a `NUL`, and no byte outside of it is written. -/
theorem command_string_iff {ts rest : List Token} {ended : Bool} {holders : List CommandHolder}
    (h : yyparse env realpath ts = .done ended (some holders) rest) :
    (∀ typed : ℕ → List Str, parsedStr holders = line (scriptWords typed holders) ↔
      ∀ k holder, holders[k]? = some holder → holder.cmd = .cd none →
        typed k = [] ∧ markWords holder = [] ∧ k + 1 = holders.length ∧ isBackground holders = false) ∧
    ∃ ss len, sizesLoop (stringifyScript holders) [] 0 = some (ss, len) ∧
      ∀ block : List Char, block.length = len + 1 →
        copyLoop (stringifyScript holders) ss 0 block = some (parsedStr holders ++ ['\x00']) := by
  refine ⟨fun typed => ?_, condense_spec (List.mem_append_right _ List.mem_cons_self)⟩
  have hstages := condense_stages (if isBackground holders then ["&".toList] else []) typed
    (coherent_script h)
  have hmark : (if isBackground holders then ["&".toList] else []).map some =
      if isBackground holders then [some "&".toList] else [] := by
    cases isBackground holders <;> rfl
  have hbg : (if isBackground holders then ["&".toList] else []) = [] ↔ isBackground holders = false := by
    cases isBackground holders <;> simp
  rw [hmark, ← List.append_assoc] at hstages
  rw [parsedStr, stringifyScript, scriptWords, hstages, Complete]
  simp only [hbg]

/-- The pipeline `c | w > f &`. -/
theorem command_string_iff_pipe : ∃ holders, yyparse (fun _ => none) (fun _ => none)
      [.id ['c'], .pipe, .id ['w'], .redirOut, .id ['f'], .bckgrnd, .eocTok] = .done false (some holders) [] ∧
    parsedStr holders = line (scriptWords (fun _ => []) holders) ∧
    scriptWords (fun _ => []) holders = [['c'], ['|'], ['w'], ['>'], ['f'], ['&']] := by
  have h : yyparse (fun _ => none) (fun _ => none)
      [.id ['c'], .pipe, .id ['w'], .redirOut, .id ['f'], .bckgrnd, .eocTok] = .done false (some _) [] := rfl
  refine ⟨_, h, ((command_string_iff h).1 fun _ => []).mpr fun k holder hk hcd => ?_, by decide⟩
  match k with
  | 0 | 1 =>
    obtain rfl := Option.some.inj hk
    cases hcd
  | k + 2 => exact nomatch hk

/-- `cd x | w`, where `x` does not resolve, has the command string of `cd`. -/
theorem command_string_iff_cd : ∃ holders, yyparse (fun _ => none) (fun _ => none)
      [.cdTok, .id ['x'], .pipe, .id ['w'], .eocTok] = .done false (some holders) [] ∧
    parsedStr holders = "cd ".toList ∧
    ∀ typed, parsedStr holders ≠ line (scriptWords typed holders) := by
  have h : yyparse (fun _ => none) (fun _ => none)
      [.cdTok, .id ['x'], .pipe, .id ['w'], .eocTok] = .done false (some _) [] := rfl
  refine ⟨_, h, by decide, fun typed he => ?_⟩
  have hwords : "cd ".toList = line ("cd".toList :: typed 0 ++ ["|".toList] ++ ([['w']] ++ [] ++ []) ++ []) := he
  have hlength := congrArg List.length hwords
  simp [line] at hlength

end Eecs678.Quash.CommandString
