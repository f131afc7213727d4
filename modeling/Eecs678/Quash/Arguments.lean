import Eecs678.Quash.DequeRefines
import Eecs678.Quash.Lines
import Eecs678.Quash.Quoting

/-!
# Commands with arguments

A line of words: a command word and its arguments. `arguments_iff` says when the grammar takes the line
as one command with the values of the words. The keyword `echo` is the one that is no argument.
`arguments_array` is about the array that the actions build with a queue.
-/

namespace Eecs678.Quash.Arguments

open Eecs678.Quash.Commands Eecs678.Quash.Actions Eecs678.Quash.Lexer Eecs678.Quash.Words
open Eecs678.Quash.Quoting Eecs678.Quash.Parser Eecs678.Quash.Lines
open Eecs678.Quash.DequeModel Eecs678.Quash.DequeRefines

variable {env realpath : Str → Option Str}

/-! ### Words -/

/-- A word, and what it stands for. -/
def wordValue (env : Str → Option Str) : Token → Option Str
  | .id s => some s
  | .num s => some s
  | .simStr s => some s
  | .str s => interpretComplexStringToken env s
  | .echoTok => some "echo".toList
  | .exportTok => some "export".toList
  | .cdTok => some "cd".toList
  | .pwdTok => some "pwd".toList
  | .jobsTok => some "jobs".toList
  | .killTok => some "kill".toList
  | .exitTok s => some s
  | _ => none

/-- `ID`, `NUM`, `SIM_STR`, `STR` and the keywords. -/
def isWord : Token → Bool
  | .pipe | .bckgrnd | .equals | .redirIn | .redirOut | .redirOutApp | .eocTok => false
  | _ => true

/-- `ID`, `NUM`, `SIM_STR`, `STR` and `echo`. -/
def isCommandWord : Token → Bool
  | .id _ | .num _ | .simStr _ | .str _ | .echoTok => true
  | _ => false

/-- The words have the values. -/
def Values (env : Str → Option Str) (ws : List Token) (vs : List Str) : Prop :=
  List.Forall₂ (fun w v => wordValue env w = some v) ws vs

/-- The command of a command word with the value `v` and of arguments. -/
def command (c : Token) (v : Str) (args : List Str) : Command :=
  if c = .echoTok then .echo args else .generic (v :: args)

theorem wordValue_isSome {w : Token} (hw : isWord w = true) :
    (wordValue env w).isSome ↔ ∀ s, w = .str s → Balanced s := by
  cases w with
  | str s =>
    rw [wordValue, (interpret_iff env s).2]
    exact ⟨fun h _ he => Token.str.inj he ▸ h, fun h => h s rfl⟩
  | _ => first
    | exact iff_of_true rfl fun _ he => Token.noConfusion he
    | exact absurd hw (by decide)

theorem exists_values : ∀ {ws : List Token}, (∀ w ∈ ws, (wordValue env w).isSome) → ∃ vs, Values env ws vs
  | [], _ => ⟨[], .nil⟩
  | w :: ws, h => by
    obtain ⟨hw, hws⟩ := List.forall_mem_cons.mp h
    obtain ⟨v, hv⟩ := Option.isSome_iff_exists.mp hw
    obtain ⟨vs, hvs⟩ := exists_values hws
    exact ⟨v :: vs, .cons hv hvs⟩

theorem values_isSome {ws : List Token} {vs : List Str} (h : Values env ws vs) :
    ∀ w ∈ ws, (wordValue env w).isSome := by
  induction h with
  | nil => exact fun w hw => absurd hw List.not_mem_nil
  | cons hv _ ih => exact List.forall_mem_cons.mpr ⟨Option.isSome_iff_exists.mpr ⟨_, hv⟩, ih⟩

/-! ### What the grammar makes of words -/

/-- All words but `echo` are strings of the grammar. -/
theorem string_word {w : Token} (hw : isWord w = true) (hne : w ≠ .echoTok) :
    string env w = some (wordValue env w) := by
  cases w with
  | echoTok => exact absurd rfl hne
  | _ => first | rfl | exact absurd hw (by decide)

theorem cmdArguments_values {ws : List Token} {vs : List Str} (hws : ∀ w ∈ ws, isWord w = true)
    (hecho : .echoTok ∉ ws) (h : Values env ws vs) : cmdArguments env ws = .ok vs [] := by
  induction h with
  | nil => rfl
  | cons hv _ ih =>
    obtain ⟨hw, hws⟩ := List.forall_mem_cons.mp hws
    obtain ⟨hne, hecho⟩ := not_or.mp (List.mem_cons.not.mp hecho)
    rw [cmdArguments, string_word hw (Ne.symm hne), hv]
    simp only [ih hws hecho]
    rfl

/-- The arguments end in front of an `echo`. -/
theorem cmdArguments_echo : ∀ {ws : List Token}, (∀ w ∈ ws, isWord w = true) → .echoTok ∈ ws →
    cmdArguments env ws = .abort ∨ ∃ vs ts, cmdArguments env ws = .ok vs (.echoTok :: ts)
  | w :: ws, hws, hecho => by
    obtain ⟨hw, hws⟩ := List.forall_mem_cons.mp hws
    by_cases hne : w = .echoTok
    · exact .inr ⟨[], ws, by rw [hne]; rfl⟩
    · rw [cmdArguments, string_word hw hne]
      cases wordValue env w with
      | none => exact .inl rfl
      | some v =>
        have hmem : .echoTok ∈ ws := (List.mem_cons.mp hecho).resolve_left (Ne.symm hne)
        rcases cmdArguments_echo hws hmem with h | ⟨vs, ts, h⟩
        · exact .inl (by simp only [h]; rfl)
        · exact .inr ⟨v :: vs, ts, by simp only [h]; rfl⟩

theorem cmdContent_word {c : Token} (hc : isCommandWord c = true) {v : Str}
    (hv : wordValue env c = some v) (ws : List Token) :
    cmdContent env realpath (c :: ws) = (cmdArguments env ws).map (command c v) := by
  cases c with
  | echoTok => rfl
  | str s =>
    have hint : interpretComplexStringToken env s = some v := hv
    simp only [cmdContent, firstString, hint]
    rfl
  | _ => first | (cases hv; rfl) | exact absurd hc Bool.false_ne_true

/-- A line that is one command and nothing else. -/
theorem verdict_command {line : List Token} {content : Command} (hne : line ≠ [])
    (h : cmdContent env realpath line = .ok content []) :
    verdict env realpath line = .script [cmdTop content noRedirect false] := by
  obtain ⟨t, ts, rfl⟩ := List.exists_cons_of_ne_nil hne
  rw [verdict, List.length_cons, parseCmds, parseCmdTop, h]
  rfl

/-- A line with something behind its command that is no part of it is nothing. -/
theorem verdict_more {line ts : List Token} {content : Command} (hne : line ≠ [])
    (h : cmdContent env realpath line = .ok content (.echoTok :: ts)) :
    verdict env realpath line = .nothing := by
  obtain ⟨t, us, rfl⟩ := List.exists_cons_of_ne_nil hne
  rw [verdict, List.length_cons, parseCmds, parseCmdTop, h]
  cases ts <;> rfl

theorem word_eoc {w : Token} (hw : isWord w = true) : .eocTok ≠ w := fun he =>
  absurd (he ▸ hw) (by decide)

theorem commandWord_word {c : Token} (hc : isCommandWord c = true) : isWord c = true := by
  cases c <;> first | rfl | exact absurd hc (by decide)

/-! ### The array -/

/-- The calls of the actions that make the array of the words: the last word and the `NULL` first. -/
def argumentCalls : List Str → List (Op (Option Str))
  | [] => []
  | [v] => [.pushFront (some v), .pushBack none]
  | v :: vs => argumentCalls vs ++ [.pushFront (some v)]

theorem seqRun_append {β : Type} : ∀ {ops ops' : List (Op β × Bool)} {l l' l'' : List β}
    {rs rs' : List (Reply β)}, seqRun ops l = some (rs, l') → seqRun ops' l' = some (rs', l'') →
    seqRun (ops ++ ops') l = some (rs ++ rs', l'')
  | [], ops', l, l', l'', rs, rs', h, h' => by
    obtain ⟨rfl, rfl⟩ := Prod.mk.inj (Option.some.inj h)
    exact h'
  | (op, granted) :: ops, ops', l, l', l'', rs, rs', h, h' => by
    obtain ⟨⟨r, l₁⟩, hstep, hrest⟩ := Option.bind_eq_some_iff.mp h
    obtain ⟨⟨rs₁, l₂⟩, hrun, hret⟩ := Option.bind_eq_some_iff.mp hrest
    obtain ⟨rfl, rfl⟩ := Prod.mk.inj (Option.some.inj hret)
    rw [List.cons_append, seqRun, hstep]
    simp only [Option.bind_eq_bind, Option.bind_some, seqRun_append hrun h']
    rfl

/-- The sequence that the calls make. -/
theorem seqRun_argumentCalls : ∀ {words : List Str} {ops : List (Op (Option Str) × Bool)}, words ≠ [] →
    ops.map Prod.fst = argumentCalls words →
    ∃ rs, seqRun ops [] = some (rs, words.map some ++ [none])
  | [], _, hne, _ => absurd rfl hne
  | [v], ops, _, h => by
    obtain ⟨⟨_, g₁⟩, ops, rfl, rfl, h₁⟩ := List.map_eq_cons_iff.mp h
    obtain ⟨⟨_, g₂⟩, ops, rfl, rfl, h₂⟩ := List.map_eq_cons_iff.mp h₁
    obtain rfl := List.map_eq_nil_iff.mp h₂
    exact ⟨_, rfl⟩
  | v :: v' :: vs, ops, _, h => by
    obtain ⟨ops₁, ops₂, rfl, h₁, h₂⟩ := List.map_eq_append_iff.mp h
    obtain ⟨⟨_, g⟩, ops₂, rfl, rfl, h₃⟩ := List.map_eq_cons_iff.mp h₂
    obtain rfl := List.map_eq_nil_iff.mp h₃
    obtain ⟨rs, hseq⟩ := seqRun_argumentCalls (List.cons_ne_nil v' vs) h₁
    exact ⟨_, seqRun_append hseq rfl⟩

/-- **The array of arguments** holds the words in order and then `NULL`, whatever memory is granted for
the queue of capacity one. -/
theorem arguments_array {words : List Str} (hne : words ≠ []) {granted : Bool}
    {d₀ : Deque (Option Str)} {ops : List (Op (Option Str) × Bool)}
    (hnew : newDeque (Option Str) 8 granted 1 = .ok d₀) (hops : ops.map Prod.fst = argumentCalls words)
    (hserved : AllServed 8 ops d₀) : ∃ rs d, run 8 ops d₀ = .ok (rs, d) ∧
      ∀ g, (alloc (Option Str) 8 g d.cap).isSome → ∃ array,
        d.asArray 8 g = .ok (array, words.length + 1, d.cleared) ∧
        array.take (words.length + 1) = (words.map some ++ [none]).map some := by
  obtain ⟨rs, hseq⟩ := seqRun_argumentCalls hne hops
  obtain ⟨d, hrun, -, -, -, -, -, -, harray⟩ :=
    sequence (by decide) (by decide) (.inl hnew) hserved hseq
  simp only [List.length_append, List.length_map, List.length_singleton] at harray
  exact ⟨rs, d, hrun, harray⟩

/-! ### A line of words -/

/-- **Which words can be arguments.** A line of a command word and argument words is one command with the
values of the words, in order, if and only if no argument is the keyword `echo` and the quotations of all
words end; the array of the words is the one of `arguments_array`. -/
theorem arguments_iff {c : Token} {ws : List Token} (hc : isCommandWord c = true)
    (hws : ∀ w ∈ ws, isWord w = true) :
    ((∃ v vs, wordValue env c = some v ∧ Values env ws vs ∧ ∀ rest,
        yyparse env realpath (c :: ws ++ .eocTok :: rest) =
          .done false (some [cmdTop (command c v vs) noRedirect false]) rest) ↔
      .echoTok ∉ ws ∧ ∀ s, .str s ∈ c :: ws → Balanced s) ∧
    ∀ (words : List Str) (granted : Bool) (d₀ : Deque (Option Str)) (ops : List (Op (Option Str) × Bool)),
      words ≠ [] → newDeque (Option Str) 8 granted 1 = .ok d₀ → ops.map Prod.fst = argumentCalls words →
      AllServed 8 ops d₀ → ∃ rs d, run 8 ops d₀ = .ok (rs, d) ∧
        ∀ g, (alloc (Option Str) 8 g d.cap).isSome → ∃ array,
          d.asArray 8 g = .ok (array, words.length + 1, d.cleared) ∧
          array.take (words.length + 1) = (words.map some ++ [none]).map some := by
  refine ⟨?_, fun words granted d₀ ops hne hnew hops hserved => arguments_array hne hnew hops hserved⟩
  have hall : ∀ w ∈ c :: ws, isWord w = true := List.forall_mem_cons.mpr ⟨commandWord_word hc, hws⟩
  have hline : .eocTok ∉ c :: ws := fun hmem => word_eoc (hall _ hmem) rfl
  have hvalues : (∀ w ∈ c :: ws, (wordValue env w).isSome) ↔ ∀ s, .str s ∈ c :: ws → Balanced s :=
    ⟨fun h s hs => (wordValue_isSome (hall _ hs)).mp (h _ hs) s rfl,
      fun h w hw => (wordValue_isSome (hall w hw)).mpr fun s he => h s (he ▸ hw)⟩
  constructor
  · rintro ⟨v, vs, hv, hvs, hparse⟩
    refine ⟨fun hecho => ?_, hvalues.mp (values_isSome (.cons hv hvs))⟩
    have hdone := hparse []
    rw [yyparse_line hline] at hdone
    have hargs : cmdArguments env ws = .abort ∨ ∃ vs ts, cmdArguments env ws = .ok vs (.echoTok :: ts) :=
      cmdArguments_echo hws hecho
    rcases hargs with h | ⟨us, ts, h⟩
    · have hverdict : verdict env realpath (c :: ws) = .abort := by
        rw [verdict, List.length_cons, parseCmds, parseCmdTop, cmdContent_word hc hv, h]
        rfl
      simp [hverdict, parsed] at hdone
    · have hcontent : cmdContent env realpath (c :: ws) = .ok (command c v us) (.echoTok :: ts) := by
        rw [cmdContent_word hc hv, h]
        rfl
      simp [verdict_more (List.cons_ne_nil c ws) hcontent, parsed] at hdone
  · rintro ⟨hecho, hstr⟩
    obtain ⟨v, hv⟩ := Option.isSome_iff_exists.mp (hvalues.mpr hstr c List.mem_cons_self)
    obtain ⟨vs, hvs⟩ := exists_values fun w hw => hvalues.mpr hstr w (List.mem_cons_of_mem _ hw)
    refine ⟨v, vs, hv, hvs, fun rest => ?_⟩
    have hcontent : cmdContent env realpath (c :: ws) = .ok (command c v vs) [] := by
      rw [cmdContent_word hc hv, cmdArguments_values hws hecho hvs]
      rfl
    rw [yyparse_line hline, verdict_command (List.cons_ne_nil c ws) hcontent]
    rfl

/-- The line `ls cd 'x y' 7`. -/
theorem arguments_iff_four : ∃ v vs, wordValue (fun _ => none) (.id "ls".toList) = some v ∧
    Values (fun _ => none) [.cdTok, .str "'x y'".toList, .num ['7']] vs ∧
    ∃ rest, yyparse (fun _ => none) (fun _ => none)
      (.id "ls".toList :: [.cdTok, .str "'x y'".toList, .num ['7']] ++ .eocTok :: rest) =
      .done false (some [cmdTop (command (.id "ls".toList) v vs) noRedirect false]) rest := by
  have hquotation : Quotation ['x', '\x20', 'y'] := ⟨by simp, by simp⟩
  have hbalanced : Balanced "'x y'".toList := .quote hquotation .nil
  have hstr : ∀ s, Token.str s ∈ .id "ls".toList :: [.cdTok, .str "'x y'".toList, .num ['7']] →
      Balanced s := fun s hs => by
    simp only [List.mem_cons, List.not_mem_nil, reduceCtorEq, Token.str.injEq, false_or, or_false] at hs
    exact hs ▸ hbalanced
  obtain ⟨v, vs, hv, hvs, h⟩ := (arguments_iff rfl (by decide)).1.mpr ⟨by decide, hstr⟩
  exact ⟨v, vs, hv, hvs, [], h []⟩

/-- The line `ls echo`. -/
theorem arguments_iff_echo : lex "ls echo\n".toList = [.id "ls".toList, .echoTok, .eocTok] ∧
    yyparse (fun _ => none) (fun _ => none) [.id "ls".toList, .echoTok, .eocTok] = .done false none [] ∧
    ∃ v vs, wordValue (fun _ => none) (.id "ls".toList) = some v ∧ Values (fun _ => none) [.echoTok] vs :=
  ⟨by decide, by decide, _, _, rfl, .cons rfl .nil⟩

end Eecs678.Quash.Arguments
