import Mathlib.Data.List.ReduceOption
import Eecs678.Quash.Lines
import Eecs678.Quash.ParseTab

/-!
# The generated parser is the grammar

Each nonterminal is read by the automaton of `parse.tab.c` as its function of `Quash.Parser` reads it: the
states in which it can begin are followed through the tables, by induction on the tokens where the rules
are recursive. `Reaches` compares the status of the automaton with the outcome of the function: the value
on the stack, an error at a token with the bottom of the stack below it, or a failed assertion.
`recover_leads` is the recovery from an error, and `yyparse_refines` the whole parse.
-/

namespace Eecs678.Quash.ParseRefines

open Eecs678.Lib.Machine Eecs678.Lib.TableParser Eecs678.Quash.Commands Eecs678.Quash.Actions
open Eecs678.Quash.Execute Eecs678.Quash.Lexer Eecs678.Quash.Words Eecs678.Quash.Parser
open Eecs678.Quash.Lines Eecs678.Quash.ParseTab

variable {β γ : Type} {env realpath : Str → Option Str} {q : ℕ} {x : Value} {stack : List (ℕ × Value)}

/-! ### Outcomes -/

/-- When a state on top of the stack cannot go on, all is popped down to the first state. -/
def Bottom (stack : List (ℕ × Value)) : Prop := popToError tables stack = some (1, [(0, .unset)])

theorem bottom_cons {v : Value} (h : Bottom stack) (hq : tables.errorShift q = none) :
    Bottom ((q, v) :: stack) := by
  unfold Bottom popToError
  rw [hq]
  exact h

/-- The automaton has found an error at the tokens that are left. -/
def Stuck (rest : List Token) (s : Status Token Value Result) : Prop :=
  ∃ stack, Bottom stack ∧ top stack ≠ 35 ∧ tables.action (top stack) (yytranslate rest.head?) = .error ∧
    At stack rest s

/-- The automaton has come to the outcome, with the value in its place on the stack. -/
def Reaches (target : β → List (ℕ × Value)) : Outcome β → Status Token Value Result → Prop
  | .ok value rest, s => At (target value) rest s
  | .error rest, s => Stuck rest s
  | .abort, s => s = .crashed

/-- The automaton runs from the stack and the tokens. -/
abbrev Runs (env realpath : Str → Option Str) (stack : List (ℕ × Value)) (tokens : List Token)
    (P : Status Token Value Result → Prop) : Prop :=
  Leads tables (semantics env realpath) stack tokens P

variable {tokens : List Token} {P : Status Token Value Result → Prop}

theorem runs_bind {target : β → List (ℕ × Value)} {target' : γ → List (ℕ × Value)} {x : Outcome β}
    {f : β → List Token → Outcome γ} (h : Runs env realpath stack tokens (Reaches target x))
    (hf : ∀ value rest, x = .ok value rest →
      Runs env realpath (target value) rest (Reaches target' (f value rest))) :
    Runs env realpath stack tokens (Reaches target' (x.bind f)) := by
  cases x with
  | ok value rest => exact leads_trans h (hf value rest rfl)
  | error rest => exact h
  | abort => exact h

theorem runs_map {target : β → List (ℕ × Value)} {target' : γ → List (ℕ × Value)} {x : Outcome β}
    {f : β → γ} (h : Runs env realpath stack tokens (Reaches target x))
    (hf : ∀ value rest, Runs env realpath (target value) rest (At (target' (f value)) rest)) :
    Runs env realpath stack tokens (Reaches target' (x.map f)) :=
  runs_bind h fun value rest _ => hf value rest

theorem runs_stuck {v : Value} (hbottom : Bottom ((q, v) :: stack)) (hq : q ≠ 35)
    (h : tables.action q (yytranslate tokens.head?) = .error) :
    Runs env realpath ((q, v) :: stack) tokens (Stuck tokens) := fun peeked =>
  eventually_now ⟨_, hbottom, hq, h, peeked, rfl⟩

/-- A reduction by a rule, whose values lie above the rest of the stack. -/
theorem runs_reduce (above : List (ℕ × Value)) {q q' n : ℕ} {v v' : Value} (hq : q ≠ 35)
    (h : tables.action q (yytranslate tokens.head?) = .reduce n)
    (hlen : tables.r2.getD n 0 = above.length + 1)
    (hact : reduce env realpath n (v :: (above ++ stack).map Prod.snd) = .value v')
    (hgoto : tables.goto n (top stack) = q') :
    Runs env realpath ((q, v) :: (above ++ stack)) tokens (At ((q', v') :: stack) tokens) := by
  have hrun : Runs env realpath ((q, v) :: (above ++ stack)) tokens (At (_ :: _) tokens) :=
    leads_reduce hq h hact
  have hdrop : ((q, v) :: (above ++ stack)).drop (tables.r2.getD n 0) = stack := by
    rw [hlen, List.drop_succ_cons, List.drop_left]
  rw [hdrop, hgoto] at hrun
  exact hrun

/-- A reduction by a rule with one symbol, whatever comes next. -/
theorem runs_unit {q q' n : ℕ} {v v' : Value} (hq : q ≠ 35) (h : ∀ token, tables.action q token = .reduce n)
    (hlen : tables.r2.getD n 0 = 1)
    (hact : reduce env realpath n (v :: stack.map Prod.snd) = .value v')
    (hgoto : tables.goto n (top stack) = q') :
    Runs env realpath ((q, v) :: stack) tokens (At ((q', v') :: stack) tokens) :=
  runs_reduce [] hq (h _) hlen hact hgoto

/-! ### Strings -/

/-- The states in which a string can begin. -/
def strStates : List ℕ := [2, 4, 19, 29, 44, 47]

/-- The tokens that are a string. -/
def strSymbols : List ℕ := [12, 13, 14, 15, 16, 18, 19, 20, 21, 22]

theorem strStates_default : ∀ q ∈ strStates, q ≠ 35 ∧ ∀ token < 23, token ∉ strSymbols →
    tables.action q token = tables.default q := by
  decide

/-- The symbol of a token that is a string, the state behind it, the rule for it, the state after that and
the rule for the string. -/
structure Leaf (k q₁ n q₂ m : ℕ) : Prop where
  states : ∀ q ∈ strStates, tables.action q k = .shift q₁ ∧ tables.goto n q = q₂ ∧
    tables.goto m q = tables.goto 33 q
  first : q₁ ≠ 35 ∧ tables.blind q₁ ∧ tables.default q₁ = .reduce n ∧ tables.r2.getD n 0 = 1
  second : q₂ ≠ 35 ∧ tables.blind q₂ ∧ tables.default q₂ = .reduce m ∧ tables.r2.getD m 0 = 1

theorem action_blind (hq : tables.blind q) (token : ℕ) : tables.action q token = tables.default q := by
  unfold Tables.action
  rw [if_pos hq]

theorem leaf_leads {t : Token} {k q₁ n q₂ m : ℕ} {v : Str} (hq : q ∈ strStates) (hleaf : Leaf k q₁ n q₂ m)
    (hk : yytranslate (some t) = k) (hact : reduce env realpath n (yylval (some t) :: x :: stack.map Prod.snd) =
      .value (.str v)) (hact' : reduce env realpath m (.str v :: x :: stack.map Prod.snd) = .value (.str v)) :
    Runs env realpath ((q, x) :: stack) (t :: tokens)
      (At ((tables.goto 33 q, .str v) :: (q, x) :: stack) tokens) := by
  obtain ⟨hshift, hgoto, hgoto'⟩ := hleaf.states q hq
  obtain ⟨hne, hblind, hdefault, hlen⟩ := hleaf.first
  obtain ⟨hne', hblind', hdefault', hlen'⟩ := hleaf.second
  refine leads_trans (leads_shift (strStates_default q hq).1 (hk ▸ hshift)) ?_
  refine leads_trans (runs_unit hne (fun token => (action_blind hblind token).trans hdefault) hlen hact hgoto) ?_
  exact runs_unit hne' (fun token => (action_blind hblind' token).trans hdefault') hlen' hact' hgoto'

theorem leaf_export : Leaf 12 22 35 30 34 := ⟨by decide, by decide, by decide⟩

theorem leaf_cd : Leaf 13 23 36 30 34 := ⟨by decide, by decide, by decide⟩

theorem leaf_pwd : Leaf 14 24 38 30 34 := ⟨by decide, by decide, by decide⟩

theorem leaf_jobs : Leaf 15 25 39 30 34 := ⟨by decide, by decide, by decide⟩

theorem leaf_kill : Leaf 16 26 37 30 34 := ⟨by decide, by decide, by decide⟩

theorem leaf_exit : Leaf 22 27 40 30 34 := ⟨by decide, by decide, by decide⟩

theorem leaf_str : Leaf 18 9 41 31 33 := ⟨by decide, by decide, by decide⟩

theorem leaf_simStr : Leaf 19 10 42 31 33 := ⟨by decide, by decide, by decide⟩

theorem leaf_id : Leaf 20 11 44 31 33 := ⟨by decide, by decide, by decide⟩

theorem leaf_num : Leaf 21 12 43 31 33 := ⟨by decide, by decide, by decide⟩

theorem reduce_str (env realpath : Str → Option Str) (s : Str) (vs : List Value) : reduce env realpath 41 (.str s :: vs) =
    orCrash ((interpretComplexStringToken env s).map .str) := rfl

/-- `string`, of a token that is one. -/
theorem string_leads (hq : q ∈ strStates) {t : Token} {v : Str} (h : string env t = some (some v)) :
    Runs env realpath ((q, x) :: stack) (t :: tokens)
      (At ((tables.goto 33 q, .str v) :: (q, x) :: stack) tokens) := by
  cases t with
  | exportTok =>
    cases h
    exact leaf_leads hq leaf_export rfl rfl rfl
  | cdTok =>
    cases h
    exact leaf_leads hq leaf_cd rfl rfl rfl
  | pwdTok =>
    cases h
    exact leaf_leads hq leaf_pwd rfl rfl rfl
  | jobsTok =>
    cases h
    exact leaf_leads hq leaf_jobs rfl rfl rfl
  | killTok =>
    cases h
    exact leaf_leads hq leaf_kill rfl rfl rfl
  | exitTok s =>
    cases h
    exact leaf_leads hq leaf_exit rfl rfl rfl
  | num s =>
    cases h
    exact leaf_leads hq leaf_num rfl rfl rfl
  | id s =>
    cases h
    exact leaf_leads hq leaf_id rfl rfl rfl
  | simStr s =>
    cases h
    exact leaf_leads hq leaf_simStr rfl rfl rfl
  | str s =>
    simp only [string, firstString, Option.some.injEq] at h
    refine leaf_leads hq leaf_str rfl ?_ rfl
    rw [yylval, reduce_str, h]
    rfl
  | _ => cases h

/-- The assertion of an escaped string fails. -/
theorem string_crash (hq : q ∈ strStates) {t : Token} (h : string env t = some none) :
    Runs env realpath ((q, x) :: stack) (t :: tokens) (· = .crashed) := by
  cases t with
  | str s =>
    simp only [string, firstString, Option.some.injEq] at h
    obtain ⟨hshift, -, -⟩ := leaf_str.states q hq
    refine leads_trans (leads_shift (strStates_default q hq).1 hshift) ?_
    refine leads_crash (n := 41) (by decide) rfl ?_
    have hact := reduce_str env realpath s (((q, x) :: stack).map Prod.snd)
    rw [h] at hact
    exact hact
  | _ => cases h

theorem symbol_string {t : Token} (h : string env t = none) : yytranslate (some t) ∉ strSymbols := by
  cases t with
  | exportTok => cases h
  | cdTok => cases h
  | pwdTok => cases h
  | jobsTok => cases h
  | killTok => cases h
  | exitTok s => cases h
  | num s => cases h
  | id s => cases h
  | simStr s => cases h
  | str s => cases h
  | _ => exact (by decide)

/-- Where no string comes, the state does what it does by default. -/
theorem action_noString (hq : q ∈ strStates) (h : ∀ t ∈ tokens.head?, string env t = none) :
    tables.action q (yytranslate tokens.head?) = tables.default q := by
  refine (strStates_default q hq).2 _ (symbol_lt _) ?_
  cases tokens with
  | nil => exact (by decide)
  | cons t tokens => exact symbol_string (h t rfl)

/-- The states in which `cmd_arguments` can begin. -/
def argStates : List ℕ := [2, 19, 29]

theorem argStates_goto : ∀ q ∈ argStates, q ∈ strStates ∧ tables.goto 33 q = 29 ∧
    tables.goto 32 q = tables.goto 31 q := by
  decide

/-- The value of `cmd_arguments`. -/
def argsValue (strs : List Str) : Value := .cmdStrs (strs.map some ++ [none])

/-- `cmd_arguments`, where there are some. -/
theorem args_leads : ∀ {tokens : List Token} {q : ℕ} {x : Value} {stack : List (ℕ × Value)} {t : Token},
    q ∈ argStates → string env t ≠ none →
    Runs env realpath ((q, x) :: stack) (t :: tokens)
      (Reaches (fun strs => (tables.goto 31 q, argsValue strs) :: (q, x) :: stack)
        (cmdArguments env (t :: tokens)))
  | tokens, q, x, stack, t, hq, ht => by
    obtain ⟨hstr, hgoto, hgoto'⟩ := argStates_goto q hq
    unfold cmdArguments
    rcases hs : string env t with _ | _ | v
    · exact absurd hs ht
    · exact string_crash hstr hs
    · have hshift : Runs env realpath ((q, x) :: stack) (t :: tokens)
          (At ((29, .str v) :: (q, x) :: stack) tokens) :=
        hgoto ▸ string_leads hstr hs
      have hlast : (∀ u ∈ tokens.head?, string env u = none) →
          Runs env realpath ((q, x) :: stack) (t :: tokens)
            (At ((tables.goto 31 q, argsValue [v]) :: (q, x) :: stack) tokens) := fun hnone =>
        leads_trans hshift (leads_reduce (n := 31) (by decide)
          (action_noString (by decide) hnone) rfl)
      cases tokens with
      | nil => exact hlast fun u hu => absurd hu (by simp)
      | cons u tokens =>
        by_cases hu : string env u = none
        · have hrest : cmdArguments env (u :: tokens) = .ok [] (u :: tokens) := by
            rw [cmdArguments, hu]
          simp only [hrest]
          refine hlast fun w hw => ?_
          cases hw
          exact hu
        · refine runs_map (leads_trans hshift (args_leads (by decide) hu)) fun strs rest => ?_
          exact runs_reduce [(29, .str v)] (n := 32) (by decide) rfl rfl rfl hgoto'

/-- `string`, where nothing else can come. -/
theorem expectString_leads (hq : q = 44 ∨ q = 47) (hbottom : Bottom ((q, x) :: stack)) :
    Runs env realpath ((q, x) :: stack) tokens
      (Reaches (fun str => (tables.goto 33 q, .str str) :: (q, x) :: stack) (expectString env tokens)) := by
  have hstr : q ∈ strStates := by
    rcases hq with rfl | rfl <;> decide
  have herror : q ≠ 35 ∧ tables.default q = .error := by
    rcases hq with rfl | rfl <;> decide
  have hstuck : (∀ t ∈ tokens.head?, string env t = none) →
      Runs env realpath ((q, x) :: stack) tokens (Stuck tokens) := fun hnone =>
    runs_stuck hbottom herror.1 ((action_noString hstr hnone).trans herror.2)
  cases tokens with
  | nil => exact hstuck fun t ht => absurd ht (by simp)
  | cons t tokens =>
    rw [expectString]
    rcases hs : string env t with _ | _ | v
    · refine hstuck fun u hu => ?_
      cases hu
      exact hs
    · exact string_crash hstr hs
    · exact string_leads hstr hs

/-! ### Redirections and `&` -/

/-- The states in which `redir_inner` can begin. -/
def redirStates : List ℕ := [17, 52]

theorem redirStates_default : ∀ q ∈ redirStates, q ≠ 35 ∧ ∀ token < 23, token ∉ [7, 8, 9] →
    tables.action q token = tables.default q := by
  decide

theorem redirStates_shift : ∀ q ∈ redirStates, tables.action q 7 = .shift 39 ∧
    tables.action q 8 = .shift 40 ∧ tables.action q 9 = .shift 41 ∧
    (∀ n ∈ [24, 25, 26], tables.goto n q = 44) ∧ tables.goto 22 q = tables.goto 23 q := by
  decide

theorem mark_leads (hq : q ∈ redirStates) {t : Token} {mark : RedirMark} (h : redirMark t = some mark) :
    Runs env realpath ((q, x) :: stack) (t :: tokens) (At ((44, .mark mark) :: (q, x) :: stack) tokens) := by
  obtain ⟨h7, h8, h9, hgoto, -⟩ := redirStates_shift q hq
  have hne := (redirStates_default q hq).1
  cases t with
  | redirIn =>
    cases h
    exact leads_trans (leads_shift hne h7)
      (runs_unit (n := 24) (by decide) (fun _ => rfl) rfl rfl (hgoto 24 (by decide)))
  | redirOut =>
    cases h
    exact leads_trans (leads_shift hne h8)
      (runs_unit (n := 25) (by decide) (fun _ => rfl) rfl rfl (hgoto 25 (by decide)))
  | redirOutApp =>
    cases h
    exact leads_trans (leads_shift hne h9)
      (runs_unit (n := 26) (by decide) (fun _ => rfl) rfl rfl (hgoto 26 (by decide)))
  | _ => cases h

theorem action_noMark (hq : q ∈ redirStates) (h : ∀ t ∈ tokens.head?, redirMark t = none) :
    tables.action q (yytranslate tokens.head?) = tables.default q := by
  refine (redirStates_default q hq).2 _ (symbol_lt _) ?_
  cases tokens with
  | nil => exact (by decide)
  | cons t tokens =>
    have ht := h t rfl
    cases t with
    | redirIn => cases ht
    | redirOut => cases ht
    | redirOutApp => cases ht
    | _ => simp only [List.head?_cons, yytranslate, List.mem_cons, List.not_mem_nil, Nat.reduceEqDiff,
        or_self, not_false_eq_true]

/-- `redir_inner`, where there is one. -/
theorem redirInner_leads : ∀ (n : ℕ) {tokens : List Token} {q : ℕ} {x : Value} {stack : List (ℕ × Value)}
    {t : Token}, tokens.length ≤ n → q ∈ redirStates → Bottom ((q, x) :: stack) → redirMark t ≠ none →
    Runs env realpath ((q, x) :: stack) (t :: tokens)
      (Reaches (fun red => (tables.goto 23 q, .redirect red) :: (q, x) :: stack) (redir env (t :: tokens)))
  | n, tokens, q, x, stack, t, hn, hq, hbottom, ht => by
    obtain ⟨mark, hmark⟩ := Option.ne_none_iff_exists'.mp ht
    have hstart : Runs env realpath ((q, x) :: stack) (t :: tokens)
        (At ((44, .mark mark) :: (q, x) :: stack) tokens) := mark_leads hq hmark
    have hbottom' : Bottom ((44, .mark mark) :: (q, x) :: stack) := bottom_cons hbottom (by decide)
    have hstr : 44 ∈ strStates := by decide
    have hstuck : (∀ u ∈ tokens.head?, string env u = none) →
        Runs env realpath ((q, x) :: stack) (t :: tokens) (Stuck tokens) := fun hnone =>
      leads_trans hstart (runs_stuck hbottom' (by decide) (action_noString hstr hnone))
    rcases tokens with _ | ⟨u, tokens⟩
    · rw [redir, hmark]
      exact hstuck fun u hu => absurd hu (by simp)
    · rw [redir, hmark]
      rcases hs : string env u with _ | _ | file
      · refine hstuck fun w hw => ?_
        cases hw
        exact hs
      · exact leads_trans hstart (string_crash hstr hs)
      · have hfile : Runs env realpath ((q, x) :: stack) (t :: u :: tokens)
            (At ((52, .str file) :: (44, .mark mark) :: (q, x) :: stack) tokens) :=
          leads_trans hstart (string_leads hstr hs)
        have hlast : (∀ w ∈ tokens.head?, redirMark w = none) →
            Runs env realpath ((q, x) :: stack) (t :: u :: tokens)
              (At ((tables.goto 23 q, .redirect (lastRedirect mark file)) :: (q, x) :: stack) tokens) :=
          fun hnone => leads_trans hfile (leads_reduce (n := 23) (by decide)
            (action_noMark (by decide) hnone) rfl)
        rcases tokens with _ | ⟨w, tokens⟩
        · exact hlast fun w hw => absurd hw (by simp)
        · by_cases hw : redirMark w = none
          · simp only [hw, Option.isSome_none, Bool.false_eq_true, if_false]
            refine hlast fun w' hw' => ?_
            cases hw'
            exact hw
          · have hsome : (redirMark w).isSome := Option.isSome_iff_ne_none.mpr hw
            simp only [hsome, if_true]
            cases n with
            | zero => exact absurd hn (by simp)
            | succ n =>
              have hbottom'' : Bottom ((52, .str file) :: (44, .mark mark) :: (q, x) :: stack) :=
                bottom_cons hbottom' (by decide)
              have hlen : tokens.length ≤ n := by
                simp only [List.length_cons] at hn
                omega
              refine runs_map (leads_trans hfile (redirInner_leads n hlen (by decide) hbottom'' hw))
                fun red rest => ?_
              exact runs_reduce [(52, .str file), (44, .mark mark)] (n := 22) (by decide) rfl rfl rfl
                (redirStates_shift q hq).2.2.2.2

/-- `redir`, after `cmd_content`. -/
theorem redir_leads (hbottom : Bottom ((17, x) :: stack)) :
    Runs env realpath ((17, x) :: stack) tokens
      (Reaches (fun red => (42, .redirect red) :: (17, x) :: stack) (redir env tokens)) := by
  have hnone : (∀ t ∈ tokens.head?, redirMark t = none) →
      Runs env realpath ((17, x) :: stack) tokens
        (At ((42, .redirect noRedirect) :: (17, x) :: stack) tokens) := fun h =>
    leads_reduce (n := 21) (by decide) (action_noMark (by decide) h) rfl
  rcases tokens with _ | ⟨t, tokens⟩
  · exact hnone fun t ht => absurd ht (by simp)
  · by_cases ht : redirMark t = none
    · have hredir : redir env (t :: tokens) = .ok noRedirect (t :: tokens) := by
        cases tokens with
        | nil => rw [redir, ht]
        | cons u tokens => rw [redir, ht]
      rw [hredir]
      refine hnone fun u hu => ?_
      cases hu
      exact ht
    · have hinner : Runs env realpath ((17, x) :: stack) (t :: tokens)
          (Reaches (fun red => (43, .redirect red) :: (17, x) :: stack) (redir env (t :: tokens))) :=
        redirInner_leads tokens.length le_rfl (by decide) hbottom ht
      have hmap : redir env (t :: tokens) = (redir env (t :: tokens)).map id := by
        cases redir env (t :: tokens) <;> rfl
      rw [hmap]
      exact runs_map hinner fun red rest => leads_reduce (n := 20) (by decide) rfl rfl

/-- `cmd_bg`, and the whole of `cmd_top`. -/
theorem cmdBg_leads {p : ℕ} (hp : p = 0 ∨ p = 38) {red : Redirect} {cmd : Command} :
    Runs env realpath ((42, .redirect red) :: (17, .cmd cmd) :: (p, x) :: stack) tokens
      (Reaches (fun holder => (16, .holder holder) :: (p, x) :: stack)
        ((cmdBg tokens).map fun bg => cmdTop cmd red bg)) := by
  have hgoto : tables.goto 9 (top ((p, x) :: stack)) = 16 := by
    rcases hp with rfl | rfl <;> rfl
  have hdone : ∀ (bg : Bool) (rest : List Token),
      Runs env realpath ((51, .background bg) :: (42, .redirect red) :: (17, .cmd cmd) :: (p, x) :: stack) rest
        (At ((16, .holder (cmdTop cmd red bg)) :: (p, x) :: stack) rest) := by
    intro bg rest
    rw [← hgoto]
    exact leads_reduce (n := 9) (by decide) rfl rfl
  have hempty : tables.action 42 (yytranslate tokens.head?) = .reduce 27 →
      Runs env realpath ((42, .redirect red) :: (17, .cmd cmd) :: (p, x) :: stack) tokens
        (At ((16, .holder (cmdTop cmd red false)) :: (p, x) :: stack) tokens) := fun h =>
    leads_trans (leads_reduce (n := 27) (by decide) h rfl) (hdone false tokens)
  rcases tokens with _ | ⟨t, tokens⟩
  · exact hempty rfl
  · cases t with
    | bckgrnd =>
      have hshift : Runs env realpath ((42, .redirect red) :: (17, .cmd cmd) :: (p, x) :: stack)
          (.bckgrnd :: tokens) (At ((50, .unset) :: (42, .redirect red) :: (17, .cmd cmd) :: (p, x) :: stack) tokens) :=
        leads_shift (by decide) rfl
      exact leads_trans hshift (leads_trans (leads_reduce (n := 28) (by decide) rfl rfl) (hdone true tokens))
    | _ => exact hempty rfl

/-! ### Commands -/

theorem asArray_args (strs : List Str) : asArray (strs.map some ++ [none]) = strs := by
  induction strs with
  | nil => rfl
  | cons str strs ih =>
    unfold asArray at ih ⊢
    rw [List.map_cons, List.cons_append, List.takeWhile_cons, if_pos (Option.isSome_some),
      List.reduceOption_cons_of_some, ih]

/-- The states in which a command can begin. -/
def cmdStates : List ℕ := [0, 38]

/-- What begins a command, with the state behind it. -/
theorem cmdStates_shift : ∀ p ∈ cmdStates, tables.action p 11 = .shift 2 ∧ tables.action p 12 = .shift 3 ∧
    tables.action p 13 = .shift 4 ∧ tables.action p 14 = .shift 5 ∧ tables.action p 15 = .shift 6 ∧
    tables.action p 16 = .shift 7 ∧ tables.action p 18 = .shift 9 ∧ tables.action p 19 = .shift 10 ∧
    tables.action p 20 = .shift 11 ∧ tables.action p 21 = .shift 12 ∧ tables.action p 22 = .shift 13 := by
  decide

theorem cmdStates_goto : ∀ p ∈ cmdStates, p ≠ 35 ∧ (∀ n < 20, 10 ≤ n → tables.goto n p = 17) ∧
    (∀ n ∈ [41, 42, 43, 44], tables.goto n p = 19) ∧ (∀ n ∈ [29, 30], tables.goto n p = 18) := by
  decide

/-- What no command begins with. -/
theorem cmdStates_error : ∀ p ∈ cmdStates, ∀ token ∈ [3, 4, 6, 7, 8, 9, 10],
    tables.action p token = .error := by
  decide

variable {p : ℕ}

/-- A reduction to `cmd_content`. -/
theorem content_leads (above : List (ℕ × Value)) (hp : p ∈ cmdStates) {v : Value} {n : ℕ} {cmd : Command}
    (hq : q ≠ 35) (hn : 10 ≤ n ∧ n < 20) (h : tables.action q (yytranslate tokens.head?) = .reduce n)
    (hlen : tables.r2.getD n 0 = above.length + 1)
    (hact : reduce env realpath n (v :: (above ++ (p, x) :: stack).map Prod.snd) = .value (.cmd cmd)) :
    Runs env realpath ((q, v) :: (above ++ (p, x) :: stack)) tokens
      (At ((17, .cmd cmd) :: (p, x) :: stack) tokens) :=
  runs_reduce above hq h hlen hact ((cmdStates_goto p hp).2.1 n hn.2 hn.1)

/-- `first_string` at the start of a command. -/
theorem first_leads (hp : p ∈ cmdStates) {t : Token} {v : Str} (h : firstString env t = some (some v)) :
    Runs env realpath ((p, x) :: stack) (t :: tokens)
      (At ((19, .str v) :: (p, x) :: stack) tokens) := by
  obtain ⟨-, -, -, -, -, -, h18, h19, h20, h21, -⟩ := cmdStates_shift p hp
  obtain ⟨hne, -, hgoto, -⟩ := cmdStates_goto p hp
  cases t with
  | str s =>
    simp only [firstString, Option.some.injEq] at h
    refine leads_trans (leads_shift hne h18) (runs_unit (n := 41) (by decide) (fun _ => rfl) rfl ?_
      (hgoto 41 (by decide)))
    have hact := reduce_str env realpath s (((p, x) :: stack).map Prod.snd)
    rw [h] at hact
    exact hact
  | simStr s =>
    cases h
    exact leads_trans (leads_shift hne h19)
      (runs_unit (n := 42) (by decide) (fun _ => rfl) rfl rfl (hgoto 42 (by decide)))
  | num s =>
    cases h
    exact leads_trans (leads_shift hne h21)
      (runs_unit (n := 43) (by decide) (fun _ => rfl) rfl rfl (hgoto 43 (by decide)))
  | id s =>
    cases h
    exact leads_trans (leads_shift hne h20)
      (runs_unit (n := 44) (by decide) (fun _ => rfl) rfl rfl (hgoto 44 (by decide)))
  | _ => cases h

theorem first_crash (hp : p ∈ cmdStates) {t : Token} (h : firstString env t = some none) :
    Runs env realpath ((p, x) :: stack) (t :: tokens) (· = .crashed) := by
  obtain ⟨-, -, -, -, -, -, h18, -⟩ := cmdStates_shift p hp
  cases t with
  | str s =>
    simp only [firstString, Option.some.injEq] at h
    refine leads_trans (leads_shift (cmdStates_goto p hp).1 h18) (leads_crash (n := 41) (by decide) rfl ?_)
    have hact := reduce_str env realpath s (((p, x) :: stack).map Prod.snd)
    rw [h] at hact
    exact hact
  | _ => cases h

/-- `first_string` and `cmd_arguments`. -/
theorem generic_leads (hp : p ∈ cmdStates) {t : Token} {v : Str} (h : firstString env t = some (some v)) :
    Runs env realpath ((p, x) :: stack) (t :: tokens)
      (Reaches (fun cmd => (17, .cmd cmd) :: (p, x) :: stack)
        ((cmdArguments env tokens).map fun args => .generic (v :: args))) := by
  have hfirst : Runs env realpath ((p, x) :: stack) (t :: tokens)
      (At ((19, .str v) :: (p, x) :: stack) tokens) := first_leads hp h
  have hcmd : ∀ (strs : List Str) (rest : List Token),
      Runs env realpath ((18, argsValue (v :: strs)) :: (p, x) :: stack) rest
        (At ((17, .cmd (.generic (v :: strs))) :: (p, x) :: stack) rest) := by
    intro strs rest
    refine content_leads [] (n := 10) hp (by decide) (by decide) rfl rfl ?_
    have hact : ∀ vs, reduce env realpath 10 (argsValue (v :: strs) :: vs) =
        .value (.cmd (.generic (asArray ((v :: strs).map some ++ [none])))) := fun _ => rfl
    rw [hact, asArray_args]
  have hnone : (∀ u ∈ tokens.head?, string env u = none) →
      Runs env realpath ((p, x) :: stack) (t :: tokens)
        (At ((17, .cmd (.generic [v])) :: (p, x) :: stack) tokens) := by
    intro hnone
    exact leads_trans hfirst (leads_trans (runs_reduce [] (n := 30) (by decide)
      (action_noString (by decide) hnone) rfl rfl ((cmdStates_goto p hp).2.2.2 30 (by decide)))
      (hcmd [] tokens))
  rcases tokens with _ | ⟨u, tokens⟩
  · exact hnone fun u hu => absurd hu (by simp)
  · by_cases hu : string env u = none
    · have hrest : cmdArguments env (u :: tokens) = .ok [] (u :: tokens) := by
        rw [cmdArguments, hu]
      rw [hrest]
      refine hnone fun w hw => ?_
      cases hw
      exact hu
    · refine runs_map (leads_trans hfirst (args_leads (by decide) hu)) fun strs rest => ?_
      exact leads_trans (runs_reduce [(19, .str v)] (n := 29) (by decide) rfl rfl rfl
        ((cmdStates_goto p hp).2.2.2 29 (by decide))) (hcmd strs rest)

/-- `ECHO_TOK`, with arguments or without. -/
theorem echo_leads (hp : p ∈ cmdStates) :
    Runs env realpath ((p, x) :: stack) (.echoTok :: tokens)
      (Reaches (fun cmd => (17, .cmd cmd) :: (p, x) :: stack) ((cmdArguments env tokens).map .echo)) := by
  have hshift : Runs env realpath ((p, x) :: stack) (.echoTok :: tokens)
      (At ((2, .unset) :: (p, x) :: stack) tokens) :=
    leads_shift (cmdStates_goto p hp).1 (cmdStates_shift p hp).1
  have hnone : (∀ u ∈ tokens.head?, string env u = none) →
      Runs env realpath ((p, x) :: stack) (.echoTok :: tokens)
        (At ((17, .cmd (.echo [])) :: (p, x) :: stack) tokens) := fun h =>
    leads_trans hshift (content_leads [] (n := 11) hp (by decide) (by decide)
      (action_noString (by decide) h) rfl rfl)
  rcases tokens with _ | ⟨u, tokens⟩
  · exact hnone fun u hu => absurd hu (by simp)
  · by_cases hu : string env u = none
    · have hrest : cmdArguments env (u :: tokens) = .ok [] (u :: tokens) := by
        rw [cmdArguments, hu]
      rw [hrest]
      refine hnone fun w hw => ?_
      cases hw
      exact hu
    · refine runs_map (leads_trans hshift (args_leads (by decide) hu)) fun strs rest => ?_
      refine content_leads [(2, .unset)] (n := 12) hp (by decide) (by decide) rfl rfl ?_
      have hact : ∀ vs, reduce env realpath 12 (argsValue strs :: vs) =
          .value (.cmd (.echo (asArray (strs.map some ++ [none])))) := fun _ => rfl
      rw [hact, asArray_args]

/-- `EXPORT_TOK ID EQUALS string`. -/
theorem export_leads (hp : p ∈ cmdStates) (hbottom : Bottom ((p, x) :: stack)) :
    Runs env realpath ((p, x) :: stack) (.exportTok :: tokens)
      (Reaches (fun cmd => (17, .cmd cmd) :: (p, x) :: stack) (exportContent env tokens)) := by
  have hshift : Runs env realpath ((p, x) :: stack) (.exportTok :: tokens)
      (At ((3, .unset) :: (p, x) :: stack) tokens) :=
    leads_shift (cmdStates_goto p hp).1 (cmdStates_shift p hp).2.1
  have hbottom3 : Bottom ((3, .unset) :: (p, x) :: stack) := bottom_cons hbottom (by decide)
  rcases tokens with _ | ⟨t, tokens⟩
  · exact leads_trans hshift (runs_stuck hbottom3 (by decide) rfl)
  · cases t with
    | id envVar =>
      have hid : Runs env realpath ((p, x) :: stack) (.exportTok :: .id envVar :: tokens)
          (At ((32, .str envVar) :: (3, .unset) :: (p, x) :: stack) tokens) :=
        leads_trans hshift (leads_shift (by decide) rfl)
      have hbottom32 : Bottom ((32, .str envVar) :: (3, .unset) :: (p, x) :: stack) :=
        bottom_cons hbottom3 (by decide)
      rcases tokens with _ | ⟨u, tokens⟩
      · exact leads_trans hid (runs_stuck hbottom32 (by decide) rfl)
      · cases u with
        | equals =>
          have hequals : Runs env realpath ((p, x) :: stack) (.exportTok :: .id envVar :: .equals :: tokens)
              (At ((47, .unset) :: (32, .str envVar) :: (3, .unset) :: (p, x) :: stack) tokens) :=
            leads_trans hid (leads_shift (by decide) rfl)
          refine runs_map (leads_trans hequals (expectString_leads (Or.inr rfl)
            (bottom_cons hbottom32 (by decide)))) fun val rest => ?_
          exact content_leads [(47, .unset), (32, .str envVar), (3, .unset)] (n := 13) hp
            (by decide) (by decide) rfl rfl rfl
        | _ => exact leads_trans hid (runs_stuck hbottom32 (by decide) rfl)
    | _ => exact leads_trans hshift (runs_stuck hbottom3 (by decide) rfl)

/-- `CD_TOK`, with a directory or without. -/
theorem cd_leads (hp : p ∈ cmdStates) :
    Runs env realpath ((p, x) :: stack) (.cdTok :: tokens)
      (Reaches (fun cmd => (17, .cmd cmd) :: (p, x) :: stack) (cdContent env realpath tokens)) := by
  have hshift : Runs env realpath ((p, x) :: stack) (.cdTok :: tokens)
      (At ((4, .unset) :: (p, x) :: stack) tokens) :=
    leads_shift (cmdStates_goto p hp).1 (cmdStates_shift p hp).2.2.1
  have hnone : (∀ u ∈ tokens.head?, string env u = none) →
      Runs env realpath ((p, x) :: stack) (.cdTok :: tokens)
        (Reaches (fun cmd => (17, .cmd cmd) :: (p, x) :: stack)
          (.ofAction ((env "HOME".toList).map fun home => .cd (some home)) tokens)) := by
    intro h
    have haction : tables.action 4 (yytranslate tokens.head?) = .reduce 14 := action_noString (by decide) h
    have hact : ∀ vs, reduce env realpath 14 vs =
        orCrash ((env "HOME".toList).map fun home => .cmd (.cd (some home))) := fun _ => rfl
    cases hhome : env "HOME".toList with
    | none =>
      have hcrash := hact (((4, Value.unset) :: (p, x) :: stack).map Prod.snd)
      rw [hhome] at hcrash
      exact leads_trans hshift (leads_crash (n := 14) (by decide) haction hcrash)
    | some home =>
      refine leads_trans hshift (content_leads [] (n := 14) hp (by decide) (by decide) haction rfl ?_)
      rw [hact, hhome]
      rfl
  rcases tokens with _ | ⟨t, tokens⟩
  · exact hnone fun u hu => absurd hu (by simp)
  · rw [cdContent]
    rcases hs : string env t with _ | _ | dir
    · refine hnone fun u hu => ?_
      cases hu
      exact hs
    · exact leads_trans hshift (string_crash (by decide) hs)
    · refine leads_trans hshift (leads_trans (string_leads (by decide) hs) ?_)
      exact content_leads [(4, .unset)] (n := 15) hp (by decide) (by decide) rfl rfl rfl

/-- `KILL_TOK NUM NUM`. -/
theorem kill_leads (hp : p ∈ cmdStates) (hbottom : Bottom ((p, x) :: stack)) :
    Runs env realpath ((p, x) :: stack) (.killTok :: tokens)
      (Reaches (fun cmd => (17, .cmd cmd) :: (p, x) :: stack) (killContent tokens)) := by
  have hshift : Runs env realpath ((p, x) :: stack) (.killTok :: tokens)
      (At ((7, .unset) :: (p, x) :: stack) tokens) :=
    leads_shift (cmdStates_goto p hp).1 (cmdStates_shift p hp).2.2.2.2.2.1
  have hbottom7 : Bottom ((7, .unset) :: (p, x) :: stack) := bottom_cons hbottom (by decide)
  rcases tokens with _ | ⟨t, tokens⟩
  · exact leads_trans hshift (runs_stuck hbottom7 (by decide) rfl)
  · cases t with
    | num sig =>
      have hsig : Runs env realpath ((p, x) :: stack) (.killTok :: .num sig :: tokens)
          (At ((34, .str sig) :: (7, .unset) :: (p, x) :: stack) tokens) :=
        leads_trans hshift (leads_shift (by decide) rfl)
      have hbottom34 : Bottom ((34, .str sig) :: (7, .unset) :: (p, x) :: stack) :=
        bottom_cons hbottom7 (by decide)
      rcases tokens with _ | ⟨u, tokens⟩
      · exact leads_trans hsig (runs_stuck hbottom34 (by decide) rfl)
      · cases u with
        | num job =>
          have hjob : Runs env realpath ((p, x) :: stack) (.killTok :: .num sig :: .num job :: tokens)
              (At ((48, .str job) :: (34, .str sig) :: (7, .unset) :: (p, x) :: stack) tokens) :=
            leads_trans hsig (leads_shift (by decide) rfl)
          refine leads_trans hjob ?_
          exact content_leads [(34, .str sig), (7, .unset)] (n := 19) hp (by decide) (by decide)
            rfl rfl rfl
        | _ => exact leads_trans hsig (runs_stuck hbottom34 (by decide) rfl)
    | _ => exact leads_trans hshift (runs_stuck hbottom7 (by decide) rfl)

/-- A command that is one token. -/
theorem single_leads (hp : p ∈ cmdStates) {t : Token} {q n : ℕ} {cmd : Command}
    (hshift : tables.action p (yytranslate (some t)) = .shift q) (hq : q ≠ 35) (hn : 10 ≤ n ∧ n < 20)
    (h : tables.action q (yytranslate tokens.head?) = .reduce n) (hlen : tables.r2.getD n 0 = 1)
    (hact : ∀ vs, reduce env realpath n vs = .value (.cmd cmd)) :
    Runs env realpath ((p, x) :: stack) (t :: tokens) (At ((17, .cmd cmd) :: (p, x) :: stack) tokens) :=
  leads_trans (leads_shift (cmdStates_goto p hp).1 hshift)
    (content_leads [] hp hq hn h hlen (hact _))

/-- `cmd_content`. -/
theorem cmdContent_leads (hp : p ∈ cmdStates) (hbottom : Bottom ((p, x) :: stack))
    (hline : p = 0 → tokens.head? ≠ some .eocTok) :
    Runs env realpath ((p, x) :: stack) tokens
      (Reaches (fun cmd => (17, .cmd cmd) :: (p, x) :: stack) (cmdContent env realpath tokens)) := by
  obtain ⟨-, -, -, h14, h15, -, -, -, -, -, h22⟩ := cmdStates_shift p hp
  have hne := (cmdStates_goto p hp).1
  have herror : ∀ k ∈ [3, 4, 6, 7, 8, 9, 10], yytranslate tokens.head? = k →
      Runs env realpath ((p, x) :: stack) tokens (Stuck tokens) := by
    intro k hk h
    refine runs_stuck hbottom hne ?_
    rw [h]
    exact cmdStates_error p hp k hk
  rcases tokens with _ | ⟨t, tokens⟩
  · exact herror 10 (by decide) rfl
  · cases t with
    | echoTok => exact echo_leads hp
    | exportTok => exact export_leads hp hbottom
    | cdTok => exact cd_leads hp
    | killTok => exact kill_leads hp hbottom
    | pwdTok => exact single_leads (n := 16) hp h14 (by decide) (by decide) rfl rfl fun _ => rfl
    | jobsTok => exact single_leads (n := 17) hp h15 (by decide) (by decide) rfl rfl fun _ => rfl
    | exitTok s => exact single_leads (n := 18) hp h22 (by decide) (by decide) rfl rfl fun _ => rfl
    | str s =>
      simp only [cmdContent]
      rcases hs : firstString env (.str s) with _ | _ | v
      · cases hs
      · exact first_crash hp hs
      · exact generic_leads hp hs
    | simStr s => exact generic_leads hp rfl
    | num s => exact generic_leads hp rfl
    | id s => exact generic_leads hp rfl
    | eocTok =>
      have hp38 : p = 38 := by
        simp only [cmdStates, List.mem_cons, List.not_mem_nil, or_false] at hp
        exact hp.resolve_left fun h => hline h rfl
      subst hp38
      exact runs_stuck hbottom hne rfl
    | pipe => exact herror 3 (by decide) rfl
    | bckgrnd => exact herror 4 (by decide) rfl
    | equals => exact herror 6 (by decide) rfl
    | redirIn => exact herror 7 (by decide) rfl
    | redirOut => exact herror 8 (by decide) rfl
    | redirOutApp => exact herror 9 (by decide) rfl

/-- `cmd_top`. -/
theorem parseCmdTop_leads (hp : p ∈ cmdStates) (hbottom : Bottom ((p, x) :: stack))
    (hline : p = 0 → tokens.head? ≠ some .eocTok) :
    Runs env realpath ((p, x) :: stack) tokens
      (Reaches (fun holder => (16, .holder holder) :: (p, x) :: stack) (parseCmdTop env realpath tokens)) := by
  have hp' : p = 0 ∨ p = 38 := by
    simpa only [cmdStates, List.mem_cons, List.not_mem_nil, or_false] using hp
  refine runs_bind (cmdContent_leads hp hbottom hline) fun cmd rest _ => ?_
  refine runs_bind (redir_leads (bottom_cons hbottom (by decide))) fun red rest' _ => ?_
  exact cmdBg_leads hp'

theorem cmdStates_cmds : ∀ p ∈ cmdStates, tables.goto 8 p = tables.goto 7 p := by decide

/-- `cmds`. -/
theorem parseCmds_leads : ∀ {n : ℕ} {tokens : List Token} {p : ℕ} {x : Value} {stack : List (ℕ × Value)},
    tokens.length ≤ n → p ∈ cmdStates → Bottom ((p, x) :: stack) →
    (p = 0 → tokens.head? ≠ some .eocTok) →
    Runs env realpath ((p, x) :: stack) tokens
      (Reaches (fun holders => (tables.goto 7 p, .cmdList holders) :: (p, x) :: stack)
        (parseCmds env realpath n tokens))
  | 0, tokens, p, x, stack, hn, hp, hbottom, _ => by
    rw [List.eq_nil_of_length_eq_zero (Nat.le_zero.mp hn)]
    exact runs_stuck hbottom (cmdStates_goto p hp).1 (cmdStates_error p hp 10 (by decide))
  | n + 1, tokens, p, x, stack, hn, hp, hbottom, hline => by
    refine runs_bind (parseCmdTop_leads hp hbottom hline) fun holder rest hx => ?_
    have hlast : tables.action 16 (yytranslate rest.head?) = .reduce 7 →
        Runs env realpath ((16, .holder holder) :: (p, x) :: stack) rest
          (At ((tables.goto 7 p, .cmdList [holder]) :: (p, x) :: stack) rest) := fun h =>
      leads_reduce (n := 7) (by decide) h rfl
    rcases rest with _ | ⟨t, rest⟩
    · exact hlast rfl
    · cases t with
      | pipe =>
        have hlen : rest.length ≤ n := by
          rcases tokens with _ | ⟨u, tokens⟩
          · cases hx
          · have hleaves : Leaves tokens (u :: tokens) (parseCmdTop env realpath (u :: tokens)) :=
              leaves_parseCmdTop u tokens
            rw [hx] at hleaves
            have hle : rest.length + 1 ≤ tokens.length := hleaves.length_le
            rw [List.length_cons] at hn
            omega
        have hbottom16 : Bottom ((16, .holder holder) :: (p, x) :: stack) := bottom_cons hbottom (by decide)
        have hpipe : Runs env realpath ((16, .holder holder) :: (p, x) :: stack) (.pipe :: rest)
            (At ((38, .unset) :: (16, .holder holder) :: (p, x) :: stack) rest) :=
          leads_shift (by decide) rfl
        refine runs_map (leads_trans hpipe (parseCmds_leads hlen (by decide)
          (bottom_cons hbottom16 (by decide)) fun h => by cases h)) fun holders rest' => ?_
        exact runs_reduce [(38, .unset), (16, .holder holder)] (n := 8) (by decide) rfl rfl rfl
          (cmdStates_cmds p hp)
      | _ => exact hlast rfl

/-! ### The end of a parse -/

/-- The automaton has ended as the grammar says. -/
def Ends : Parsed → Status Token Value Result → Prop
  | .done ended script rest, s => ∃ accepted, s = .returned accepted (some (ended, script)) rest
  | .abort, s => s = .crashed

abbrev Comes (env realpath : Str → Option Str) (P : Status Token Value Result → Prop)
    (s : Status Token Value Result) : Prop :=
  Eventually (next tables (semantics env realpath)) P s

theorem error_table : ∀ token < 23, token ≠ 10 → token ≠ 17 → tables.action 1 token = .error := by
  decide

theorem symbol_ends {t : Token} (ht : t ≠ .eocTok) : yytranslate (some t) ≠ 10 ∧ yytranslate (some t) ≠ 17 := by
  cases t with
  | eocTok => exact absurd rfl ht
  | _ => constructor <;> simp only [yytranslate, ne_eq, Nat.reduceEqDiff, not_false_eq_true]

/-- After an error the tokens are discarded up to the end of the line. -/
theorem recover_leads : ∀ {tokens : List Token} {v : Value} {peeked : Bool},
    Comes env realpath (Ends (Parser.recover tokens)) (.running ⟨[(1, v), (0, .unset)], tokens, peeked, 3⟩)
  | [], v, peeked => ⟨2, false, rfl⟩
  | t :: tokens, v, peeked => by
    by_cases ht : t = .eocTok
    · subst ht
      exact ⟨2, false, rfl⟩
    · have hrecover : Parser.recover (t :: tokens) = Parser.recover tokens := by
        cases t with
        | eocTok => exact absurd rfl ht
        | _ => rfl
      have haction := error_table _ (symbol_lt (some t)) (symbol_ends ht).1 (symbol_ends ht).2
      have hfinal : 1 ≠ tables.final := by decide
      have hblind : tables.blind 1 = false := by decide
      have hstep := next_discard (T := tables) (S := semantics env realpath)
        (c := ⟨[(1, v), (0, .unset)], t :: tokens, peeked, 3⟩) hfinal haction rfl rfl hblind
      rw [hrecover]
      refine eventually_iterate (k := 1) ?_
      rw [Function.iterate_one, hstep]
      exact recover_leads

/-- The recovery from an error. -/
theorem stuck_leads {s : Status Token Value Result} (h : Stuck tokens s) :
    Comes env realpath (Ends (Parser.recover tokens)) s := by
  obtain ⟨stack, hbottom, hne, haction, peeked, rfl⟩ := h
  have herr : 0 ≠ 3 := by decide
  have hstep := next_error (T := tables) (S := semantics env realpath) (c := ⟨stack, tokens, peeked, 0⟩)
    hne haction hbottom herr
  refine eventually_iterate (k := 1) ?_
  rw [Function.iterate_one, hstep]
  exact recover_leads

/-- The parse after `cmds`. -/
theorem afterCmds_leads {n : ℕ} {peeked : Bool} (hn : tokens.length ≤ n)
    (hline : tokens.head? ≠ some .eocTok) :
    Comes env realpath (Ends (afterCmds (parseCmds env realpath n tokens)))
      (.running ⟨[(0, .unset)], tokens, peeked, 0⟩) := by
  have hcmds : Runs env realpath [(0, .unset)] tokens
      (Reaches (fun holders => [(15, .cmdList holders), (0, .unset)]) (parseCmds env realpath n tokens)) :=
    parseCmds_leads hn (by decide) rfl fun _ => hline
  refine eventually_bind (hcmds peeked) ?_
  intro s hs
  cases hparse : parseCmds env realpath n tokens with
  | abort =>
    rw [hparse] at hs
    exact eventually_now hs
  | error rest =>
    rw [hparse] at hs
    exact stuck_leads hs
  | ok holders rest =>
    rw [hparse] at hs
    obtain ⟨peeked', rfl⟩ := hs
    have hstuck : tables.action 15 (yytranslate rest.head?) = .error →
        Comes env realpath (Ends (Parser.recover rest))
          (.running ⟨[(15, .cmdList holders), (0, .unset)], rest, peeked', 0⟩) := by
      intro h
      have hne : 15 ≠ 35 := by decide
      have hbottom : Bottom [(15, .cmdList holders), (0, .unset)] := rfl
      exact stuck_leads ⟨[(15, .cmdList holders), (0, .unset)], hbottom, hne, h, peeked', rfl⟩
    rcases rest with _ | ⟨t, rest⟩
    · exact ⟨2, true, rfl⟩
    · cases t with
      | eocTok => exact ⟨2, true, rfl⟩
      | _ => exact hstuck rfl

/-- The whole parse, on a stack that cannot be filled. -/
theorem yyparse_leads (env realpath : Str → Option Str) (tokens : List Token) :
    Comes env realpath (Ends (Parser.yyparse env realpath tokens)) (start (semantics env realpath) tokens) := by
  by_cases hline : tokens.head? = some .eocTok
  · obtain ⟨rest, rfl⟩ := List.head?_eq_some_iff.mp hline
    exact ⟨2, true, rfl⟩
  · have heq : Parser.yyparse env realpath tokens = afterCmds (parseCmds env realpath tokens.length tokens) := by
      refine yyparse_eq fun rest h => hline ?_
      rw [h]
      rfl
    rw [heq]
    exact afterCmds_leads le_rfl hline

theorem step_ends {parsed : Parsed} {s : Status Token Value Result} (h : Ends parsed s) :
    step tables (semantics env realpath) s = s := by
  cases parsed with
  | done ended script rest =>
    obtain ⟨accepted, rfl⟩ := h
    rfl
  | abort =>
    have hs : s = .crashed := h
    rw [hs]
    rfl

/-- A run ends in one way only. -/
theorem yyparse_unique {s s' : Status Token Value Result} (h : Yyparse env realpath tokens s)
    (h' : Yyparse env realpath tokens s') : s = s' := by
  obtain ⟨n, hn, hfix⟩ := h
  obtain ⟨m, hm, hfix'⟩ := h'
  have hsame : (step tables (semantics env realpath))^[m + n] (start (semantics env realpath) tokens) =
      (step tables (semantics env realpath))^[n + m] (start (semantics env realpath) tokens) := by
    rw [Nat.add_comm]
  rwa [Function.iterate_add_apply, hn, Function.iterate_fixed hfix, Function.iterate_add_apply, hm,
    Function.iterate_fixed hfix'] at hsame

/-- A line that fits into the stacks is parsed as the grammar says. -/
theorem exists_ends {tokens : List Token}
    (hroom : (tokens.takeWhile (· ≠ .eocTok)).length + 3 < 10000) :
    ∃ s, Yyparse env realpath tokens s ∧ Ends (Parser.yyparse env realpath tokens) s := by
  have hdepth : certificate.budget yytranslate tokens + 1 + certificate.maxSlack < tables.maxdepth := by
    rw [budget_eq]
    exact hroom
  obtain ⟨n, hn⟩ := yyparse_leads env realpath tokens
  rw [← step_eq valid (suits env realpath) hdepth] at hn
  have hends : Yyparse env realpath tokens
      ((step tables (semantics env realpath))^[n] (start (semantics env realpath) tokens)) :=
    ⟨n, rfl, step_ends hn⟩
  exact ⟨_, hends, hn⟩

/-- **The generated parser is the grammar**: on every list of tokens whose first line fits into its
stacks, it ends, with the script, the call of `end_main_loop` and the tokens left that the functions of
the nonterminals say. -/
theorem yyparse_refines (env realpath : Str → Option Str) (tokens : List Token)
    (hroom : (tokens.takeWhile (· ≠ .eocTok)).length + 3 < 10000) :
    ∃ s, Yyparse env realpath tokens s ∧ Ends (Parser.yyparse env realpath tokens) s ∧
      ∀ s', Yyparse env realpath tokens s' → s' = s := by
  obtain ⟨s, hs, hends⟩ := exists_ends hroom
  exact ⟨s, hs, hends, fun s' hs' => yyparse_unique hs' hs⟩

/-- `ls -l | wc &`, read to its end. -/
theorem yyparse_refines_pipe :
    ∃ s, Yyparse (fun _ => none) (fun _ => none)
        [.simStr "ls".toList, .simStr "-l".toList, .pipe, .id "wc".toList, .bckgrnd, .eocTok] s ∧
      Ends (Parser.yyparse (fun _ => none) (fun _ => none)
        [.simStr "ls".toList, .simStr "-l".toList, .pipe, .id "wc".toList, .bckgrnd, .eocTok]) s ∧
      ∀ s', Yyparse (fun _ => none) (fun _ => none)
        [.simStr "ls".toList, .simStr "-l".toList, .pipe, .id "wc".toList, .bckgrnd, .eocTok] s' → s' = s :=
  yyparse_refines _ _ _ (by decide)

/-! ### Lines that are too long -/

/-- The words of a command are all on the stack before the first of them is put into a list. -/
theorem words_leads : ∀ {words : List Token} {q : ℕ} {x : Value} {stack : List (ℕ × Value)},
    q ∈ argStates → (∀ t ∈ words, ∃ v, string env t = some (some v)) →
    ∃ above, above.length = words.length ∧
      Runs env realpath ((q, x) :: stack) (words ++ tokens) (At (above ++ (q, x) :: stack) tokens)
  | [], q, x, stack, _, _ => ⟨[], rfl, leads_refl⟩
  | t :: words, q, x, stack, hq, hwords => by
    obtain ⟨hstr, hgoto, -⟩ := argStates_goto q hq
    obtain ⟨v, hv⟩ := hwords t List.mem_cons_self
    have hshift : Runs env realpath ((q, x) :: stack) (t :: (words ++ tokens))
        (At ((29, .str v) :: (q, x) :: stack) (words ++ tokens)) := hgoto ▸ string_leads hstr hv
    obtain ⟨above, hlen, hrest⟩ : ∃ above, above.length = words.length ∧
        Runs env realpath ((29, .str v) :: (q, x) :: stack) (words ++ tokens)
          (At (above ++ (29, .str v) :: (q, x) :: stack) tokens) :=
      words_leads (by decide) fun u hu => hwords u (List.mem_cons_of_mem t hu)
    refine ⟨above ++ [(29, .str v)], ?_, ?_⟩
    · rw [List.length_append, List.length_singleton, hlen, List.length_cons]
    · rw [List.append_assoc, List.singleton_append]
      exact leads_trans hshift hrest

/-- **Where the stacks give out**: on a line that begins with 9999 words or more the generated parser
gives up, with no script, if each word has a value. (A word without one, such as `\\`, aborts.) -/
theorem yyparse_exhausts (env realpath : Str → Option Str) (words rest : List Token)
    (hlong : 9999 ≤ words.length) (hwords : ∀ t ∈ words, ∃ v, firstString env t = some (some v)) :
    Yyparse env realpath (words ++ rest) .exhausted ∧
      ∀ s, Yyparse env realpath (words ++ rest) s → s = .exhausted := by
  obtain ⟨t, words, rfl⟩ := List.exists_cons_of_length_pos (Nat.lt_of_lt_of_le (by decide) hlong)
  obtain ⟨v, hv⟩ := hwords t List.mem_cons_self
  have hfirst : Runs env realpath [(0, .unset)] (t :: (words ++ rest))
      (At [(19, .str v), (0, .unset)] (words ++ rest)) := first_leads (by decide) hv
  have hstrings : ∀ u ∈ words, ∃ w, string env u = some (some w) := by
    intro u hu
    obtain ⟨w, hw⟩ := hwords u (List.mem_cons_of_mem t hu)
    exact ⟨w, by rw [string, hw]⟩
  obtain ⟨above, hlen, hrun⟩ : ∃ above, above.length = words.length ∧
      Runs env realpath [(19, .str v), (0, .unset)] (words ++ rest)
        (At (above ++ [(19, .str v), (0, .unset)]) rest) := words_leads (by decide) hstrings
  obtain ⟨n, peeked, hn⟩ := leads_trans hfirst hrun false
  have hdeep : tables.maxdepth ≤ (above ++ [(19, Value.str v), (0, .unset)]).length := by
    rw [List.length_append, hlen]
    exact Nat.succ_le_succ hlong
  obtain ⟨k, hk⟩ := exhausted_of_deep hn hdeep
  have hends : Yyparse env realpath (t :: words ++ rest) .exhausted := ⟨k, hk, rfl⟩
  exact ⟨hends, fun s hs => yyparse_unique hs hends⟩

/-- So many ones. -/
theorem yyparse_exhausts_ones :
    Yyparse (fun _ => none) (fun _ => none) (List.replicate 9999 (.num ['1']) ++ [.eocTok]) .exhausted ∧
      ∀ s, Yyparse (fun _ => none) (fun _ => none) (List.replicate 9999 (.num ['1']) ++ [.eocTok]) s →
        s = .exhausted :=
  yyparse_exhausts _ _ _ _ (List.length_replicate).ge fun t ht =>
    ⟨['1'], by rw [List.eq_of_mem_replicate ht, firstString]⟩

end Eecs678.Quash.ParseRefines
