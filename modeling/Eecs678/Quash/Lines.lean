import Eecs678.Quash.Parser

/-!
# One line at a time

The parser never looks past the end of a line, and each command takes a token at least, so what it does
on an input is what it does on its lines: `yyparse_line` and `yyparse_tail`. `verdict` says what one line
is to the parser.
-/

namespace Eecs678.Quash.Lines

open Eecs678.Quash.Commands Eecs678.Quash.Actions Eecs678.Quash.Execute
open Eecs678.Quash.Lexer Eecs678.Quash.Parser

variable {β γ : Type} {env realpath : Str → Option Str}

/-! ### Nothing after the end of the line is read -/

/-- The same outcome with more tokens left. -/
def extend (r : List Token) : Outcome β → Outcome β
  | .ok value rest => .ok value (rest ++ r)
  | .error rest => .error (rest ++ r)
  | .abort => .abort

/-- The function does not read past the end of a line. -/
def Local (f : List Token → Outcome β) : Prop :=
  ∀ ts r, f (ts ++ .eocTok :: r) = extend (.eocTok :: r) (f ts)

theorem Local.bind {f : List Token → Outcome β} {g : β → List Token → Outcome γ} (hf : Local f)
    (hg : ∀ value, Local (g value)) : Local fun ts => (f ts).bind g := by
  intro ts r
  simp only [hf ts r]
  cases f ts with
  | ok value rest => exact hg value rest r
  | error rest => rfl
  | abort => rfl

theorem Local.map {f : List Token → Outcome β} (hf : Local f) (g : β → γ) :
    Local fun ts => (f ts).map g :=
  hf.bind fun _ _ _ => rfl

theorem extend_ofAction (r : List Token) (value : Option β) (rest : List Token) :
    extend r (.ofAction value rest) = .ofAction value (rest ++ r) := by
  cases value <;> rfl

theorem extend_map (r : List Token) (g : β → γ) (x : Outcome β) :
    extend r (x.map g) = (extend r x).map g := by
  cases x <;> rfl

theorem local_expectString (env : Str → Option Str) : Local (expectString env)
  | [], r => rfl
  | t :: ts, r => by
    simp only [List.cons_append, expectString]
    cases string env t with
    | some value => exact (extend_ofAction _ _ _).symm
    | none => rfl

theorem local_cmdArguments (env : Str → Option Str) : Local (cmdArguments env)
  | [], r => rfl
  | t :: ts, r => by
    simp only [List.cons_append, cmdArguments]
    rcases string env t with _ | _ | value
    · rfl
    · rfl
    · simp only [local_cmdArguments env ts r, extend_map]

theorem local_redir (env : Str → Option Str) : Local (redir env)
  | [], r => by cases r <;> rfl
  | [t], r => by
    simp only [List.singleton_append, redir]
    cases redirMark t with
    | none => rfl
    | some mark => rfl
  | t :: u :: ts, r => by
    simp only [List.cons_append, redir]
    cases redirMark t with
    | none => rfl
    | some mark =>
      rcases string env u with _ | _ | file
      · rfl
      · rfl
      · cases ts with
        | nil => rfl
        | cons v ts =>
          have ih := local_redir env (v :: ts) r
          rw [List.cons_append] at ih
          simp only [List.cons_append]
          split
          · rw [ih, extend_map]
          · rfl

theorem local_cmdBg : Local cmdBg
  | [], r => rfl
  | t :: ts, r => by cases t <;> rfl

theorem local_exportContent (env : Str → Option Str) : Local (exportContent env)
  | [], r => rfl
  | [t], r => by cases t <;> rfl
  | t :: u :: ts, r => by
    cases t with
    | id envVar =>
      cases u with
      | equals => exact (local_expectString env).map (Command.export envVar) ts r
      | _ => rfl
    | _ => rfl

theorem local_cdContent (env realpath : Str → Option Str) : Local (cdContent env realpath)
  | [], r => by
    simp only [List.nil_append, cdContent, extend_ofAction]
    rfl
  | t :: ts, r => by
    simp only [List.cons_append, cdContent]
    cases string env t <;> simp only [extend_ofAction, List.cons_append]

theorem local_killContent : Local killContent
  | [], r => rfl
  | [t], r => by cases t <;> rfl
  | t :: u :: ts, r => by cases t <;> cases u <;> rfl

theorem local_cmdContent (env realpath : Str → Option Str) : Local (cmdContent env realpath)
  | [], r => rfl
  | t :: ts, r => by
    cases t with
    | echoTok => exact (local_cmdArguments env).map Command.echo ts r
    | exportTok => exact local_exportContent env ts r
    | cdTok => exact local_cdContent env realpath ts r
    | killTok => exact local_killContent ts r
    | pwdTok => rfl
    | jobsTok => rfl
    | exitTok s => rfl
    | _ =>
      simp only [List.cons_append, cmdContent]
      generalize firstString env _ = first
      rcases first with _ | _ | value
      · rfl
      · rfl
      · simp only [local_cmdArguments env ts r, extend_map]

theorem local_parseCmdTop (env realpath : Str → Option Str) : Local (parseCmdTop env realpath) :=
  (local_cmdContent env realpath).bind fun _ => (local_redir env).bind fun _ => local_cmdBg.map _

theorem local_parseCmds (env realpath : Str → Option Str) : ∀ n, Local (parseCmds env realpath n)
  | 0, ts, r => rfl
  | n + 1, ts, r => by
    refine (local_parseCmdTop env realpath).bind (fun holder => ?_) ts r
    rintro (_ | ⟨t, ts⟩) r
    · rfl
    · cases t with
      | pipe => exact (local_parseCmds env realpath n).map (cmdsPipe holder) ts r
      | _ => rfl

/-! ### What is left -/

/-- What is left is the end of `us` when it succeeds and the end of `ts` after an error. -/
def Leaves (us ts : List Token) : Outcome β → Prop
  | .ok _ rest => rest <:+ us
  | .error rest => rest <:+ ts
  | .abort => True

theorem Leaves.bind {us vs ts : List Token} {x : Outcome β} {f : β → List Token → Outcome γ}
    (hx : Leaves us ts x) (hf : ∀ value rest, rest <:+ us → Leaves vs ts (f value rest)) :
    Leaves vs ts (x.bind f) := by
  cases x with
  | ok value rest => exact hf value rest hx
  | error rest => exact hx
  | abort => exact trivial

theorem Leaves.map {us ts : List Token} {x : Outcome β} (hx : Leaves us ts x) (f : β → γ) :
    Leaves us ts (x.map f) :=
  hx.bind fun _ _ h => h

theorem Leaves.mono {us vs ts ws : List Token} {x : Outcome β} (hx : Leaves us ts x) (hu : us <:+ vs)
    (ht : ts <:+ ws) : Leaves vs ws x := by
  cases x with
  | ok value rest => exact hx.trans hu
  | error rest => exact hx.trans ht
  | abort => exact trivial

theorem Leaves.cons {ts : List Token} {x : Outcome β} (hx : Leaves ts ts x) (t : Token) :
    Leaves (t :: ts) (t :: ts) x :=
  hx.mono (List.suffix_cons t ts) (List.suffix_cons t ts)

theorem leaves_ofAction (value : Option β) (rest : List Token) :
    Leaves rest rest (.ofAction value rest) := by
  cases value with
  | none => exact trivial
  | some value => exact List.suffix_rfl

theorem leaves_expectString : ∀ ts, Leaves ts ts (expectString env ts)
  | [] => List.suffix_rfl
  | t :: ts => by
    simp only [expectString]
    cases string env t with
    | none => exact List.suffix_rfl
    | some value => exact (leaves_ofAction value ts).cons t

theorem leaves_cmdArguments : ∀ ts, Leaves ts ts (cmdArguments env ts)
  | [] => List.suffix_rfl
  | t :: ts => by
    unfold cmdArguments
    rcases string env t with _ | _ | value
    · exact List.suffix_rfl
    · exact trivial
    · exact ((leaves_cmdArguments ts).map _).cons t

theorem leaves_redir : ∀ ts, Leaves ts ts (redir env ts)
  | [] => List.suffix_rfl
  | [t] => by
    unfold redir
    cases redirMark t with
    | none => exact List.suffix_rfl
    | some mark => exact List.nil_suffix
  | t :: u :: ts => by
    unfold redir
    cases redirMark t with
    | none => exact List.suffix_rfl
    | some mark =>
      rcases string env u with _ | _ | file
      · exact List.suffix_cons t (u :: ts)
      · exact trivial
      · rcases ts with _ | ⟨v, ts⟩
        · exact List.nil_suffix
        · have ih := (leaves_redir (v :: ts)).map (addRedirect mark file)
          simp only
          split
          · exact (ih.cons u).cons t
          · exact (List.suffix_cons u (v :: ts)).trans (List.suffix_cons t _)

theorem leaves_cmdBg : ∀ ts, Leaves ts ts (cmdBg ts)
  | [] => List.suffix_rfl
  | t :: ts => by
    cases t with
    | bckgrnd => exact List.suffix_cons _ ts
    | _ => exact List.suffix_rfl

theorem leaves_exportContent : ∀ ts, Leaves ts ts (exportContent env ts)
  | [] => List.suffix_rfl
  | [t] => by cases t <;> first | exact List.suffix_rfl | exact List.nil_suffix
  | t :: u :: ts => by
    cases t with
    | id envVar =>
      cases u with
      | equals => exact (((leaves_expectString ts).map (Command.export envVar)).cons _).cons _
      | _ => exact List.suffix_cons _ _
    | _ => exact List.suffix_rfl

theorem leaves_cdContent : ∀ ts, Leaves ts ts (cdContent env realpath ts)
  | [] => leaves_ofAction _ _
  | t :: ts => by
    simp only [cdContent]
    cases string env t with
    | none => exact leaves_ofAction _ _
    | some dir => exact (leaves_ofAction _ ts).cons t

theorem leaves_killContent : ∀ ts, Leaves ts ts (killContent ts)
  | [] => List.suffix_rfl
  | [t] => by cases t <;> first | exact List.suffix_rfl | exact List.nil_suffix
  | t :: u :: ts => by
    cases t with
    | num sig =>
      cases u with
      | num job => exact (List.suffix_cons _ ts).trans (List.suffix_cons _ _)
      | _ => exact List.suffix_cons _ _
    | _ => exact List.suffix_rfl

/-- Every command takes a token. -/
theorem leaves_cmdContent (t : Token) (ts : List Token) :
    Leaves ts (t :: ts) (cmdContent env realpath (t :: ts)) := by
  have hmono : ∀ x : Outcome Command, Leaves ts ts x → Leaves ts (t :: ts) x := fun x hx =>
    hx.mono List.suffix_rfl (List.suffix_cons t ts)
  cases t with
  | echoTok => exact hmono _ ((leaves_cmdArguments ts).map _)
  | exportTok => exact hmono _ (leaves_exportContent ts)
  | cdTok => exact hmono _ (leaves_cdContent ts)
  | killTok => exact hmono _ (leaves_killContent ts)
  | pwdTok => exact List.suffix_rfl
  | jobsTok => exact List.suffix_rfl
  | exitTok s => exact List.suffix_rfl
  | _ =>
    simp only [cmdContent]
    generalize firstString env _ = first
    rcases first with _ | _ | value
    · exact List.suffix_rfl
    · exact trivial
    · exact hmono _ ((leaves_cmdArguments ts).map _)

theorem leaves_parseCmdTop (t : Token) (ts : List Token) :
    Leaves ts (t :: ts) (parseCmdTop env realpath (t :: ts)) := by
  refine (leaves_cmdContent t ts).bind fun content ts₁ h₁ => ?_
  have h₁' := h₁.trans (List.suffix_cons t ts)
  refine ((leaves_redir ts₁).mono h₁ h₁').bind fun red ts₂ h₂ => ?_
  exact ((leaves_cmdBg ts₂).map _).mono h₂ (h₂.trans (List.suffix_cons t ts))

theorem leaves_parseCmds : ∀ (n : ℕ) (ts : List Token), Leaves ts ts (parseCmds env realpath n ts)
  | 0, ts => List.suffix_rfl
  | n + 1, [] => List.suffix_rfl
  | n + 1, t :: ts => by
    refine (leaves_parseCmdTop t ts).bind fun holder rest h => ?_
    have h' := h.trans (List.suffix_cons t ts)
    rcases rest with _ | ⟨u, rest⟩
    · exact h'
    · cases u with
      | pipe =>
        have hrest := (List.suffix_cons .pipe rest).trans h'
        exact ((leaves_parseCmds n rest).map (cmdsPipe holder)).mono hrest hrest
      | _ => exact h'

/-- As many stages as there are tokens are enough. -/
theorem parseCmds_eq : ∀ (n m : ℕ) (ts : List Token), ts.length ≤ n → ts.length ≤ m →
    parseCmds env realpath n ts = parseCmds env realpath m ts
  | 0, 0, ts, hn, hm => rfl
  | 0, m + 1, ts, hn, hm => by
    rw [List.eq_nil_of_length_eq_zero (Nat.le_zero.mp hn)]
    rfl
  | n + 1, 0, ts, hn, hm => by
    rw [List.eq_nil_of_length_eq_zero (Nat.le_zero.mp hm)]
    rfl
  | n + 1, m + 1, [], hn, hm => rfl
  | n + 1, m + 1, t :: ts, hn, hm => by
    have hleaves : Leaves ts (t :: ts) (parseCmdTop env realpath (t :: ts)) := leaves_parseCmdTop t ts
    unfold parseCmds
    cases hx : parseCmdTop env realpath (t :: ts) with
    | error rest => rfl
    | abort => rfl
    | ok holder rest =>
      rw [hx] at hleaves
      simp only [Outcome.bind]
      rcases rest with _ | ⟨u, rest⟩
      · rfl
      · cases u with
        | pipe =>
          have hlen : rest.length + 1 ≤ ts.length := hleaves.length_le
          simp only [List.length_cons] at hn hm
          simp only [parseCmds_eq n m rest (by omega) (by omega)]
        | _ => rfl

/-! ### A line -/

/-- What a line is to the parser: the end of the process by a failed `assert`, nothing to run, or a
script. -/
inductive Verdict
  | abort
  | nothing
  | script (holders : List CommandHolder)
deriving DecidableEq, Repr

def verdictOf : Outcome (List CommandHolder) → Verdict
  | .ok holders [] => .script holders
  | .ok _ (_ :: _) => .nothing
  | .error _ => .nothing
  | .abort => .abort

/-- A script is a line that `cmds` takes as a whole. -/
def verdict (env realpath : Str → Option Str) (line : List Token) : Verdict :=
  verdictOf (parseCmds env realpath line.length line)

/-- What `yyparse` gives on a line; `ended` says whether the line ends with `END`. -/
def parsed (ended : Bool) (rest : List Token) : Verdict → Parsed
  | .abort => .abort
  | .nothing => .done ended none rest
  | .script holders => .done ended (some holders) rest

theorem recover_line {rest : List Token} : ∀ {line : List Token}, .eocTok ∉ line →
    recover (line ++ .eocTok :: rest) = .done false none rest
  | [], h => rfl
  | t :: line, h => by
    obtain ⟨ht, hline⟩ := not_or.mp (List.mem_cons.not.mp h)
    have ih : recover (line ++ .eocTok :: rest) = .done false none rest := recover_line hline
    cases t with
    | eocTok => exact absurd rfl ht
    | _ => exact ih

theorem recover_tail : ∀ {tail : List Token}, .eocTok ∉ tail → recover tail = .done true none []
  | [], h => rfl
  | t :: tail, h => by
    obtain ⟨ht, htail⟩ := not_or.mp (List.mem_cons.not.mp h)
    have ih := recover_tail htail
    cases t with
    | eocTok => exact absurd rfl ht
    | _ => exact ih

/-- `top` after `cmds`. -/
def afterCmds : Outcome (List CommandHolder) → Parsed
  | .ok holders (.eocTok :: rest) => .done false (some holders) rest
  | .ok holders [] => .done true (some holders) []
  | .ok _ rest => recover rest
  | .error rest => recover rest
  | .abort => .abort

theorem yyparse_eq {ts : List Token} (h : ∀ rest, ts ≠ .eocTok :: rest) :
    yyparse env realpath ts = afterCmds (parseCmds env realpath ts.length ts) := by
  unfold yyparse
  split
  · next rest => exact absurd rfl (h rest)
  · rfl

theorem afterCmds_line {line : List Token} (h : .eocTok ∉ line) (rest : List Token) :
    ∀ {x : Outcome (List CommandHolder)}, Leaves line line x →
      afterCmds (extend (.eocTok :: rest) x) = parsed false rest (verdictOf x)
  | .abort, _ => rfl
  | .error ts, hx => recover_line fun hmem => h (hx.subset hmem)
  | .ok holders [], _ => rfl
  | .ok holders (t :: ts), hx => by
    have hrecover : recover (t :: ts ++ .eocTok :: rest) = .done false none rest :=
      recover_line fun hmem => h (hx.subset hmem)
    cases t with
    | eocTok => exact absurd (hx.subset (List.mem_cons_self ..)) h
    | _ => exact hrecover

theorem afterCmds_tail {tail : List Token} (h : .eocTok ∉ tail) :
    ∀ {x : Outcome (List CommandHolder)}, Leaves tail tail x →
      afterCmds x = parsed true [] (verdictOf x)
  | .abort, _ => rfl
  | .error ts, hx => recover_tail fun hmem => h (hx.subset hmem)
  | .ok holders [], _ => rfl
  | .ok holders (t :: ts), hx => by
    have hrecover : recover (t :: ts) = .done true none [] :=
      recover_tail fun hmem => h (hx.subset hmem)
    cases t with
    | eocTok => exact absurd (hx.subset (List.mem_cons_self ..)) h
    | _ => exact hrecover

/-- **A line that ends with a newline** is parsed on its own. -/
theorem yyparse_line {line : List Token} (h : .eocTok ∉ line) (rest : List Token) :
    yyparse env realpath (line ++ .eocTok :: rest) = parsed false rest (verdict env realpath line) := by
  rcases line with _ | ⟨t, line⟩
  · rfl
  · rw [yyparse_eq, local_parseCmds env realpath _ (t :: line) rest,
      parseCmds_eq _ (t :: line).length (t :: line) _ le_rfl]
    · exact afterCmds_line h rest (leaves_parseCmds _ _)
    · rw [List.length_append]
      exact Nat.le_add_right _ _
    · intro ts heq
      rw [List.cons_append, List.cons.injEq] at heq
      exact h (heq.1 ▸ List.mem_cons_self ..)

/-- **What stands after the last newline** is parsed up to `END`. -/
theorem yyparse_tail {tail : List Token} (h : .eocTok ∉ tail) :
    yyparse env realpath tail = parsed true [] (verdict env realpath tail) := by
  rw [yyparse_eq]
  · exact afterCmds_tail h (leaves_parseCmds _ _)
  · rintro rest rfl
    exact h (List.mem_cons_self ..)

/-! ### The lines of an input -/

/-- The lines, and last what stands after the last newline. -/
def texts : List Token → List (List Token)
  | [] => [[]]
  | t :: ts =>
    if t = .eocTok then [] :: texts ts
    else match texts ts with
      | [] => [[t]]
      | text :: rest => (t :: text) :: rest

/-- The input that has the given lines. -/
def joinTexts : List (List Token) → List Token
  | [] => []
  | [tail] => tail
  | line :: text :: rest => line ++ .eocTok :: joinTexts (text :: rest)

theorem texts_ne_nil (ts : List Token) : texts ts ≠ [] := by
  unfold texts
  split
  · exact List.cons_ne_nil _ _
  · split
    · exact List.cons_ne_nil _ _
    · split <;> exact List.cons_ne_nil _ _

theorem joinTexts_cons (t : Token) (text : List Token) (rest : List (List Token)) :
    joinTexts ((t :: text) :: rest) = t :: joinTexts (text :: rest) := by
  cases rest <;> rfl

theorem joinTexts_texts : ∀ ts, joinTexts (texts ts) = ts
  | [] => rfl
  | t :: ts => by
    have ih := joinTexts_texts ts
    obtain ⟨text, rest, htexts⟩ := List.exists_cons_of_ne_nil (texts_ne_nil ts)
    rw [htexts] at ih
    unfold texts
    rw [htexts]
    split
    · next ht => rw [joinTexts, ih, ht, List.nil_append]
    · rw [joinTexts_cons, ih]

theorem eocTok_not_mem_texts : ∀ ts, ∀ text ∈ texts ts, .eocTok ∉ text
  | [], text, h => by
    rw [List.mem_singleton.mp h]
    exact List.not_mem_nil
  | t :: ts, text, h => by
    have ih := eocTok_not_mem_texts ts
    obtain ⟨first, rest, htexts⟩ := List.exists_cons_of_ne_nil (texts_ne_nil ts)
    unfold texts at h
    rw [htexts] at h ih
    split at h
    · rcases List.mem_cons.mp h with rfl | h
      · exact List.not_mem_nil
      · exact ih text h
    · next ht =>
      rcases List.mem_cons.mp h with rfl | h
      · exact List.not_mem_cons_of_ne_of_not_mem (Ne.symm ht) (ih first (List.mem_cons_self ..))
      · exact ih text (List.mem_cons_of_mem _ h)

end Eecs678.Quash.Lines
