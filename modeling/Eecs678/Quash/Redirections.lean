import Eecs678.Quash.Stages

/-!
# Lists of redirections

What `cmd_top` makes of a command with a list of redirections. The action of `redir_inner` runs for the
rest of the list first and then overwrites what the rest has set, so the first redirection of a kind
stays (`merged_eq`). `last_wins_iff` says when that is the last one.
-/

namespace Eecs678.Quash.Redirections

open Eecs678.Quash.Commands Eecs678.Quash.Actions Eecs678.Quash.Lexer Eecs678.Quash.Parser
open Eecs678.Quash.Stages

variable {β γ : Type} {env realpath : Str → Option Str}

/-! ### More tokens behind a command -/

/-- No string of the grammar comes next. -/
def NoString (env : Str → Option Str) (rest : List Token) : Prop :=
  rest.head?.bind (string env) = none

/-- What the function reads, it also reads in front of more tokens. -/
def Extends (env : Str → Option Str) (f : List Token → Outcome β) : Prop :=
  ∀ ts v rest, f ts = .ok v [] → NoString env rest → f (ts ++ rest) = .ok v rest

theorem Extends.map {f : List Token → Outcome β} (hf : Extends env f) (g : β → γ) :
    Extends env fun ts => (f ts).map g := by
  intro ts w rest h hrest
  obtain ⟨v, us, hv, hw⟩ := bind_ok h
  simp only [Outcome.ok.injEq] at hw
  obtain ⟨rfl, rfl⟩ := hw
  simp only [hf ts v rest hv hrest]
  rfl

theorem extends_cmdArguments : Extends env (cmdArguments env)
  | [], v, rest, h, hrest => by
    simp only [cmdArguments, Outcome.ok.injEq, and_true] at h
    subst h
    cases rest with
    | nil => rfl
    | cons t rest =>
      rw [List.nil_append, cmdArguments, show string env t = none from hrest]
  | t :: ts, v, rest, h, hrest => by
    rw [cmdArguments] at h
    rw [List.cons_append, cmdArguments]
    rcases hs : string env t with _ | _ | value
    · simp [hs] at h
    · simp [hs] at h
    · simp only [hs] at h ⊢
      exact extends_cmdArguments.map (value :: ·) ts v rest h hrest

theorem extends_expectString : Extends env (expectString env)
  | [], v, rest, h, _ => by simp [expectString] at h
  | t :: ts, v, rest, h, _ => by
    rw [expectString] at h
    rw [List.cons_append, expectString]
    cases hs : string env t with
    | none => simp [hs] at h
    | some value =>
      rw [hs] at h
      obtain ⟨rfl, rfl⟩ := ofAction_ok h
      rfl

theorem extends_exportContent : Extends env (exportContent env) := by
  intro ts v rest h hrest
  unfold exportContent at h
  split at h
  · next envVar ts => exact extends_expectString.map (.export envVar) ts v rest h hrest
  · simp at h
  · simp at h

theorem extends_cdContent : Extends env (cdContent env realpath)
  | [], v, rest, h, hrest => by
    obtain ⟨hv, -⟩ := ofAction_ok h
    cases rest with
    | nil => exact h
    | cons t rest =>
      rw [List.nil_append, cdContent, show string env t = none from hrest]
      simp only [hv]
      rfl
  | t :: ts, v, rest, h, _ => by
    rw [cdContent] at h
    rw [List.cons_append, cdContent]
    cases hs : string env t with
    | none =>
      rw [hs] at h
      exact absurd (ofAction_ok h).2 (List.cons_ne_nil t ts)
    | some dir =>
      rw [hs] at h
      obtain ⟨hv, rfl⟩ := ofAction_ok h
      simp only [hv]
      rfl

theorem extends_killContent : Extends env killContent := by
  intro ts v rest h _
  unfold killContent at h
  split at h
  · simp only [Outcome.ok.injEq] at h
    obtain ⟨rfl, rfl⟩ := h
    rfl
  · simp at h
  · simp at h

theorem extends_done (c : Command) : Extends env fun ts => .ok c ts := by
  intro ts v rest h _
  simp only [Outcome.ok.injEq] at h
  obtain ⟨rfl, rfl⟩ := h
  rfl

/-- A command stands in front of a token that it does not take. -/
theorem extends_cmdContent : Extends env (cmdContent env realpath) := by
  have harguments : ∀ g : List Str → Command, Extends env fun ts => (cmdArguments env ts).map g :=
    extends_cmdArguments.map
  rintro (_ | ⟨t, ts⟩) v rest h hrest
  · simp [cmdContent] at h
  cases t with
  | echoTok => exact harguments .echo ts v rest h hrest
  | exportTok => exact extends_exportContent ts v rest h hrest
  | cdTok => exact extends_cdContent ts v rest h hrest
  | killTok => exact extends_killContent ts v rest h hrest
  | pwdTok => exact extends_done .pwd ts v rest h hrest
  | jobsTok => exact extends_done .jobs ts v rest h hrest
  | exitTok s => exact extends_done .exit ts v rest h hrest
  | num s => exact harguments (fun args => .generic (s :: args)) ts v rest h hrest
  | id s => exact harguments (fun args => .generic (s :: args)) ts v rest h hrest
  | simStr s => exact harguments (fun args => .generic (s :: args)) ts v rest h hrest
  | str s =>
    rw [List.cons_append]
    cases hs : Words.interpretComplexStringToken env s with
    | none => simp [cmdContent, firstString, hs] at h
    | some value =>
      simp only [cmdContent, firstString, hs] at h ⊢
      exact harguments (fun args => .generic (value :: args)) ts v rest h hrest
  | _ => simp [cmdContent, firstString] at h

/-! ### The list of redirections -/

/-- A redirection as it is written: the mark, the word behind it, and the file name the word stands for. -/
structure Redirection where
  mark : RedirMark
  word : Token
  file : Str

def markToken : RedirMark → Token
  | .input => .redirIn
  | .out => .redirOut
  | .append => .redirOutApp

theorem redirMark_markToken (mark : RedirMark) : redirMark (markToken mark) = some mark := by
  cases mark <;> rfl

def tokens (l : List Redirection) : List Token := l.flatMap fun r => [markToken r.mark, r.word]

/-- Each word stands for its file name. -/
def Named (env : Str → Option Str) (l : List Redirection) : Prop :=
  ∀ r ∈ l, string env r.word = some (some r.file)

/-- The files of the `<`. -/
def inputs (l : List Redirection) : List Str :=
  l.filterMap fun r => if r.mark = .input then some r.file else none

/-- The files of the `>` and `>>`, and whether it is a `>>`. -/
def outputs (l : List Redirection) : List (Str × Bool) :=
  l.filterMap fun r => if r.mark = .input then none else some (r.file, r.mark = .append)

/-- What `redir` makes of the list. -/
def merged : List Redirection → Redirect
  | [] => noRedirect
  | r :: l => addRedirect r.mark r.file (merged l)

/-- **The first redirection of a kind stays.** -/
theorem merged_eq : ∀ l : List Redirection, merged l =
    ⟨(inputs l).head?, (outputs l).head?.map Prod.fst, ((outputs l).head?.map Prod.snd).getD false⟩
  | [] => rfl
  | r :: l => by
    have ih := merged_eq l
    obtain ⟨mark, word, file⟩ := r
    rw [merged, ih]
    cases mark <;> rfl

theorem redir_tokens {rest : List Token} (hrest : rest.head?.bind redirMark = none) :
    ∀ {l : List Redirection}, Named env l → redir env (tokens l ++ rest) = .ok (merged l) rest
  | [], _ => redir_none hrest
  | r :: l, h => by
    obtain ⟨hr, hl⟩ := List.forall_mem_cons.mp h
    have hcons := redir_cons (redirMark_markToken r.mark) hr (tokens l ++ rest)
    rw [redir_tokens hrest hl] at hcons
    exact hcons

/-! ### A command with redirections -/

/-- The next stage or the end of the line comes. -/
def StageEnd (rest : List Token) : Prop := ∀ t ∈ rest.head?, t = .pipe ∨ t = .eocTok

theorem stageEnd_nil : StageEnd [] := by simp [StageEnd]

/-- The `&` of a command. -/
def bgTokens (bg : Bool) : List Token := if bg then [.bckgrnd] else []

theorem cmdBg_tokens (bg : Bool) {rest : List Token} (hrest : StageEnd rest) :
    cmdBg (bgTokens bg ++ rest) = .ok bg rest := by
  cases bg with
  | true => rfl
  | false =>
    cases rest with
    | nil => rfl
    | cons t rest => rcases hrest t rfl with rfl | rfl <;> rfl

theorem noString_tokens (l : List Redirection) (bg : Bool) {rest : List Token} (hrest : StageEnd rest) :
    NoString env (tokens l ++ (bgTokens bg ++ rest)) := by
  cases l with
  | cons r l => obtain ⟨mark, word, file⟩ := r; cases mark <;> rfl
  | nil =>
    cases bg with
    | true => rfl
    | false =>
      cases rest with
      | nil => rfl
      | cons t rest => rcases hrest t rfl with rfl | rfl <;> rfl

theorem noMark_tokens (bg : Bool) {rest : List Token} (hrest : StageEnd rest) :
    (bgTokens bg ++ rest).head?.bind redirMark = none := by
  cases bg with
  | true => rfl
  | false =>
    cases rest with
    | nil => rfl
    | cons t rest => rcases hrest t rfl with rfl | rfl <;> rfl

/-- Every list of redirections is accepted behind a command. -/
theorem parseCmdTop_tokens {cs : List Token} {content : Command}
    (hcs : cmdContent env realpath cs = .ok content []) {l : List Redirection} (hl : Named env l) (bg : Bool)
    {rest : List Token} (hrest : StageEnd rest) :
    parseCmdTop env realpath (cs ++ (tokens l ++ (bgTokens bg ++ rest))) =
      .ok (cmdTop content (merged l) bg) rest := by
  rw [parseCmdTop, extends_cmdContent cs content _ hcs (noString_tokens l bg hrest)]
  simp only [Outcome.bind, redir_tokens (noMark_tokens bg hrest) hl, cmdBg_tokens bg hrest]
  rfl

/-- The last redirection of each kind is the one of the command. -/
structure LastWins (l : List Redirection) (holder : CommandHolder) : Prop where
  input : holder.redirectIn = (inputs l).getLast?
  inFlag : holder.flags.redirectIn = true ↔ inputs l ≠ []
  out : holder.redirectOut = (outputs l).getLast?.map Prod.fst
  appendFlag : holder.flags.redirectAppend = true ↔ ∃ file, (outputs l).getLast? = some (file, true)

theorem lastWins_cmdTop {l : List Redirection} {content : Command} {bg : Bool} :
    LastWins l (cmdTop content (merged l) bg) ↔
      (inputs l).head? = (inputs l).getLast? ∧ (outputs l).head? = (outputs l).getLast? := by
  rw [merged_eq]
  constructor
  · rintro ⟨hin, -, hout, happ⟩
    refine ⟨hin, ?_⟩
    simp only [cmdTop] at hout happ
    rcases hf : (outputs l).head? with _ | ⟨file, app⟩ <;>
      rcases hl : (outputs l).getLast? with _ | ⟨file', app'⟩
    · rfl
    · simp [hf, hl] at hout
    · simp [hf, hl] at hout
    · obtain rfl : file = file' := by simpa [hf, hl] using hout
      have happ' : app = true ↔ app' = true := by simpa [hf, hl] using happ
      rw [Bool.eq_iff_iff.mpr happ']
  · rintro ⟨hin, hout⟩
    refine ⟨hin, ?_, congrArg (Option.map Prod.fst) hout, ?_⟩
    · simp only [cmdTop]
      cases inputs l <;> simp
    · simp only [cmdTop, ← hout]
      rcases (outputs l).head? with _ | ⟨file, _ | _⟩ <;> simp

/-- **When the last redirection of a kind wins.** Behind every command every list of redirections is
accepted. The command has the last input and the last output redirection if and only if these are the same
as the first ones: the same file, and for the output the same mark. -/
theorem last_wins_iff {cs : List Token} {content : Command}
    (hcs : cmdContent env realpath cs = .ok content []) {l : List Redirection} (hl : Named env l) (bg : Bool)
    {rest : List Token} (hrest : StageEnd rest) :
    ∃ holder, parseCmdTop env realpath (cs ++ (tokens l ++ (bgTokens bg ++ rest))) = .ok holder rest ∧
      holder.cmd = content ∧ holder.flags.background = bg ∧
      (LastWins l holder ↔
        (inputs l).head? = (inputs l).getLast? ∧ (outputs l).head? = (outputs l).getLast?) :=
  ⟨_, parseCmdTop_tokens hcs hl bg hrest, rfl, rfl, lastWins_cmdTop⟩

/-- The command `c < f >> g`. -/
theorem last_wins_iff_both : ∃ holder, parseCmdTop (fun _ => none) (fun _ => none)
      ([.id ['c'], .redirIn, .id ['f'], .redirOutApp, .id ['g']] ++ []) = .ok holder [] ∧
    LastWins [⟨.input, .id ['f'], ['f']⟩, ⟨.append, .id ['g'], ['g']⟩] holder := by
  have hcs : cmdContent (fun _ => none) (fun _ => none) [.id ['c']] = .ok (.generic [['c']]) [] := rfl
  have hl : Named (fun _ => none) [⟨.input, .id ['f'], ['f']⟩, ⟨.append, .id ['g'], ['g']⟩] := by
    rintro r hr
    simp only [List.mem_cons, List.not_mem_nil, or_false] at hr
    rcases hr with rfl | rfl <;> rfl
  obtain ⟨holder, hparse, -, -, hiff⟩ := last_wins_iff hcs hl false stageEnd_nil
  exact ⟨holder, hparse, hiff.mpr ⟨rfl, rfl⟩⟩

/-- The command `c < a < b` reads `a`, and `c > a >> b` truncates `a`. -/
theorem last_wins_iff_twice :
    (∃ holder, parseCmdTop (fun _ => none) (fun _ => none)
        [.id ['c'], .redirIn, .id ['a'], .redirIn, .id ['b'], .eocTok] = .ok holder [.eocTok] ∧
      holder.redirectIn = some ['a'] ∧
      ¬ LastWins [⟨.input, .id ['a'], ['a']⟩, ⟨.input, .id ['b'], ['b']⟩] holder) ∧
    ∃ holder, parseCmdTop (fun _ => none) (fun _ => none)
        [.id ['c'], .redirOut, .id ['a'], .redirOutApp, .id ['b'], .eocTok] = .ok holder [.eocTok] ∧
      holder.redirectOut = some ['a'] ∧ holder.flags.redirectAppend = false := by
  refine ⟨⟨_, rfl, rfl, fun h => ?_⟩, ⟨_, rfl, rfl, rfl⟩⟩
  exact absurd h.input (by decide)

end Eecs678.Quash.Redirections
