import Eecs678.Quash.Lines
import Mathlib.Data.List.Infix

/-!
# The stages of a pipeline

What `parse` returns for a pipeline in terms of the tokens that it was written with. `Reads` says of a
nonterminal which tokens it takes; `parseCmds_stages` splits a pipeline into its stages, and
`cmds_getElem?` says what the actions of the grammar make of each of them.
-/

namespace Eecs678.Quash.Stages

open Eecs678.Quash.Commands Eecs678.Quash.Actions Eecs678.Quash.Execute
open Eecs678.Quash.Lexer Eecs678.Quash.Parser Eecs678.Quash.Lines Eecs678.Quash.Words

variable {β γ : Type} {env realpath : Str → Option Str}

/-! ### What a nonterminal reads -/

/-- The function takes tokens with `P` from the front, and the same ones if less follows. -/
def Reads (f : List Token → Outcome β) (P : List Token → β → Prop) : Prop :=
  ∀ ts v rest, f ts = .ok v rest → ∃ used, ts = used ++ rest ∧ P used v ∧
    ∀ rest', rest' <+: rest → f (used ++ rest') = .ok v rest'

theorem bind_ok {x : Outcome β} {f : β → List Token → Outcome γ} {w : γ} {rest : List Token}
    (h : x.bind f = .ok w rest) : ∃ v ts, x = .ok v ts ∧ f v ts = .ok w rest := by
  cases x with
  | ok v ts => exact ⟨v, ts, rfl, h⟩
  | error ts => simp [Outcome.bind] at h
  | abort => simp [Outcome.bind] at h

theorem Reads.bind {f : List Token → Outcome β} {g : β → List Token → Outcome γ}
    {P : List Token → β → Prop} {Q : β → List Token → γ → Prop} (hf : Reads f P)
    (hg : ∀ v, Reads (g v) (Q v)) : Reads (fun ts => (f ts).bind g)
      fun used w => ∃ v us₁ us₂, used = us₁ ++ us₂ ∧ P us₁ v ∧ Q v us₂ w := by
  intro ts w rest h
  obtain ⟨v, ts₁, hv, hw⟩ := bind_ok h
  obtain ⟨us₁, rfl, hP, hf'⟩ := hf ts v ts₁ hv
  obtain ⟨us₂, rfl, hQ, hg'⟩ := hg v ts₁ w rest hw
  refine ⟨us₁ ++ us₂, (List.append_assoc ..).symm, ⟨v, us₁, us₂, rfl, hP, hQ⟩, fun rest' hpre => ?_⟩
  simp only [List.append_assoc, hf' _ ((List.prefix_append_right_inj us₂).mpr hpre)]
  exact hg' rest' hpre

/-- A function that reads no token. -/
theorem reads_pure (v : β) : Reads (fun ts => .ok v ts) fun used w => used = [] ∧ w = v := by
  intro ts w rest h
  simp only [Outcome.ok.injEq] at h
  obtain ⟨rfl, rfl⟩ := h
  exact ⟨[], rfl, ⟨rfl, rfl⟩, fun _ _ => rfl⟩

theorem Reads.mono {f : List Token → Outcome β} {P Q : List Token → β → Prop} (hf : Reads f P)
    (h : ∀ used v, P used v → Q used v) : Reads f Q := by
  intro ts v rest hok
  obtain ⟨used, he, hP, hf'⟩ := hf ts v rest hok
  exact ⟨used, he, h used v hP, hf'⟩

theorem Reads.map {f : List Token → Outcome β} {P : List Token → β → Prop} (hf : Reads f P)
    (g : β → γ) : Reads (fun ts => (f ts).map g) fun used w => ∃ v, w = g v ∧ P used v :=
  (hf.bind fun v => reads_pure (g v)).mono fun used w ⟨v, us₁, us₂, hu, hP, hnil, hw⟩ => by
    rw [hnil, List.append_nil] at hu
    exact ⟨v, hw, hu ▸ hP⟩

/-! ### Commands -/

/-- The tokens that do not stand in a command. -/
def isMark : Token → Bool
  | .pipe | .bckgrnd | .redirIn | .redirOut | .redirOutApp | .eocTok => true
  | _ => false

/-- None of the tokens is a mark. -/
def Words (used : List Token) : Prop := ∀ t ∈ used, isMark t = false

theorem Words.cons {t : Token} {used : List Token} (ht : isMark t = false) (h : Words used) :
    Words (t :: used) := List.forall_mem_cons.mpr ⟨ht, h⟩

theorem string_word {t : Token} {value : Option Str} (h : string env t = some value) :
    isMark t = false := by
  cases t <;> first | rfl | simp [string, firstString, specialString] at h

theorem reads_cmdArguments : Reads (cmdArguments env) fun used _ => Words used
  | [], v, rest, h => by
    simp only [cmdArguments, Outcome.ok.injEq] at h
    obtain ⟨rfl, rfl⟩ := h
    exact ⟨[], rfl, by simp [Words], fun rest' hpre => by rw [List.prefix_nil.mp hpre]; rfl⟩
  | t :: ts, v, rest, h => by
    rw [cmdArguments] at h
    cases hs : string env t with
    | none =>
      rw [hs] at h
      simp only [Outcome.ok.injEq] at h
      obtain ⟨rfl, rfl⟩ := h
      refine ⟨[], rfl, by simp [Words], fun rest' hpre => ?_⟩
      rcases List.prefix_cons_iff.mp hpre with rfl | ⟨r, rfl, -⟩
      · rfl
      · rw [List.nil_append, cmdArguments, hs]
    | some value =>
      rw [hs] at h
      cases value with
      | none => simp at h
      | some value =>
        obtain ⟨args, ts₁, hargs, hv⟩ := bind_ok h
        simp only [Outcome.ok.injEq] at hv
        obtain ⟨rfl, rfl⟩ := hv
        obtain ⟨used, rfl, hw, hread⟩ := reads_cmdArguments ts args ts₁ hargs
        refine ⟨t :: used, rfl, hw.cons (string_word hs), fun rest' hpre => ?_⟩
        rw [List.cons_append, cmdArguments, hs]
        simp only [hread rest' hpre]
        rfl

theorem ofAction_ok {value : Option β} {ts : List Token} {v : β} {rest : List Token}
    (h : Outcome.ofAction value ts = .ok v rest) : value = some v ∧ ts = rest := by
  cases value with
  | none => simp [Outcome.ofAction] at h
  | some value =>
    simp only [Outcome.ofAction, Outcome.ok.injEq] at h
    exact ⟨congrArg some h.1, h.2⟩

theorem reads_expectString : Reads (expectString env) fun used _ => Words used := by
  intro ts v rest h
  cases ts with
  | nil => simp [expectString] at h
  | cons t ts =>
    rw [expectString] at h
    cases hs : string env t with
    | none => simp [hs] at h
    | some value =>
      rw [hs] at h
      obtain ⟨rfl, rfl⟩ := ofAction_ok h
      refine ⟨[t], rfl, Words.cons (string_word hs) (by simp [Words]), fun rest' _ => ?_⟩
      rw [List.singleton_append, expectString, hs]
      rfl

theorem reads_exportContent : Reads (exportContent env) fun used _ => Words used := by
  intro ts v rest h
  unfold exportContent at h
  split at h
  · next envVar ts =>
    obtain ⟨used, hts, ⟨val, rfl, hw⟩, hread⟩ :=
      reads_expectString.map (.export envVar) ts v rest h
    refine ⟨.id envVar :: .equals :: used, by rw [hts]; rfl, Words.cons rfl (Words.cons rfl hw),
      fun rest' hpre => hread rest' hpre⟩
  · simp at h
  · simp at h

theorem reads_cdContent : Reads (cdContent env realpath) fun used _ => Words used := by
  intro ts v rest h
  have hhome : ∀ {ts : List Token}, ts.head?.bind (string env) = none → cdContent env realpath ts =
      .ofAction ((env "HOME".toList).map fun home => .cd (some home)) ts := fun {ts} hs => by
    cases ts with
    | nil => rfl
    | cons t ts =>
      rw [cdContent, show string env t = none from hs]
  cases hs : ts.head?.bind (string env) with
  | none =>
    rw [hhome hs] at h
    obtain ⟨hv, rfl⟩ := ofAction_ok h
    refine ⟨[], rfl, by simp [Words], fun rest' hpre => ?_⟩
    have hs' : rest'.head?.bind (string env) = none := by
      cases rest' with
      | nil => rfl
      | cons t r =>
        obtain ⟨r', rfl⟩ := hpre
        exact hs
    rw [List.nil_append, hhome hs', hv]
    rfl
  | some dir =>
    cases ts with
    | nil => simp at hs
    | cons t ts =>
      have hs' : string env t = some dir := hs
      rw [cdContent, hs'] at h
      obtain ⟨hv, rfl⟩ := ofAction_ok h
      refine ⟨[t], rfl, Words.cons (string_word hs') (by simp [Words]), fun rest' _ => ?_⟩
      rw [List.singleton_append, cdContent, hs']
      simp only [hv]
      rfl

theorem reads_killContent : Reads killContent fun used _ => Words used := by
  intro ts v rest h
  unfold killContent at h
  split at h
  · next sig job ts =>
    simp only [Outcome.ok.injEq] at h
    obtain ⟨rfl, rfl⟩ := h
    exact ⟨[.num sig, .num job], rfl, Words.cons rfl (Words.cons rfl (by simp [Words])), fun _ _ => rfl⟩
  · simp at h
  · simp at h

/-- A function that takes a word and goes on as `g`. -/
theorem reads_word {f g : List Token → Outcome β} {t : Token} (ht : isMark t = false)
    (he : ∀ ts, f (t :: ts) = g ts) (hg : Reads g fun used _ => Words used) {ts : List Token} {v : β}
    {rest : List Token} (h : f (t :: ts) = .ok v rest) : ∃ used, t :: ts = used ++ rest ∧ Words used ∧
      ∀ rest', rest' <+: rest → f (used ++ rest') = .ok v rest' := by
  obtain ⟨used, hts, hw, hg'⟩ := hg ts v rest (he ts ▸ h)
  refine ⟨t :: used, by rw [hts]; rfl, hw.cons ht, fun rest' hpre => ?_⟩
  rw [List.cons_append, he]
  exact hg' rest' hpre

theorem reads_done (c : Command) : Reads (fun ts => .ok c ts) fun used _ => Words used :=
  (reads_pure c).mono fun used _ hu => by simp [Words, hu.1]

theorem reads_arguments (g : List Str → Command) :
    Reads (fun ts => (cmdArguments env ts).map g) fun used _ => Words used :=
  (reads_cmdArguments.map g).mono fun _ _ ⟨_, _, hw⟩ => hw

/-- The first token of a command says how it goes on. -/
theorem reads_cmdContent : Reads (cmdContent env realpath) fun used _ => Words used := by
  intro ts v rest h
  cases ts with
  | nil => simp [cmdContent] at h
  | cons t ts =>
    cases t with
    | echoTok => exact reads_word rfl (fun _ => rfl) (reads_arguments .echo) h
    | exportTok => exact reads_word rfl (fun _ => rfl) reads_exportContent h
    | cdTok => exact reads_word rfl (fun _ => rfl) reads_cdContent h
    | killTok => exact reads_word rfl (fun _ => rfl) reads_killContent h
    | pwdTok => exact reads_word rfl (fun _ => rfl) (reads_done .pwd) h
    | jobsTok => exact reads_word rfl (fun _ => rfl) (reads_done .jobs) h
    | exitTok s => exact reads_word rfl (fun _ => rfl) (reads_done .exit) h
    | num s => exact reads_word rfl (fun _ => rfl) (reads_arguments fun args => .generic (s :: args)) h
    | id s => exact reads_word rfl (fun _ => rfl) (reads_arguments fun args => .generic (s :: args)) h
    | simStr s => exact reads_word rfl (fun _ => rfl) (reads_arguments fun args => .generic (s :: args)) h
    | str s =>
      cases hs : interpretComplexStringToken env s with
      | none => simp [cmdContent, firstString, hs] at h
      | some value =>
        have he : ∀ ts, cmdContent env realpath (.str s :: ts) =
            (cmdArguments env ts).map fun args => .generic (value :: args) := fun ts => by
          simp only [cmdContent, firstString, hs]
        exact reads_word rfl he (reads_arguments fun args => .generic (value :: args)) h
    | _ => simp [cmdContent, firstString] at h

/-! ### Redirections -/

/-- What the redirections of a stage say. -/
structure Redirs (used : List Token) (red : Redirect) : Prop where
  input : red.input.isSome = true ↔ .redirIn ∈ used
  out : red.out.isSome = true ↔ .redirOut ∈ used ∨ .redirOutApp ∈ used
  append : red.append = true → red.out.isSome = true
  others : .pipe ∉ used ∧ .bckgrnd ∉ used ∧ .eocTok ∉ used

theorem redirs_nil : Redirs [] noRedirect :=
  ⟨by simp [noRedirect], by simp [noRedirect], by simp [noRedirect], by simp⟩

theorem redir_none {ts : List Token} (h : ts.head?.bind redirMark = none) :
    redir env ts = .ok noRedirect ts := by
  rcases ts with _ | ⟨t, _ | ⟨u, ts⟩⟩
  · rfl
  · rw [redir, show redirMark t = none from h]
  · rw [redir, show redirMark t = none from h]

/-- **A redirection in front** of the others, whether there are others or not. -/
theorem redir_cons {t u : Token} {mark : RedirMark} {file : Str} (ht : redirMark t = some mark)
    (hu : string env u = some (some file)) (ts : List Token) :
    redir env (t :: u :: ts) = (redir env ts).map (addRedirect mark file) := by
  have hlast : addRedirect mark file noRedirect = lastRedirect mark file := by cases mark <;> rfl
  rw [redir, ht]
  simp only [hu]
  cases ts with
  | nil => rw [redir_none rfl, ← hlast]; rfl
  | cons v ts =>
    simp only
    split_ifs with hv
    · rfl
    · have hnone : redirMark v = none := by simpa using hv
      rw [redir_none (show (v :: ts).head?.bind redirMark = none from hnone), ← hlast]
      rfl

theorem redirs_cons {t u : Token} {mark : RedirMark} {file : Str} (ht : redirMark t = some mark)
    (hu : isMark u = false) {used : List Token} {red : Redirect} (h : Redirs used red) :
    Redirs (t :: u :: used) (addRedirect mark file red) := by
  obtain ⟨hin, hout, happ, h1, h2, h3⟩ := h
  have hne : ∀ {m : Token}, isMark m = true → m ≠ u := fun hm he => by simp [he, hu] at hm
  have hno : ∀ {m : Token}, isMark m = true → redirMark m = none → m ∉ used → m ∉ t :: u :: used :=
    fun {m} hm hr hmem => by
      have hmt : m ≠ t := fun he => by simp [← he, hr] at ht
      simp [hmt, hne hm, hmem]
  have hred : (.redirIn ∈ t :: u :: used ↔ .redirIn = t ∨ .redirIn ∈ used) ∧
      (.redirOut ∈ t :: u :: used ↔ .redirOut = t ∨ .redirOut ∈ used) ∧
      (.redirOutApp ∈ t :: u :: used ↔ .redirOutApp = t ∨ .redirOutApp ∈ used) := by
    simp [hne (m := .redirIn) rfl, hne (m := .redirOut) rfl, hne (m := .redirOutApp) rfl]
  refine ⟨?_, ?_, ?_, hno rfl rfl h1, hno rfl rfl h2, hno rfl rfl h3⟩
  · rw [hred.1]
    cases t <;> simp only [redirMark, Option.some.injEq, reduceCtorEq] at ht <;> subst ht <;>
      simp [addRedirect, hin]
  · rw [hred.2.1, hred.2.2]
    cases t <;> simp only [redirMark, Option.some.injEq, reduceCtorEq] at ht <;> subst ht <;>
      simp [addRedirect, hout]
  · cases mark with
    | input => exact happ
    | out => exact fun _ => rfl
    | append => exact fun _ => rfl

/-- If no redirection comes, the function reads nothing. -/
theorem reads_redir_none {ts : List Token} (hnone : ts.head?.bind redirMark = none) {v : Redirect}
    {rest : List Token} (h : redir env ts = .ok v rest) : ∃ used, ts = used ++ rest ∧ Redirs used v ∧
      ∀ rest', rest' <+: rest → redir env (used ++ rest') = .ok v rest' := by
  rw [redir_none hnone, Outcome.ok.injEq] at h
  obtain ⟨rfl, rfl⟩ := h
  refine ⟨[], rfl, redirs_nil, fun rest' hpre => redir_none ?_⟩
  cases rest' with
  | nil => rfl
  | cons t r =>
    obtain ⟨r', rfl⟩ := hpre
    exact hnone

theorem reads_redir : Reads (redir env) Redirs
  | [], v, rest, h => reads_redir_none rfl h
  | [t], v, rest, h => by
    cases ht : redirMark t with
    | none => exact reads_redir_none (show [t].head?.bind redirMark = none from ht) h
    | some mark => simp [redir, ht] at h
  | t :: u :: ts, v, rest, h => by
    cases ht : redirMark t with
    | none => exact reads_redir_none (show (t :: u :: ts).head?.bind redirMark = none from ht) h
    | some mark =>
      rcases hu : string env u with _ | _ | file
      · simp [redir, ht, hu] at h
      · simp [redir, ht, hu] at h
      · rw [redir_cons ht hu] at h
        obtain ⟨red, ts₁, hred, hv⟩ := bind_ok h
        simp only [Outcome.ok.injEq] at hv
        obtain ⟨rfl, rfl⟩ := hv
        obtain ⟨used, rfl, hr, hread⟩ := reads_redir ts red ts₁ hred
        refine ⟨t :: u :: used, rfl, redirs_cons ht (string_word hu) hr, fun rest' hpre => ?_⟩
        rw [List.cons_append, List.cons_append, redir_cons ht hu, hread rest' hpre]
        rfl

theorem reads_cmdBg : Reads cmdBg fun used bg => used = if bg then [.bckgrnd] else [] := by
  intro ts v rest h
  unfold cmdBg at h
  split at h
  · next ts =>
    simp only [Outcome.ok.injEq] at h
    obtain ⟨rfl, rfl⟩ := h
    exact ⟨[.bckgrnd], rfl, rfl, fun _ _ => rfl⟩
  · next hne =>
    simp only [Outcome.ok.injEq] at h
    obtain ⟨rfl, rfl⟩ := h
    refine ⟨[], rfl, rfl, fun rest' ⟨r', hr⟩ => ?_⟩
    cases rest' with
    | nil => rfl
    | cons t r =>
      cases t with
      | bckgrnd => exact (hne (r ++ r') hr.symm).elim
      | _ => rfl

/-! ### A stage -/

/-- What `cmd_top` makes of the tokens of a stage. -/
structure Stage (used : List Token) (own : CommandHolder) : Prop where
  pipe : .pipe ∉ used
  eoc : .eocTok ∉ used
  redirectIn : own.flags.redirectIn = true ↔ .redirIn ∈ used
  redirectOut : own.flags.redirectOut = true ↔ .redirOut ∈ used ∨ .redirOutApp ∈ used
  append : own.flags.redirectAppend = true → own.flags.redirectOut = true
  background : own.flags.background = true ↔ .bckgrnd ∈ used
  plain : Plain own

theorem Words.not_mem {used : List Token} (h : Words used) {m : Token} (hm : isMark m = true) :
    m ∉ used := fun hmem => by simp [h m hmem] at hm

theorem reads_parseCmdTop : Reads (parseCmdTop env realpath) Stage := by
  refine (reads_cmdContent.bind fun content => reads_redir.bind fun red => reads_cmdBg.map
    (cmdTop content red)).mono ?_
  rintro _ _ ⟨content, us₁, _, rfl, hw, red, us₂, us₃, rfl, ⟨hin, hout, happ, h1, h2, h3⟩, bg, rfl, rfl⟩
  have hpipe : .pipe ∉ us₁ := hw.not_mem rfl
  have heoc : .eocTok ∉ us₁ := hw.not_mem rfl
  have hredirIn : .redirIn ∉ us₁ := hw.not_mem rfl
  have hredirOut : .redirOut ∉ us₁ := hw.not_mem rfl
  have hredirOutApp : .redirOutApp ∉ us₁ := hw.not_mem rfl
  have hbckgrnd : .bckgrnd ∉ us₁ := hw.not_mem rfl
  refine ⟨?_, ?_, ?_, ?_, happ, ?_, plain_cmdTop _ _ _⟩
  · cases bg <;> simp [hpipe, h1]
  · cases bg <;> simp [heoc, h3]
  · rw [cmdTop]
    cases bg <;> simp [hredirIn, hin]
  · rw [cmdTop]
    cases bg <;> simp [hredirOut, hredirOutApp, hout]
  · rw [cmdTop]
    cases bg <;> simp [hbckgrnd, h2]

/-! ### Pipelines -/

/-- The stages of a pipeline are read as they stand. -/
def Staged (env realpath : Str → Option Str) (stages : List (List Token × CommandHolder)) : Prop :=
  ∀ x ∈ stages, Stage x.1 x.2 ∧ parseCmdTop env realpath x.1 = .ok x.2 []

/-- **`cmds` reads stages with pipes between them.** -/
theorem parseCmds_stages : ∀ {n : ℕ} {ts : List Token} {holders : List CommandHolder} {rest : List Token},
    parseCmds env realpath n ts = .ok holders rest → ∃ used own more,
      ts = [.pipe].intercalate (used :: more.map Prod.fst) ++ rest ∧
      holders = cmds own (more.map Prod.snd) ∧ Staged env realpath ((used, own) :: more)
  | 0, ts, holders, rest, h => by simp [parseCmds] at h
  | n + 1, ts, holders, rest, h => by
    obtain ⟨own, ts₁, hown, hrest⟩ := bind_ok h
    obtain ⟨used, rfl, hstage, hread⟩ := reads_parseCmdTop ts own ts₁ hown
    have halone : parseCmdTop env realpath used = .ok own [] := by
      have hnil := hread [] (List.nil_prefix)
      rwa [List.append_nil] at hnil
    split at hrest
    · next ts₂ =>
      obtain ⟨holders', ts₃, hmore, hmap⟩ := bind_ok hrest
      simp only [Outcome.ok.injEq] at hmap
      obtain ⟨rfl, rfl⟩ := hmap
      obtain ⟨used', own', more, rfl, rfl, hstaged⟩ := parseCmds_stages hmore
      refine ⟨used, own, (used', own') :: more, ?_, rfl,
        List.forall_mem_cons.mpr ⟨⟨hstage, halone⟩, hstaged⟩⟩
      rw [List.map_cons, List.intercalate_cons_cons]
      simp
    · simp only [Outcome.ok.injEq] at hrest
      obtain ⟨rfl, rfl⟩ := hrest
      refine ⟨used, own, [], ?_, rfl, List.forall_mem_cons.mpr ⟨⟨hstage, halone⟩, by simp⟩⟩
      rw [List.map_nil, List.intercalate_singleton]

/-- Stage `k` of a pipeline of the stages `owns`. -/
def stageAt (owns : List CommandHolder) (k : ℕ) (own : CommandHolder) : CommandHolder :=
  { own with flags :=
      { redirectIn := own.flags.redirectIn && k = 0
        redirectOut := own.flags.redirectOut && k + 1 = owns.length
        redirectAppend := own.flags.redirectAppend && k + 1 = owns.length
        pipeIn := 0 < k
        pipeOut := k + 1 < owns.length
        background := (owns.drop k).any fun x => x.flags.background } }

theorem stageAt_single {own : CommandHolder} (h : Plain own) : stageAt [own] 0 own = own := by
  obtain ⟨_, _, ⟨_, _, _, _, _, _⟩, _⟩ := own
  obtain ⟨rfl, rfl⟩ := h
  simp [stageAt]

/-- A stage that is not the first one does not know how many there are before it. -/
theorem stageAt_succ (own : CommandHolder) (owns : List CommandHolder) (k : ℕ) (x : CommandHolder) :
    stageAt (own :: owns) (k + 2) x = stageAt owns (k + 1) x := by
  simp [stageAt]

theorem pipeFrom_eq {own next : CommandHolder} {more : List CommandHolder} (h : Plain own) :
    pipeFrom own (stageAt (next :: more) 0 next) = stageAt (own :: next :: more) 0 own := by
  simp [pipeFrom, stageAt, h.1]

theorem pipeTo_eq (own next : CommandHolder) (more : List CommandHolder) :
    pipeTo (stageAt (next :: more) 0 next) = stageAt (own :: next :: more) 1 next := by
  simp [pipeTo, stageAt]

/-- **What the actions of the grammar make of each stage.** -/
theorem cmds_getElem? : ∀ (own : CommandHolder) (more : List CommandHolder) (k : ℕ),
    (∀ x ∈ own :: more, Plain x) →
      (cmds own more)[k]? = ((own :: more)[k]?).map (stageAt (own :: more) k)
  | own, [], k, h => by
    cases k with
    | zero => exact (congrArg some (stageAt_single (h own (List.mem_cons_self ..)))).symm
    | succ k => rfl
  | own, next :: more, k, h => by
    obtain ⟨hown, hnext⟩ := List.forall_mem_cons.mp h
    have ih := fun k => cmds_getElem? next more k hnext
    cases hc : cmds next more with
    | nil =>
      have hlen := cmds_length next more
      rw [hc] at hlen
      simp at hlen
    | cons prev rest =>
      rw [hc] at ih
      have hprev : prev = stageAt (next :: more) 0 next := Option.some.inj (ih 0)
      rw [cmds, hc, cmdsPipe, hprev]
      rcases k with _ | _ | k
      · exact congrArg some (pipeFrom_eq hown)
      · exact congrArg some (pipeTo_eq own next more)
      · have hk := ih (k + 1)
        rw [List.getElem?_cons_succ] at hk ⊢
        rw [List.getElem?_cons_succ, List.getElem?_cons_succ, hk]
        exact Option.map_congr fun x _ => (stageAt_succ own (next :: more) k x).symm

/-! ### The array -/

/-- The array that `top` returns: the stages and, as `none`, the `EOC` command. -/
def asArray (holders : List CommandHolder) : List (Option CommandHolder) := holders.map some ++ [none]

/-- The flags of stage `k` of `n`, which is written with the tokens `used`. -/
structure StageFlags (n k : ℕ) (used : List Token) (flags : Flags) : Prop where
  pipeOut : flags.pipeOut = true ↔ k + 1 < n
  pipeIn : flags.pipeIn = true ↔ 0 < k
  noOut : k + 1 < n → flags.redirectOut = false ∧ flags.redirectAppend = false
  noIn : 0 < k → flags.redirectIn = false
  redirectIn : k = 0 → (flags.redirectIn = true ↔ .redirIn ∈ used)
  redirectOut : k + 1 = n → (flags.redirectOut = true ↔ .redirOut ∈ used ∨ .redirOutApp ∈ used)
  append : flags.redirectAppend = true → flags.redirectOut = true

theorem stageFlags (owns : List CommandHolder) (k : ℕ) {used : List Token} {own : CommandHolder}
    (h : Stage used own) : StageFlags owns.length k used (stageAt owns k own).flags := by
  refine ⟨by simp [stageAt], by simp [stageAt], fun hk => ?_, fun hk => ?_, fun hk => ?_, fun hk => ?_, ?_⟩
  · simp [stageAt, hk.ne]
  · simp [stageAt, hk.ne']
  · simp [stageAt, hk, h.redirectIn]
  · simp [stageAt, hk, h.redirectOut]
  · simp only [stageAt, Bool.and_eq_true, and_imp]
    exact fun happ hk => ⟨h.append happ, hk⟩

theorem asArray_getElem? {holders : List CommandHolder} {k : ℕ} {x : CommandHolder}
    (h : holders[k]? = some x) : (asArray holders)[k]? = some (some x) := by
  rw [asArray, List.getElem?_append_left, List.getElem?_map, h]
  · rfl
  · rw [List.length_map]
    exact (List.getElem?_eq_some_iff.mp h).1

theorem asArray_end (holders : List CommandHolder) : (asArray holders)[holders.length]? = some none := by
  simp [asArray]

/-- After an error there is no script. -/
theorem recover_none {ended : Bool} {holders : List CommandHolder} {rest : List Token} :
    ∀ ts : List Token, recover ts ≠ .done ended (some holders) rest
  | [] => by simp [recover]
  | t :: ts => by
    cases t with
    | eocTok => simp [recover]
    | _ => exact recover_none ts

/-- A script comes from a pipeline up to the end of the line or of the input. -/
theorem yyparse_script {ts rest : List Token} {ended : Bool} {holders : List CommandHolder}
    (h : yyparse env realpath ts = .done ended (some holders) rest) :
    parseCmds env realpath ts.length ts = .ok holders (if ended then [] else .eocTok :: rest) := by
  by_cases heoc : ∃ r, ts = .eocTok :: r
  · obtain ⟨r, rfl⟩ := heoc
    simp [yyparse] at h
  · rw [yyparse_eq fun r he => heoc ⟨r, he⟩] at h
    cases hx : parseCmds env realpath ts.length ts with
    | ok holders' left =>
      rw [hx] at h
      unfold afterCmds at h
      split at h
      · next heq =>
        simp only [Outcome.ok.injEq, Parsed.done.injEq, Option.some.injEq] at heq h
        obtain ⟨rfl, rfl⟩ := heq
        obtain ⟨rfl, rfl, rfl⟩ := h
        rfl
      · next heq =>
        simp only [Outcome.ok.injEq, Parsed.done.injEq, Option.some.injEq] at heq h
        obtain ⟨rfl, rfl⟩ := heq
        obtain ⟨rfl, rfl, rfl⟩ := h
        rfl
      · exact absurd h (recover_none _)
      · exact absurd h (recover_none _)
      · simp at h
    | error left =>
      rw [hx] at h
      exact absurd h (recover_none _)
    | abort =>
      rw [hx] at h
      simp [afterCmds] at h

/-- **Pipeline flags.** If the parser accepts a line, the line is a pipeline of stages, `parse` returns the
commands of the stages in their order and then `EOC`, with the flags of `StageFlags`, and the first stage
has `BACKGROUND` if and only if a `&` stands on one of the stages. -/
theorem pipeline_flags {ts rest : List Token} {ended : Bool} {holders : List CommandHolder}
    (h : yyparse env realpath ts = .done ended (some holders) rest) :
    ∃ stages : List (List Token), stages ≠ [] ∧
      (∀ used ∈ stages, .pipe ∉ used ∧ .eocTok ∉ used) ∧
      ts = [.pipe].intercalate stages ++ (if ended then [] else .eocTok :: rest) ∧
      (asArray holders).length = stages.length + 1 ∧ (asArray holders)[stages.length]? = some none ∧
      (∀ k used, stages[k]? = some used → ∃ own holder, parseCmdTop env realpath used = .ok own [] ∧
        (asArray holders)[k]? = some (some holder) ∧ holder.cmd = own.cmd ∧
        holder.redirectIn = own.redirectIn ∧ holder.redirectOut = own.redirectOut ∧
        StageFlags stages.length k used holder.flags) ∧
      ∃ first, (asArray holders)[0]? = some (some first) ∧
        (first.flags.background = true ↔ ∃ used ∈ stages, .bckgrnd ∈ used) := by
  obtain ⟨used, own, more, hts, rfl, hstaged⟩ := parseCmds_stages (yyparse_script h)
  have hplain : ∀ x ∈ own :: more.map Prod.snd, Plain x := by
    intro x hx
    obtain ⟨y, hy, rfl⟩ := List.mem_map.mp (show x ∈ ((used, own) :: more).map Prod.snd from hx)
    exact (hstaged y hy).1.plain
  have hlen : (cmds own (more.map Prod.snd)).length = (used :: more.map Prod.fst).length := by
    rw [cmds_length]
    simp
  refine ⟨used :: more.map Prod.fst, by simp, fun u hu => ?_, hts, ?_, hlen ▸ asArray_end _,
    fun k u hk => ?_, _, asArray_getElem? (cmds_getElem? own _ 0 hplain), ?_⟩
  · obtain ⟨y, hy, rfl⟩ := List.mem_map.mp (show u ∈ ((used, own) :: more).map Prod.fst from hu)
    exact ⟨(hstaged y hy).1.pipe, (hstaged y hy).1.eoc⟩
  · rw [asArray, List.length_append, List.length_map, hlen, List.length_singleton]
  · rw [show used :: more.map Prod.fst = ((used, own) :: more).map Prod.fst from rfl,
      List.getElem?_map, Option.map_eq_some_iff] at hk
    obtain ⟨y, hy, rfl⟩ := hk
    obtain ⟨hstage, hread⟩ := hstaged y (List.mem_of_getElem? hy)
    have hget := cmds_getElem? own _ k hplain
    rw [show own :: more.map Prod.snd = ((used, own) :: more).map Prod.snd from rfl,
      List.getElem?_map, hy] at hget
    have hflags := stageFlags (((used, own) :: more).map Prod.snd) k hstage
    rw [List.length_map] at hflags
    refine ⟨y.2, _, hread, asArray_getElem? hget, rfl, rfl, rfl, ?_⟩
    simpa using hflags
  · simp only [stageAt, List.drop_zero, List.any_eq_true]
    constructor
    · rintro ⟨x, hx, hbg⟩
      obtain ⟨y, hy, rfl⟩ := List.mem_map.mp (show x ∈ ((used, own) :: more).map Prod.snd from hx)
      exact ⟨y.1, List.mem_map_of_mem hy, (hstaged y hy).1.background.mp hbg⟩
    · rintro ⟨u, hu, hbg⟩
      obtain ⟨y, hy, rfl⟩ := List.mem_map.mp (show u ∈ ((used, own) :: more).map Prod.fst from hu)
      exact ⟨y.2, List.mem_map_of_mem hy, (hstaged y hy).1.background.mpr hbg⟩

/-- The pipeline `c < f | w >> g &`. -/
theorem pipeline_flags_two : ∃ (ts : List Token) (holders : List CommandHolder)
    (stages : List (List Token)), ts = [.id ['c'], .redirIn, .id ['f'], .pipe, .id ['w'], .redirOutApp,
      .id ['g'], .bckgrnd, .eocTok] ∧
    yyparse (fun _ => none) (fun _ => none) ts = .done false (some holders) [] ∧
    ts = [.pipe].intercalate stages ++ [.eocTok] ∧ (asArray holders)[stages.length]? = some none := by
  obtain ⟨holders, h⟩ : ∃ holders, yyparse (fun _ => none) (fun _ => none) [.id ['c'], .redirIn,
    .id ['f'], .pipe, .id ['w'], .redirOutApp, .id ['g'], .bckgrnd, .eocTok] =
      .done false (some holders) [] := ⟨_, rfl⟩
  obtain ⟨stages, -, -, hts, -, heoc, -⟩ := pipeline_flags h
  exact ⟨_, holders, stages, rfl, h, hts, heoc⟩

end Eecs678.Quash.Stages
