import Eecs678.Quash.Actions
import Eecs678.Quash.Jobs

/-!
# The wiring of a pipeline

`At` is what holds of quash before each stage: its descriptors are those it started with and the read
end of the last pipe. `stage_inner` and `stage_last` are one stage, with the descriptors of its child;
`createProcesses_spec` is the loop, and `pipeline` a script.
-/

namespace Eecs678.Quash.Pipeline

open Eecs678.Lib.Descriptors Eecs678.Quash.Commands Eecs678.Quash.Actions Eecs678.Quash.Execute
  Eecs678.Quash.Jobs

/-- `pipe`, `fork` and `open` succeed. -/
structure Granted (a : Answers) : Prop where
  pipe : a.pipe = true
  fork : a.fork.isSome
  openIn : a.openIn = true
  openOut : a.openOut = true

/-- Standard input of the stage `i` of a script whose first pipe is `p`. -/
def stageIn (base : Table Obj) (p i : ℕ) (holder : CommandHolder) : Option Obj :=
  if holder.flags.redirectIn then some (.file holder.redirectIn .read)
  else if 0 < i then some (.pipeRead (p + (i - 1)))
  else base.get 0

/-- Standard output of the stage `i` of `n`. -/
def stageOut (base : Table Obj) (p n i : ℕ) (holder : CommandHolder) : Option Obj :=
  if holder.flags.redirectOut then
    some (.file holder.redirectOut (if holder.flags.redirectAppend then .append else .truncate))
  else if i + 1 < n then some (.pipeWrite (p + i))
  else base.get 1

/-- **A child of the stage `i`**: the descriptors quash started with, but for its own 0 and 1. -/
def Wired (base : Table Obj) (p n i : ℕ) (holder : CommandHolder) (t : Table Obj) : Prop :=
  ∀ fd, t.get fd = if fd = 0 then stageIn base p i holder
    else if fd = 1 then stageOut base p n i holder else base.get fd

/-- **Quash before the stage `i`.** -/
structure At (base : Table Obj) (p i : ℕ) (s : Shell) : Prop where
  init : s.dequesInitialized = true
  next : s.nextPipe = p + i
  free : 0 < i → base.get (s.pipes (1 - s.pipeIndex)).1 = none
  get : ∀ fd, s.table.get fd = if 0 < i ∧ fd = (s.pipes (1 - s.pipeIndex)).1 then
    some (.pipeRead (p + (i - 1))) else base.get fd

/-! ### The child -/

section child

variable {base : Table Obj} {p n i : ℕ} {s : Shell} {a : Answers} {holder : CommandHolder}

/-- Standard input of the child: its own 0, without the read end that was moved there. -/
theorem childIn_spec (ha : a.openIn = true) (hf : FlagsAt n i holder.flags) {t : Table Obj}
    (h0 : t.get 0 = base.get 0) (hb : base.get 0 ≠ none)
    (hprev : 0 < i → t.get (s.pipes (1 - s.pipeIndex)).1 = some (.pipeRead (p + (i - 1))) ∧
      (s.pipes (1 - s.pipeIndex)).1 ≠ 0) :
    ∃ t', childIn a holder s t = some t' ∧ ∀ fd, t'.get fd =
      if fd = 0 then stageIn base p i holder
      else if 0 < i ∧ fd = (s.pipes (1 - s.pipeIndex)).1 then none else t.get fd := by
  unfold childIn redirect stageIn
  by_cases hred : holder.flags.redirectIn = true
  · have hi := hf.redirectIn hred
    refine ⟨_, by rw [if_pos hred, if_pos ha], fun fd => ?_⟩
    rw [Table.get_open_moveTo t _ (h0 ▸ hb), if_pos hred]
    by_cases hfd : fd = 0
    · rw [if_pos hfd, if_pos hfd]
    · rw [if_neg hfd, if_neg hfd, if_neg (by omega)]
  · by_cases hi : 0 < i
    · obtain ⟨hget, hne⟩ := hprev hi
      refine ⟨_, by rw [if_neg hred, if_pos (hf.pipeIn.mpr hi)], fun fd => ?_⟩
      rw [Table.get_moveTo hget, if_neg hred, if_pos hi]
      by_cases hfd : fd = 0
      · rw [if_neg (by omega), if_pos hfd, if_pos hfd]
      · rw [if_neg hfd, if_neg hfd]
        simp only [hi, true_and]
    · refine ⟨_, by rw [if_neg hred, if_neg fun hin => hi (hf.pipeIn.mp hin)], fun fd => ?_⟩
      rw [if_neg hred, if_neg hi]
      by_cases hfd : fd = 0
      · rw [if_pos hfd, hfd, h0]
      · rw [if_neg hfd, if_neg (by omega)]

/-- Standard output of the child: its own 1, without the write end that was moved there. -/
theorem childOut_spec (ha : a.openOut = true) (hf : FlagsAt n i holder.flags) {t : Table Obj}
    (h1 : t.get 1 = base.get 1) (hb : base.get 1 ≠ none)
    (hnext : i + 1 < n → t.get (s.pipes s.pipeIndex).2 = some (.pipeWrite (p + i)) ∧
      (s.pipes s.pipeIndex).2 ≠ 1) :
    ∃ t', childOut a holder s t = some t' ∧ ∀ fd, t'.get fd =
      if fd = 1 then stageOut base p n i holder
      else if i + 1 < n ∧ fd = (s.pipes s.pipeIndex).2 then none else t.get fd := by
  unfold childOut redirect stageOut
  by_cases hred : holder.flags.redirectOut = true
  · have hi := hf.redirectOut hred
    refine ⟨_, by rw [if_pos hred, if_pos ha], fun fd => ?_⟩
    rw [Table.get_open_moveTo t _ (h1 ▸ hb), if_pos hred]
    by_cases hfd : fd = 1
    · rw [if_pos hfd, if_pos hfd]
    · rw [if_neg hfd, if_neg hfd, if_neg (by omega)]
  · by_cases hi : i + 1 < n
    · obtain ⟨hget, hne⟩ := hnext hi
      refine ⟨_, by rw [if_neg hred, if_pos (hf.pipeOut.mpr hi)], fun fd => ?_⟩
      rw [Table.get_moveTo hget, if_neg hred, if_pos hi]
      by_cases hfd : fd = 1
      · rw [if_neg (by omega), if_pos hfd, if_pos hfd]
      · rw [if_neg hfd, if_neg hfd]
        simp only [hi, true_and]
    · refine ⟨_, by rw [if_neg hred, if_neg fun hout => hi (hf.pipeOut.mp hout)], fun fd => ?_⟩
      rw [if_neg hred, if_neg hi]
      by_cases hfd : fd = 1
      · rw [if_pos hfd, hfd, h1]
      · rw [if_neg hfd, if_neg (by omega)]

end child

/-! ### The pipe -/

/-- A new pipe takes two descriptors that were free. -/
theorem pipe_spec (s : Shell) : ∃ r w, s.pipe.pipes s.pipeIndex = (r, w) ∧ r ≠ w ∧
    s.table.get r = none ∧ s.table.get w = none ∧
    s.pipe.pipes (1 - s.pipeIndex) = s.pipes (1 - s.pipeIndex) ∧
    ∀ fd, s.pipe.table.get fd = if fd = w then some (.pipeWrite s.nextPipe)
      else if fd = r then some (.pipeRead s.nextPipe) else s.table.get fd := by
  have hidx : ∀ i : Fin 2, 1 - i ≠ i := by decide
  have hw := (s.table.set s.table.lowest (.pipeRead s.nextPipe)).get_lowest
  rw [Table.get_set] at hw
  have hne : s.table.lowest ≠ (s.table.set s.table.lowest (.pipeRead s.nextPipe)).lowest := by
    intro he
    rw [if_pos he.symm] at hw
    cases hw
  rw [if_neg hne.symm] at hw
  refine ⟨_, _, Function.update_self _ _ _, hne, s.table.get_lowest, hw,
    Function.update_of_ne (hidx _) _ _, fun fd => ?_⟩
  simp only [Shell.pipe, Table.openAt, Table.get_set]
  rfl

/-! ### One stage -/

section stage

variable {base : Table Obj} {p n i : ℕ} {s : Shell} {a : Answers} {holder : CommandHolder}

/-- The descriptors quash started with are as they were. -/
theorem At.get_base (h : At base p i s) {fd : ℕ} (hfd : base.get fd ≠ none) :
    s.table.get fd = base.get fd := by
  rw [h.get, if_neg]
  rintro ⟨hi, rfl⟩
  exact hfd (h.free hi)

/-- A descriptor that is free now was free at the start. -/
theorem At.base_none (h : At base p i s) {fd : ℕ} (hfd : s.table.get fd = none) :
    base.get fd = none := by
  rw [h.get] at hfd
  split at hfd
  · cases hfd
  · exact hfd

theorem At.get_prev (h : At base p i s) (hi : 0 < i) :
    s.table.get (s.pipes (1 - s.pipeIndex)).1 = some (.pipeRead (p + (i - 1))) := by
  rw [h.get, if_pos ⟨hi, rfl⟩]

theorem ne_of_get {t : Table Obj} {x y : ℕ} (hx : t.get x ≠ none) (hy : t.get y = none) : x ≠ y := by
  rintro rfl
  exact hx hy

theorem childTable_inner (h : At base p i s) (ha : Granted a) (hopen : ∀ fd < 2, base.get fd ≠ none)
    (hf : FlagsAt n i holder.flags) (hn : i + 1 < n) :
    ∃ t, childTable a holder s.pipe = some t ∧ Wired base p n i holder t := by
  obtain ⟨r, w, hpipes, hrw, hr, hw, hprev, hget⟩ := pipe_spec s
  have hout : holder.flags.pipeOut = true := hf.pipeOut.mpr hn
  have hb0 := hopen 0 (by omega)
  have hb1 := hopen 1 (by omega)
  have hr0 := ne_of_get hb0 (h.base_none hr)
  have hw0 := ne_of_get hb0 (h.base_none hw)
  have hr1 := ne_of_get hb1 (h.base_none hr)
  have hw1 := ne_of_get hb1 (h.base_none hw)
  have hx : 0 < i → s.table.get (s.pipes (1 - s.pipeIndex)).1 ≠ none := fun hi => by
    rw [h.get_prev hi]
    exact Option.some_ne_none _
  obtain ⟨t₁, ht₁, hget₁⟩ := childIn_spec (s := s.pipe) (p := p) (t := s.pipe.table) ha.openIn hf
    (by rw [hget, if_neg hw0, if_neg hr0, h.get_base hb0]) hb0 (fun hi => by
      rw [show s.pipe.pipeIndex = s.pipeIndex from rfl, hprev, hget, if_neg (ne_of_get (hx hi) hw),
        if_neg (ne_of_get (hx hi) hr)]
      exact ⟨h.get_prev hi, (ne_of_get hb0 (h.free hi)).symm⟩)
  rw [show s.pipe.pipeIndex = s.pipeIndex from rfl, hprev] at hget₁
  obtain ⟨t₂, ht₂, hget₂⟩ := childOut_spec (s := s.pipe) (p := p) (t := t₁) ha.openOut hf (by
      rw [hget₁, if_neg (by omega), if_neg fun hc => ne_of_get hb1 (h.free hc.1) hc.2, hget, if_neg hw1,
        if_neg hr1, h.get_base hb1]) hb1 (fun _ => by
      rw [show s.pipe.pipeIndex = s.pipeIndex from rfl, hpipes, hget₁, if_neg hw0.symm,
        if_neg fun hc => ne_of_get (hx hc.1) hw hc.2.symm, hget, if_pos rfl, h.next]
      exact ⟨rfl, hw1.symm⟩)
  simp only [show s.pipe.pipeIndex = s.pipeIndex from rfl, hpipes, hn, true_and] at hget₂
  refine ⟨t₂.close r, ?_, fun fd => ?_⟩
  · unfold childTable
    simp only [ht₁, ht₂, bind, Option.bind, hout, if_true]
    rw [show s.pipe.pipeIndex = s.pipeIndex from rfl, hpipes]
    rfl
  · rw [Table.get_close, hget₂]
    by_cases hf0 : fd = 0
    · subst hf0
      rw [if_neg hr0, if_neg (by omega), if_neg hw0, hget₁, if_pos rfl, if_pos rfl]
    by_cases hf1 : fd = 1
    · subst hf1
      rw [if_neg hr1, if_pos rfl, if_neg (by omega), if_pos rfl]
    rw [if_neg hf0, if_neg hf1, if_neg hf1, hget₁, if_neg hf0, hget, h.get]
    by_cases hfr : fd = r
    · rw [if_pos hfr, hfr, h.base_none hr]
    by_cases hfw : fd = w
    · rw [if_neg hfr, if_pos hfw, hfw, h.base_none hw]
    rw [if_neg hfr, if_neg hfw, if_neg hfw, if_neg hfr]
    by_cases hfx : 0 < i ∧ fd = (s.pipes (1 - s.pipeIndex)).1
    · rw [if_pos hfx, hfx.2, h.free hfx.1]
    · rw [if_neg hfx, if_neg hfx]

theorem childTable_last (h : At base p i s) (ha : Granted a) (hopen : ∀ fd < 2, base.get fd ≠ none)
    (hf : FlagsAt n i holder.flags) (hn : i + 1 = n) :
    ∃ t, childTable a holder s = some t ∧ Wired base p n i holder t := by
  have hout : ¬ holder.flags.pipeOut = true := fun hc => by
    have := hf.pipeOut.mp hc
    omega
  have hb0 := hopen 0 (by omega)
  have hb1 := hopen 1 (by omega)
  obtain ⟨t₁, ht₁, hget₁⟩ := childIn_spec (p := p) ha.openIn hf (h.get_base hb0) hb0
    fun hi => ⟨h.get_prev hi, (ne_of_get hb0 (h.free hi)).symm⟩
  obtain ⟨t₂, ht₂, hget₂⟩ := childOut_spec (s := s) (p := p) (t := t₁) ha.openOut hf (by
    rw [hget₁, if_neg (by omega), if_neg fun hc => ne_of_get hb1 (h.free hc.1) hc.2,
      h.get_base hb1]) hb1 (fun hc => by omega)
  refine ⟨t₂, ?_, fun fd => ?_⟩
  · unfold childTable
    simp only [ht₁, ht₂, bind, Option.bind]
    rw [if_neg hout]
    rfl
  · rw [hget₂]
    by_cases hf0 : fd = 0
    · subst hf0
      rw [if_neg (by omega), if_neg (by omega), hget₁, if_pos rfl, if_pos rfl]
    by_cases hf1 : fd = 1
    · rw [if_pos hf1, if_neg hf0, if_pos hf1]
    rw [if_neg hf0, if_neg hf1, if_neg hf1, if_neg (by omega), hget₁, if_neg hf0, h.get]
    by_cases hfx : 0 < i ∧ fd = (s.pipes (1 - s.pipeIndex)).1
    · rw [if_pos hfx, hfx.2, h.free hfx.1]
    · rw [if_neg hfx, if_neg hfx]

theorem parentTables_spec (holder : CommandHolder) (s : Shell) :
    (parentTables holder s).pipeIndex = 1 - s.pipeIndex ∧ (parentTables holder s).pipes = s.pipes ∧
      (parentTables holder s).nextPipe = s.nextPipe ∧
      (parentTables holder s).dequesInitialized = s.dequesInitialized ∧
      ∀ fd, (parentTables holder s).table.get fd =
        if holder.flags.pipeIn = true ∧ fd = (s.pipes (1 - s.pipeIndex)).1 then none
        else if holder.flags.pipeOut = true ∧ fd = (s.pipes s.pipeIndex).2 then none
        else s.table.get fd := by
  unfold parentTables
  cases hout : holder.flags.pipeOut <;> cases hin : holder.flags.pipeIn <;>
    refine ⟨rfl, rfl, rfl, rfl, fun fd => ?_⟩ <;>
    simp [Shell.close]

/-- Quash after a stage that is not the last one: it has closed the write end of the new pipe and the
read end of the one before. -/
theorem parentTables_inner (h : At base p i s) (hf : FlagsAt n i holder.flags) (hn : i + 1 < n) :
    At base p (i + 1) (parentTables holder s.pipe) := by
  obtain ⟨r, w, hpipes, hrw, hr, hw, hprev, hget⟩ := pipe_spec s
  obtain ⟨h1, h2, h3, h4, h5⟩ := parentTables_spec holder s.pipe
  have hidx : ∀ k : Fin 2, 1 - (1 - k) = k := by decide
  have hslot : ((parentTables holder s.pipe).pipes (1 - (parentTables holder s.pipe).pipeIndex)).1
      = r := by rw [h1, h2, hidx, show s.pipe.pipeIndex = s.pipeIndex from rfl, hpipes]
  refine ⟨h4.trans h.init, ?_, fun _ => ?_, fun fd => ?_⟩
  · rw [h3, show s.pipe.nextPipe = s.nextPipe + 1 from rfl, h.next, Nat.add_assoc]
  · rw [hslot]
    exact h.base_none hr
  · simp only [h5, show s.pipe.pipeIndex = s.pipeIndex from rfl, hpipes, hprev, hf.pipeIn,
      hf.pipeOut, hn, true_and, hslot, hget, h.get, h.next, Nat.add_sub_cancel, Nat.succ_pos]
    by_cases hfx : 0 < i ∧ fd = (s.pipes (1 - s.pipeIndex)).1
    · have hx : s.table.get fd ≠ none := by
        rw [hfx.2, h.get_prev hfx.1]
        exact Option.some_ne_none _
      rw [if_pos hfx, if_neg (ne_of_get hx hr), hfx.2, h.free hfx.1]
    rw [if_neg hfx, if_neg hfx]
    by_cases hfw : fd = w
    · rw [if_pos hfw, if_neg fun hc => hrw (hc.symm.trans hfw), hfw, h.base_none hw]
    · rw [if_neg hfw, if_neg hfw]

/-- Quash after the last stage has the descriptors it started with. -/
theorem parentTables_last (h : At base p i s) (hf : FlagsAt n i holder.flags) (hn : i + 1 = n)
    (fd : ℕ) : (parentTables holder s).table.get fd = base.get fd := by
  obtain ⟨-, -, -, -, h5⟩ := parentTables_spec holder s
  simp only [h5, hf.pipeIn, hf.pipeOut, h.get]
  by_cases hfx : 0 < i ∧ fd = (s.pipes (1 - s.pipeIndex)).1
  · rw [if_pos hfx, hfx.2, h.free hfx.1]
  · rw [if_neg hfx, if_neg (by omega), if_neg hfx]

theorem At.frame (h : At base p i s) (es : List Event) (env : Str → Option Str) :
    At base p i { s.emit es with env := env } := ⟨h.init, h.next, h.free, h.get⟩

/-- **One stage that is not the last one.** -/
theorem stage_inner (h : At base p i s) (ha : Granted a) (hopen : ∀ fd < 2, base.get fd ≠ none)
    (hf : FlagsAt n i holder.flags) (hn : i + 1 < n) :
    ∃ t output s', createProcess a holder s = some (forkPid a, some (.running t output), s') ∧
      Wired base p n i holder t ∧ At base p (i + 1) s' := by
  have hpipe : withPipe a holder s = s.pipe := by
    unfold withPipe
    rw [hf.pipeOut.mpr hn, ha.pipe]
    rfl
  obtain ⟨t, ht, hw⟩ := childTable_inner h ha hopen hf hn
  obtain ⟨pid, hpid⟩ := Option.isSome_iff_exists.mp ha.fork
  have henv := createProcess_eq a holder h.init
  have hchild : child a holder s.pipe = .running t (childRunCommand holder.cmd s.pipe) := by
    unfold child
    rw [ht]
  rw [hpipe, hpid, Option.map_some, hchild] at henv
  exact ⟨t, _, _, henv, hw, (parentTables_inner h hf hn).frame _ _⟩

theorem stage_last (h : At base p i s) (ha : Granted a) (hopen : ∀ fd < 2, base.get fd ≠ none)
    (hf : FlagsAt n i holder.flags) (hn : i + 1 = n) :
    ∃ t output s', createProcess a holder s = some (forkPid a, some (.running t output), s') ∧
      Wired base p n i holder t ∧ ∀ fd, s'.table.get fd = base.get fd := by
  have hpipe : withPipe a holder s = s := by
    have hout : holder.flags.pipeOut = false := by
      rw [← Bool.not_eq_true, hf.pipeOut]
      omega
    unfold withPipe
    rw [hout]
    rfl
  obtain ⟨t, ht, hw⟩ := childTable_last h ha hopen hf hn
  obtain ⟨pid, hpid⟩ := Option.isSome_iff_exists.mp ha.fork
  have henv := createProcess_eq a holder h.init
  have hchild : child a holder s = .running t (childRunCommand holder.cmd s) := by
    unfold child
    rw [ht]
  rw [hpipe, hpid, Option.map_some, hchild] at henv
  exact ⟨t, _, _, henv, hw, fun fd => parentTables_last h hf hn fd⟩

end stage

/-! ### The loop and the script -/

/-- **The loop** from the stage `i` on. -/
theorem createProcesses_spec {stage : ℕ → Answers} {base : Table Obj} {p n : ℕ}
    (hopen : ∀ fd < 2, base.get fd ≠ none) : ∀ {holders : List CommandHolder} {i : ℕ} {s : Shell},
    i + holders.length = n → holders ≠ [] → At base p i s →
    (∀ k holder, holders[k]? = some holder → FlagsAt n (i + k) holder.flags) →
    (∀ k < n, Granted (stage k)) →
    ∃ pids children s', createProcesses stage i holders s = some (pids, children, s') ∧
      pids.length = holders.length ∧ children.length = holders.length ∧
      (∀ fd, s'.table.get fd = base.get fd) ∧
      ∀ k holder child, holders[k]? = some holder → children[k]? = some child →
        ∃ t output, child = some (.running t output) ∧ Wired base p n (i + k) holder t
  | [], i, s, hn, hne, _, _, _ => absurd rfl hne
  | [holder], i, s, hn, _, h, hf, hg => by
    have hn' : i + 1 = n := by simpa only [List.length_singleton] using hn
    obtain ⟨t, output, s', h1, h2, h3⟩ := stage_last h (hg i (by omega)) hopen (hf 0 holder rfl) hn'
    refine ⟨[forkPid (stage i)], [some (.running t output)], s', ?_, rfl, rfl, h3, ?_⟩
    · simp only [createProcesses, h1, bind, Option.bind, pure]
    · rintro (_ | k) x child hx hchild
      · cases hx
        cases hchild
        exact ⟨t, output, rfl, h2⟩
      · simp only [List.getElem?_cons_succ, List.getElem?_nil, reduceCtorEq] at hx
  | holder :: next :: holders, i, s, hn, _, h, hf, hg => by
    have hn' : i + 1 + (next :: holders).length = n := by
      simp only [List.length_cons] at hn ⊢
      omega
    have hlt : i + 1 < n := by
      rw [List.length_cons] at hn'
      omega
    obtain ⟨t, output, s₁, h1, h2, h3⟩ := stage_inner h (hg i (by omega)) hopen (hf 0 holder rfl) hlt
    obtain ⟨pids, children, s', h4, h5, h6, h7, h8⟩ := createProcesses_spec hopen hn'
      (List.cons_ne_nil _ _) h3 (fun k x hx => by
        rw [Nat.add_assoc, Nat.add_comm 1 k]
        exact hf (k + 1) x hx) hg
    refine ⟨forkPid (stage i) :: pids, some (.running t output) :: children, s', ?_,
      congrArg (· + 1) h5, congrArg (· + 1) h6, h7, ?_⟩
    · rw [createProcesses]
      simp only [h1, h4, bind, Option.bind, pure]
    · rintro (_ | k) x child hx hchild
      · cases hx
        cases hchild
        exact ⟨t, output, rfl, h2⟩
      · have := h8 k x child hx hchild
        rwa [Nat.add_assoc, Nat.add_comm 1 k] at this

theorem finishScript_table (holders : List CommandHolder) {pids : List ℤ} (hpids : pids ≠ [])
    (s : Shell) : ∃ s', finishScript holders pids s = some s' ∧ s'.table = s.table := by
  obtain ⟨pid, pids, rfl⟩ := List.exists_cons_of_ne_nil hpids
  unfold finishScript
  split
  · exact ⟨_, rfl, rfl⟩
  · exact ⟨_, rfl, rfl⟩

theorem Wired.ends {base t : Table Obj} {p n i : ℕ} {holder : CommandHolder}
    (h : Wired base p n i holder t) (hbase : ∀ fd o k, base.get fd = some o → o.pipe? = some k → k < p) :
    (∀ fd j, t.get fd = some (.pipeRead (p + j)) → fd = 0 ∧ i = j + 1) ∧
      ∀ fd j, t.get fd = some (.pipeWrite (p + j)) → fd = 1 ∧ i = j := by
  have hold : ∀ fd o j, base.get fd = some o → o.pipe? ≠ some (p + j) := fun fd o j ho hk => by
    have := hbase fd o _ ho hk
    omega
  refine ⟨fun fd j hfd => ?_, fun fd j hfd => ?_⟩
  · rw [h] at hfd
    split at hfd
    · next h0 =>
      unfold stageIn at hfd
      split at hfd
      · cases hfd
      · split at hfd
        · simp only [Option.some.injEq, Obj.pipeRead.injEq] at hfd
          exact ⟨h0, by omega⟩
        · exact absurd rfl (hold _ _ j hfd)
    · split at hfd
      · unfold stageOut at hfd
        split at hfd
        · cases hfd
        · split at hfd
          · cases hfd
          · exact absurd rfl (hold _ _ j hfd)
      · exact absurd rfl (hold _ _ j hfd)
  · rw [h] at hfd
    split at hfd
    · unfold stageIn at hfd
      split at hfd
      · cases hfd
      · split at hfd
        · cases hfd
        · exact absurd rfl (hold _ _ j hfd)
    · split at hfd
      · next h1 =>
        unfold stageOut at hfd
        split at hfd
        · cases hfd
        · split at hfd
          · simp only [Option.some.injEq, Obj.pipeWrite.injEq] at hfd
            exact ⟨h1, by omega⟩
          · exact absurd rfl (hold _ _ j hfd)
      · exact absurd rfl (hold _ _ j hfd)

/-- **Pipeline wiring.** After `run_script` quash has the descriptors it had; the child of the stage
`i` has the right standard input and output, and the only ends of the pipes of the script that are
open in any process are standard output of the stage that writes and standard input of the one after
it. -/
theorem pipeline (k : Kernel) {holders : List CommandHolder} {s : Shell} (hne : holders ≠ [])
    (hd : Delivered holders) (hopen : ∀ fd < 3, s.table.get fd ≠ none)
    (hg : ∀ i < holders.length, Granted (k.stage i)) :
    ∃ children s', runScript k holders s = some (children, s') ∧
      children.length = (if exitAlone holders then 0 else holders.length) ∧
      (∀ fd, s'.table.get fd = s.table.get fd) ∧
      (∀ i holder child, holders[i]? = some holder → children[i]? = some child →
        ∃ t output, child = some (.running t output) ∧
          t.get 0 = stageIn s.table s.nextPipe i holder ∧
          t.get 1 = stageOut s.table s.nextPipe holders.length i holder ∧
          (∀ fd j, t.get fd = some (.pipeRead (s.nextPipe + j)) → fd = 0 ∧ i = j + 1) ∧
          ∀ fd j, t.get fd = some (.pipeWrite (s.nextPipe + j)) → fd = 1 ∧ i = j) ∧
      ∀ fd j, s'.table.get fd ≠ some (.pipeRead (s.nextPipe + j)) ∧
        s'.table.get fd ≠ some (.pipeWrite (s.nextPipe + j)) := by
  have hends : ∀ s' : Shell, (∀ fd, s'.table.get fd = s.table.get fd) → ∀ fd j,
      s'.table.get fd ≠ some (.pipeRead (s.nextPipe + j)) ∧
        s'.table.get fd ≠ some (.pipeWrite (s.nextPipe + j)) := by
    intro s' hs' fd j
    rw [hs']
    constructor
    · intro ho
      have := s.fresh fd _ _ ho rfl
      omega
    · intro ho
      have := s.fresh fd _ _ ho rfl
      omega
  obtain ⟨s₀, hstart, hinit, -, -, htable, hnext⟩ := startScript_some k s
  unfold runScript bodyScript
  simp only [hstart, bind, Option.bind]
  by_cases hexit : exitAlone holders = true
  · rw [if_pos hexit, if_pos hexit]
    have hs' : ∀ fd, s₀.table.get fd = s.table.get fd := fun fd => by rw [htable]
    exact ⟨[], _, rfl, rfl, hs', fun i holder child _ hc => by
      simp only [List.getElem?_nil, reduceCtorEq] at hc, hends _ hs'⟩
  · rw [if_neg hexit, if_neg hexit]
    have hat : At s.table s.nextPipe 0 { s₀ with pipeIndex := 0 } :=
      ⟨hinit, hnext, fun h0 => absurd h0 (lt_irrefl _), fun fd => by
        rw [if_neg (by omega), ← htable]⟩
    obtain ⟨pids, children, s₁, h1, h2, h3, h4, h5⟩ := createProcesses_spec
      (fun fd hfd => hopen fd (by omega)) (Nat.zero_add _) hne hat
      (fun i holder hi => by
        rw [Nat.zero_add]
        exact hd i holder hi) hg
    have hpids : pids ≠ [] := by
      rw [← List.length_pos_iff, h2]
      exact List.length_pos_iff.mpr hne
    obtain ⟨s', h6, h7⟩ := finishScript_table holders hpids s₁
    simp only [h1, h6]
    have hs' : ∀ fd, s'.table.get fd = s.table.get fd := fun fd => by rw [h7, h4]
    refine ⟨children, s', rfl, h3, hs', fun i holder child hi hc => ?_, hends s' hs'⟩
    obtain ⟨t, output, rfl, hw⟩ := h5 i holder child hi hc
    rw [Nat.zero_add] at hw
    refine ⟨t, output, rfl, ?_, ?_, hw.ends s.fresh⟩
    · rw [hw, if_pos rfl]
    · rw [hw, if_neg (by omega), if_pos rfl]

theorem initialShell_open (env : Str → Option Str) : ∀ fd < 3, (initialShell env).table.get fd ≠ none := by
  intro fd hfd
  rw [show (initialShell env).table.get fd = some (.other fd) from if_pos hfd]
  exact Option.some_ne_none _

/-- `cat | wc &` on a terminal. -/
theorem pipeline_two : ∃ t u out out' s', runScript
      ⟨fun _ => 0, fun i => ⟨true, some (100 + i), true, true, true, []⟩⟩
      (cmds (cmdTop (.generic ["cat".toList]) noRedirect false)
        [cmdTop (.generic ["wc".toList]) noRedirect true]) (initialShell fun _ => none) =
        some ([some (.running t out), some (.running u out')], s') ∧
      t.get 1 = some (.pipeWrite 0) ∧ u.get 0 = some (.pipeRead 0) ∧ u.get 1 = some (.other 1) := by
  have hd : Delivered (cmds (cmdTop (.generic ["cat".toList]) noRedirect false)
      [cmdTop (.generic ["wc".toList]) noRedirect true]) :=
    delivered_cmds (plain_cmdTop _ _ _) fun x hx => by
      rw [List.mem_singleton.mp hx]
      exact plain_cmdTop _ _ _
  obtain ⟨children, s', h1, h2, -, h3, -⟩ := pipeline
    ⟨fun _ => 0, fun i => ⟨true, some (100 + i), true, true, true, []⟩⟩ (List.cons_ne_nil _ _) hd
    (initialShell_open _) fun i _ => ⟨rfl, rfl, rfl, rfl⟩
  obtain ⟨c, d, rfl⟩ := List.length_eq_two.mp h2
  obtain ⟨t, out, rfl, -, ht, -⟩ := h3 0 _ c rfl rfl
  obtain ⟨u, out', rfl, hu0, hu1, -⟩ := h3 1 _ d rfl rfl
  exact ⟨t, u, out, out', s', h1, ht, hu0, hu1⟩

end Eecs678.Quash.Pipeline
