import Eecs678.Quash.Forks
import Eecs678.Quash.Pipeline

/-!
# Failed pipes

After a `pipe` that fails `create_process` goes on with what its slot holds: zeros, or the descriptors of
an earlier pipe, which are closed. `closes` are the calls of `close` that quash makes for a script, with
what the descriptor refers to. `stage_granted` and `stage_refused` are one stage, `scriptCloses_iff` the
loop, and `pipe_failures_iff` says that each failed `pipe` makes quash close a descriptor that is no end
of a pipe.
-/

namespace Eecs678.Quash.PipeFailures

open Eecs678.Lib.Descriptors Eecs678.Quash.Commands Eecs678.Quash.Actions Eecs678.Quash.Execute
open Eecs678.Quash.Jobs Eecs678.Quash.Pipeline Eecs678.Quash.Forks

/-! ### What quash closes -/

/-- An open end of a pipe. In quash only a `pipe` that succeeds puts one into the table, and only a
`close` takes it out. -/
def IsEnd (x : Option Obj) : Prop := ∃ o k, x = some o ∧ o.pipe? = some k

/-- What the descriptors refer to that `create_process` closes in quash, each at the time of its
`close`. -/
def stageCloses (a : Answers) (holder : CommandHolder) (s : Shell) : List (Option Obj) :=
  let s := withPipe a holder s
  let out := if holder.flags.pipeOut then [s.table.get (s.pipes s.pipeIndex).2] else []
  let s := if holder.flags.pipeOut then s.close (s.pipes s.pipeIndex).2 else s
  out ++ if holder.flags.pipeIn then [s.table.get (s.pipes (1 - s.pipeIndex)).1] else []

/-- The same for the stages of a script from the stage `i` on. -/
def stagesClose (stage : ℕ → Answers) : ℕ → List CommandHolder → Shell → List (Option Obj)
  | _, [], _ => []
  | i, holder :: holders, s =>
    stageCloses (stage i) holder s ++
      match createProcess (stage i) holder s with
      | none => []
      | some (_, _, s) => stagesClose stage (i + 1) holders s

/-- The same for `run_script`. -/
def closes (x : Script) (s : Shell) : List (Option Obj) :=
  match startScript x.kernel { s with parsedStr := x.str } with
  | none => []
  | some s => if exitAlone x.holders then [] else stagesClose x.kernel.stage 0 x.holders { s with pipeIndex := 0 }

/-! ### One stage -/

section stage

variable {base : Table Obj} {p n i : ℕ} {s : Shell} {a : Answers} {holder : CommandHolder}

/-- The slots hold zeros, or a write end that is not open any more. -/
def Stale (base : Table Obj) (s : Shell) : Prop :=
  ∀ j, s.pipes j = (0, 0) ∨ base.get (s.pipes j).2 = none

/-- The table has descriptor 0, and no ends of pipes. -/
structure NoEnds (base : Table Obj) : Prop where
  input : base.get 0 ≠ none
  ends : ∀ fd, ¬ IsEnd (base.get fd)

theorem isEnd_read (k : ℕ) : IsEnd (some (.pipeRead k)) := ⟨_, k, rfl, rfl⟩

theorem isEnd_write (k : ℕ) : IsEnd (some (.pipeWrite k)) := ⟨_, k, rfl, rfl⟩

theorem not_isEnd_none : ¬ IsEnd none := fun ⟨_, _, h, _⟩ => by cases h

theorem stageCloses_eq (a : Answers) (holder : CommandHolder) (s : Shell) {t : Shell}
    (ht : withPipe a holder s = t) : stageCloses a holder s =
      (if holder.flags.pipeOut then [t.table.get (t.pipes t.pipeIndex).2] else []) ++
        if holder.flags.pipeIn then
          [if holder.flags.pipeOut = true ∧ (t.pipes (1 - t.pipeIndex)).1 = (t.pipes t.pipeIndex).2
            then none else t.table.get (t.pipes (1 - t.pipeIndex)).1]
        else [] := by
  subst ht
  unfold stageCloses
  cases hout : holder.flags.pipeOut with
  | false => simp
  | true => simp [Shell.close]

/-- **A stage whose `pipe` succeeds** closes the write end of the new pipe and the read end of the one
before. -/
theorem stage_granted (h : At base p i s) (hs : Stale base s) (ha : a.pipe = true)
    (hf : FlagsAt n i holder.flags) (hn : i + 1 < n) : (∀ x ∈ stageCloses a holder s, IsEnd x) ∧
      ∃ pid new s', createProcess a holder s = some (pid, new, s') ∧ At base p (i + 1) s' ∧ Stale base s' := by
  have hpipe : withPipe a holder s = s.pipe := by
    unfold withPipe
    rw [hf.pipeOut.mpr hn, ha]
    rfl
  obtain ⟨r, w, hpipes, hrw, hr, hw, hprev, hget⟩ := pipe_spec s
  refine ⟨fun x hx => ?_, _, _, _, createProcess_eq a holder h.init, ?_, fun j => ?_⟩
  · rw [stageCloses_eq a holder s hpipe, show s.pipe.pipeIndex = s.pipeIndex from rfl, hpipes, hprev,
      hf.pipeOut.mpr hn] at hx
    simp only [if_true, true_and, List.singleton_append, List.mem_cons] at hx
    rcases hx with rfl | hx
    · rw [hget, if_pos rfl]
      exact isEnd_write _
    · by_cases hi : 0 < i
      · have hopen : s.table.get (s.pipes (1 - s.pipeIndex)).1 ≠ none := by
          rw [h.get_prev hi]
          exact Option.some_ne_none _
        rw [if_pos (hf.pipeIn.mpr hi), if_neg (ne_of_get hopen hw), hget, if_neg (ne_of_get hopen hw),
          if_neg (ne_of_get hopen hr), h.get_prev hi, List.mem_singleton] at hx
        rw [hx]
        exact isEnd_read _
      · rw [if_neg fun hin => hi (hf.pipeIn.mp hin)] at hx
        exact absurd hx List.not_mem_nil
  · rw [hpipe]
    exact (parentTables_inner h hf hn).frame _ _
  · have hslots : (parentTables holder s.pipe).pipes = s.pipe.pipes := (parentTables_spec holder s.pipe).2.1
    rw [hpipe]
    change (parentTables holder s.pipe).pipes j = _ ∨ base.get ((parentTables holder s.pipe).pipes j).2 = _
    rw [hslots]
    by_cases hj : j = s.pipeIndex
    · rw [hj, hpipes]
      exact .inr (h.base_none hw)
    · rw [show s.pipe.pipes j = s.pipes j from Function.update_of_ne hj _ _]
      exact hs j

/-- **A stage whose `pipe` fails** closes a descriptor that is no end of a pipe: what its slot holds is
not open, or it is the read end of the pipe before, and that is then closed twice. -/
theorem stage_refused (h : At base p i s) (hs : Stale base s) (hb : NoEnds base) (ha : a.pipe = false)
    (hf : FlagsAt n i holder.flags) (hn : i + 1 < n) : ∃ x ∈ stageCloses a holder s, ¬ IsEnd x := by
  have hpipe : withPipe a holder s = s := by
    unfold withPipe
    rw [ha, Bool.and_false]
    rfl
  have hout := hf.pipeOut.mpr hn
  rw [stageCloses_eq a holder s hpipe, hout]
  simp only [if_true, true_and, List.singleton_append, List.mem_cons]
  rcases hs s.pipeIndex with hzero | hfree
  · refine ⟨_, .inl rfl, ?_⟩
    rw [hzero, h.get_base hb.input]
    exact hb.ends 0
  · by_cases hprev : 0 < i ∧ (s.pipes (1 - s.pipeIndex)).1 = (s.pipes s.pipeIndex).2
    · refine ⟨none, .inr ?_, not_isEnd_none⟩
      rw [if_pos (hf.pipeIn.mpr hprev.1), if_pos hprev.2]
      exact List.mem_singleton_self _
    · refine ⟨_, .inl rfl, ?_⟩
      rw [h.get, if_neg fun hc => hprev ⟨hc.1, hc.2.symm⟩, hfree]
      exact not_isEnd_none

/-- **The last stage** closes the read end of the pipe before. -/
theorem stage_end (h : At base p i s) (hs : Stale base s) (hf : FlagsAt n i holder.flags)
    (hn : i + 1 = n) : (∀ x ∈ stageCloses a holder s, IsEnd x) ∧
      ∃ pid new s', createProcess a holder s = some (pid, new, s') ∧
        (∀ fd, s'.table.get fd = base.get fd) ∧ Stale base s' := by
  have hout : holder.flags.pipeOut = false := by
    rw [← Bool.not_eq_true, hf.pipeOut]
    omega
  have hpipe : withPipe a holder s = s := by
    unfold withPipe
    rw [hout]
    rfl
  refine ⟨fun x hx => ?_, _, _, _, createProcess_eq a holder h.init, fun fd => ?_, fun j => ?_⟩
  · rw [stageCloses_eq a holder s hpipe, hout] at hx
    simp only [Bool.false_eq_true, if_false, false_and, List.nil_append] at hx
    by_cases hi : 0 < i
    · rw [if_pos (hf.pipeIn.mpr hi), h.get_prev hi, List.mem_singleton] at hx
      rw [hx]
      exact isEnd_read _
    · rw [if_neg fun hin => hi (hf.pipeIn.mp hin)] at hx
      exact absurd hx List.not_mem_nil
  · rw [hpipe]
    exact parentTables_last h hf hn fd
  · rw [hpipe]
    change (parentTables holder s).pipes j = _ ∨ base.get ((parentTables holder s).pipes j).2 = _
    rw [(parentTables_spec holder s).2.1]
    exact hs j

end stage

/-! ### The loop and the script -/

theorem stagesClose_cons {stage : ℕ → Answers} {i : ℕ} {holder : CommandHolder}
    {holders : List CommandHolder} {s s' : Shell} {pid : ℤ} {new : Option Child}
    (h : createProcess (stage i) holder s = some (pid, new, s')) :
    stagesClose stage i (holder :: holders) s =
      stageCloses (stage i) holder s ++ stagesClose stage (i + 1) holders s' := by
  rw [stagesClose, h]

/-- The pipes of the stages: that of the first one and those of the rest. -/
theorem forall_pipes_cons {stage : ℕ → Answers} {i : ℕ} {holder next : CommandHolder}
    {holders : List CommandHolder} :
    (∀ k, k + 1 < (holder :: next :: holders).length → (stage (i + k)).pipe = true) ↔
      (stage i).pipe = true ∧
        ∀ k, k + 1 < (next :: holders).length → (stage (i + 1 + k)).pipe = true := by
  constructor
  · refine fun hall => ⟨hall 0 (by simp), fun k hk => ?_⟩
    rw [Nat.add_assoc, Nat.add_comm 1 k]
    exact hall (k + 1) (by simpa using hk)
  · rintro ⟨hfirst, hrest⟩ (_ | k) hk
    · exact hfirst
    · have hk' := hrest k (by simpa using hk)
      rwa [Nat.add_assoc, Nat.add_comm 1 k] at hk'

/-- **The loop over the stages** closes ends of pipes only if and only if each `pipe` of it succeeds; then
quash has the descriptors it started with at its end. -/
theorem scriptCloses_iff (stage : ℕ → Answers) {base : Table Obj} {p n : ℕ} (hb : NoEnds base) :
    ∀ {holders : List CommandHolder} {i : ℕ} {s : Shell}, i + holders.length = n → holders ≠ [] →
    At base p i s → Stale base s →
    (∀ k holder, holders[k]? = some holder → FlagsAt n (i + k) holder.flags) →
    ((∀ x ∈ stagesClose stage i holders s, IsEnd x) ↔
        ∀ k, k + 1 < holders.length → (stage (i + k)).pipe = true) ∧
      ((∀ k, k + 1 < holders.length → (stage (i + k)).pipe = true) → ∃ pids news s',
        createProcesses stage i holders s = some (pids, news, s') ∧ pids ≠ [] ∧
          (∀ fd, s'.table.get fd = base.get fd) ∧ Stale base s')
  | [], i, s, _, hne, _, _, _ => absurd rfl hne
  | [holder], i, s, hn, _, h, hs, hf => by
    have hn' : i + 1 = n := by simpa only [List.length_singleton] using hn
    obtain ⟨hends, pid, new, s', hcreate, htable, hs'⟩ := stage_end h hs (hf 0 holder rfl) hn'
    refine ⟨iff_of_true ?_ fun k hk => absurd hk (by simp), fun _ => ⟨[pid], [new], s', ?_, by simp,
      htable, hs'⟩⟩
    · rw [stagesClose_cons hcreate, stagesClose, List.append_nil]
      exact hends
    · simp only [createProcesses, hcreate, bind, Option.bind, pure]
  | holder :: next :: holders, i, s, hn, _, h, hs, hf => by
    have hn' : i + 1 + (next :: holders).length = n := by
      simp only [List.length_cons] at hn ⊢
      omega
    have hlt : i + 1 < n := by
      rw [List.length_cons] at hn'
      omega
    rw [forall_pipes_cons]
    cases ha : (stage i).pipe with
    | false =>
      obtain ⟨x, hx, hno⟩ := stage_refused h hs hb ha (hf 0 holder rfl) hlt
      refine ⟨iff_of_false (fun hall => ?_) fun hall => Bool.false_ne_true hall.1,
        fun hall => absurd hall.1 Bool.false_ne_true⟩
      exact hno (hall x (List.mem_append_left _ hx))
    | true =>
      obtain ⟨hends, pid, new, s₁, hcreate, h₁, hs₁⟩ := stage_granted h hs ha (hf 0 holder rfl) hlt
      obtain ⟨hiff, hrun⟩ := scriptCloses_iff stage hb hn' (List.cons_ne_nil _ _) h₁ hs₁
        fun k x hx => by
          rw [Nat.add_assoc, Nat.add_comm 1 k]
          exact hf (k + 1) x hx
      rw [stagesClose_cons hcreate]
      refine ⟨?_, fun hall => ?_⟩
      · rw [← hiff]
        simp only [List.forall_mem_append, true_and]
        exact ⟨fun hall => hall.2, fun hall => ⟨hends, hall⟩⟩
      · obtain ⟨pids, news, s', hrest, -, htable, hs'⟩ := hrun hall.2
        refine ⟨pid :: pids, new :: news, s', ?_, List.cons_ne_nil _ _, htable, hs'⟩
        rw [createProcesses]
        simp only [hcreate, hrest, bind, Option.bind, pure]

/-- The end of a script leaves the slots alone. -/
theorem finishScript_pipes {holders : List CommandHolder} {pids : List ℤ} {s s' : Shell}
    (h : finishScript holders pids s = some s') : s'.pipes = s.pipes := by
  unfold finishScript at h
  split at h
  · obtain ⟨pid, -, h⟩ := Option.bind_eq_some_iff.mp h
    rw [← Option.some.inj h]
    rfl
  · rw [← Option.some.inj h]
    rfl

/-- **One script.** -/
theorem script_closes (x : Script) {s : Shell} (hne : x.holders ≠ []) (hd : Delivered x.holders)
    (hb : NoEnds s.table) (hs : Stale s.table s) :
    ((∀ o ∈ closes x s, IsEnd o) ↔
        ∀ i, i + 1 < x.holders.length → (x.kernel.stage i).pipe = true) ∧
      ((∀ i, i + 1 < x.holders.length → (x.kernel.stage i).pipe = true) → ∃ news s',
        x.run s = some (news, s') ∧ (∀ fd, s'.table.get fd = s.table.get fd) ∧ Stale s.table s') := by
  rw [run_eq]
  unfold closes bodyScript
  rw [startScript_listed]
  by_cases hexit : exitAlone x.holders = true
  · obtain ⟨holder, hholders, -⟩ := exitAlone_eq hexit
    have hlength : x.holders.length = 1 := by
      rw [hholders]
      rfl
    simp only [hexit, if_true]
    refine ⟨iff_of_true (by simp) fun i hi => by omega, fun _ => ⟨_, _, rfl, fun fd => rfl, hs⟩⟩
  · have hat : At s.table s.nextPipe 0 { afterCheck x s with pipeIndex := 0 } :=
      ⟨rfl, rfl, fun h0 => absurd h0 (lt_irrefl _), fun fd => by
        rw [if_neg (by omega)]
        rfl⟩
    obtain ⟨hiff, hrun⟩ := scriptCloses_iff x.kernel.stage hb (Nat.zero_add _) hne hat hs
      fun k holder hk => by
        rw [Nat.zero_add]
        exact hd k holder hk
    simp only [Nat.zero_add] at hiff hrun
    simp only [hexit, Bool.false_eq_true, if_false]
    refine ⟨hiff, fun hall => ?_⟩
    obtain ⟨pids, news, s₁, hcreate, hpids, htable, hs₁⟩ := hrun hall
    obtain ⟨s', hfinish, htable'⟩ := finishScript_table x.holders hpids s₁
    have hslots := finishScript_pipes hfinish
    simp only [hcreate, hfinish, bind, Option.bind]
    refine ⟨news, s', rfl, fun fd => by rw [htable', htable], fun j => ?_⟩
    rw [hslots]
    exact hs₁ j

/-! ### Runs -/

/-- In all the scripts quash closes ends of pipes only; 0, 1 and 2 stay open, and after each script the
descriptors are what they were before it. -/
def Undisturbed : List Script → Shell → Prop
  | [], _ => True
  | x :: xs, s => (∀ o ∈ closes x s, IsEnd o) ∧ ∃ news s', x.run s = some (news, s') ∧
      (∀ fd < 3, s'.table.get fd ≠ none) ∧ (∀ fd, s'.table.get fd = s.table.get fd) ∧ Undisturbed xs s'

theorem undisturbed_iff : ∀ {xs : List Script} {s : Shell}, (∀ fd < 3, s.table.get fd ≠ none) →
    (∀ fd, ¬ IsEnd (s.table.get fd)) → Stale s.table s →
    (∀ x ∈ xs, x.holders ≠ [] ∧ Delivered x.holders) →
    (Undisturbed xs s ↔ ∀ x ∈ xs, ∀ i, i + 1 < x.holders.length → (x.kernel.stage i).pipe = true)
  | [], s, _, _, _, _ => iff_of_true trivial fun x hx => absurd hx List.not_mem_nil
  | x :: xs, s, hopen, hends, hstale, hxs => by
    obtain ⟨⟨hne, hd⟩, hxs⟩ := List.forall_mem_cons.mp hxs
    obtain ⟨hiff, hrun⟩ := script_closes x hne hd ⟨hopen 0 (by omega), hends⟩ hstale
    rw [Undisturbed, List.forall_mem_cons, hiff]
    refine and_congr_right fun hall => ?_
    obtain ⟨news, s', hscript, htable, hstale'⟩ := hrun hall
    have hget : s'.table.get = s.table.get := funext htable
    have hopen' : ∀ fd < 3, s'.table.get fd ≠ none := by
      rw [hget]
      exact hopen
    have hends' : ∀ fd, ¬ IsEnd (s'.table.get fd) := by
      rw [hget]
      exact hends
    have hslots : Stale s'.table s' := fun j => by
      rw [hget]
      exact hstale' j
    rw [← undisturbed_iff hopen' hends' hslots hxs]
    constructor
    · rintro ⟨news', s'', hscript', -, -, hrest⟩
      rw [hscript] at hscript'
      obtain ⟨-, rfl⟩ := Prod.mk.inj (Option.some.inj hscript')
      exact hrest
    · exact fun hrest => ⟨news, s', hscript, hopen', htable, hrest⟩

/-- **Failed pipes.** From a start with 0, 1 and 2 open and no pipes, and for all sequences of scripts of
the grammar: quash closes open ends of pipes only and keeps its descriptors, if and only if no `pipe`
fails. -/
theorem pipe_failures_iff {xs : List Script} {s : Shell} (hopen : ∀ fd < 3, s.table.get fd ≠ none)
    (hends : ∀ fd, ¬ IsEnd (s.table.get fd)) (hpipes : ∀ j, s.pipes j = (0, 0))
    (hxs : ∀ x ∈ xs, x.holders ≠ [] ∧ Delivered x.holders) :
    Undisturbed xs s ↔ ∀ x ∈ xs, ∀ i, i + 1 < x.holders.length → (x.kernel.stage i).pipe = true :=
  undisturbed_iff hopen hends (fun j => .inl (hpipes j)) hxs

/-- The pipeline `a | b`, with the answer of `pipe`. -/
def twoStages (granted : Bool) : Script where
  kernel := ⟨fun _ => 0, fun i => ⟨granted, some (100 + i), true, true, true, []⟩⟩
  holders := cmds (cmdTop (.generic [['a']]) noRedirect false) [cmdTop (.generic [['b']]) noRedirect false]
  str := "a | b ".toList
  positive := fun i pid h => by
    cases h
    omega

/-- `a | b` twice on a terminal. -/
theorem pipe_failures_iff_twice :
    Undisturbed [twoStages true, twoStages true] (initialShell fun _ => none) := by
  have hd : Delivered (twoStages true).holders := delivered_cmds (plain_cmdTop _ _ _) fun x hx => by
    rw [List.mem_singleton.mp hx]
    exact plain_cmdTop _ _ _
  have hends : ∀ fd, ¬ IsEnd ((initialShell fun _ => none).table.get fd) := by
    rintro fd ⟨o, k, ho, hk⟩
    simp only [initialShell] at ho
    split at ho <;> cases ho
    cases hk
  refine (pipe_failures_iff (initialShell_open _) hends (fun _ => rfl) fun x hx => ?_).mpr fun x hx i _ => ?_
  · have hx' : x = twoStages true := by simpa using hx
    exact hx' ▸ ⟨List.cons_ne_nil _ _, hd⟩
  · have hx' : x = twoStages true := by simpa using hx
    rw [hx']
    rfl

/-- After the failed `pipe` of `a | b` quash closes its standard input, twice. -/
theorem pipe_failures_iff_input : Delivered (twoStages false).holders ∧
    closes (twoStages false) (initialShell fun _ => none) = [some (.other 0), none] ∧
    ∃ news s', (twoStages false).run (initialShell fun _ => none) = some (news, s') ∧
      s'.table.get 0 = none := by
  refine ⟨delivered_cmds (plain_cmdTop _ _ _) fun x hx => ?_, by decide, _, _, rfl, by decide⟩
  rw [List.mem_singleton.mp hx]
  exact plain_cmdTop _ _ _

end Eecs678.Quash.PipeFailures
