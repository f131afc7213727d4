import Eecs678.Simulator.Diagram

/-!
# The buffers of the timing diagram

Before `strcat` appends a unit to the diagram of a core, the buffers of all cores are grown to
`core_timing_diagram_size + 1` bytes until the unit fits (`ensure`). `Strcat` is what a `strcat` finds. It
always has the room (`buffersAt_fits`); and unless the memory or the range of `int` gives out
(`buffersAt_exists`) each core has one in a time unit (`strcats_run`). `faithful_record` is the diagram as a
record of the run.
-/

namespace Eecs678.Simulator.Buffers

open Eecs678.Simulator.Model Eecs678.Simulator.Lockstep Eecs678.Simulator.Runs
open Eecs678.Simulator.Trace Eecs678.Simulator.Statistics Eecs678.Simulator.Diagram

/-! ### Growing -/

/-- `core_timing_diagram_size`, and the bytes of the buffer of each core. -/
structure Sizes where
  size : ℕ
  capacity : List ℕ
  pos : 0 < size

/-- Why the buffers do not grow: "Out of memory.", or the size is no `int` any more. -/
inductive Failure
  | outOfMemory
  | overflow
deriving DecidableEq, Repr

/-- The loop over the buffers, at buffer `j`; `realloc j bytes` tells whether `realloc` succeeds. -/
def reallocAll (realloc : ℕ → ℕ → Bool) (size : ℕ) : ℕ → List ℕ → Option (List ℕ)
  | _, [] => some []
  | j, _ :: capacity =>
    if realloc j (size + 1) then (reallocAll realloc size (j + 1) capacity).map ((size + 1) :: ·)
    else none

/-- The `while` loop: `length` is what the string is going to have. -/
def ensure (realloc : ℕ → ℕ → Bool) (length : ℕ) (b : Sizes) : Except Failure Sizes :=
  if length < b.size then .ok b
  else if 2 ^ 31 ≤ 2 * b.size then .error .overflow
  else
    match reallocAll realloc (2 * b.size) 0 b.capacity with
    | none => .error .outOfMemory
    | some capacity => ensure realloc length ⟨2 * b.size, capacity, Nat.mul_pos (by decide) b.pos⟩
termination_by 2 ^ 31 - b.size
decreasing_by
  have := b.pos
  omega

/-- What a `strcat` finds: the core, the lengths of its diagram and of the unit, the size and the bytes of
the buffer. -/
structure Strcat where
  core : ℕ
  diagram : ℕ
  unit : ℕ
  size : ℕ
  capacity : ℕ
deriving DecidableEq, Repr

/-- The loop over the cores, at core `i`, with the diagrams and the units. -/
def appendAll (realloc : ℕ → ℕ → Bool) : ℕ → List (String × String) → Sizes →
    List Strcat × Except Failure Sizes
  | _, [], b => ([], .ok b)
  | i, (diagram, str) :: cores, b =>
    match ensure realloc (diagram.length + str.length) b with
    | .error e => ([], .error e)
    | .ok b =>
      (⟨i, diagram.length, str.length, b.size, b.capacity.getD i 0⟩ ::
        (appendAll realloc (i + 1) cores b).1, (appendAll realloc (i + 1) cores b).2)

/-- `time_string` after the run phase. -/
def unitStrings (opts : Options) (s : Sim) : List String :=
  match runJobs s.jobs s.quantumClock (List.replicate opts.cores "") 0 with
  | .error _ => []
  | .ok u => u.timeStrings.map fun str => if str = "" then "-" else str

/-- What an iteration does with the buffers. -/
def stepBuffers (realloc : ℕ → ℕ → Bool) (opts : Options) (s : Sim) (b : Sizes) :
    List Strcat × Except Failure Sizes :=
  if s.pc = .run then appendAll realloc 0 (s.coreTimingDiagram.zip (unitStrings opts s)) b
  else ([], .ok b)

/-- The buffers before the `while` loop of `main`. -/
def startBuffers (opts : Options) : Sizes := ⟨1024, List.replicate opts.cores (1024 + 1), by decide⟩

/-- The calls of `strcat` in the first `n` iterations, and the buffers after them. -/
def buffersAt (realloc : ℕ → ℕ → Bool) (opts : Options) (lines : List Line) :
    ℕ → List Strcat × Except Failure Sizes
  | 0 => ([], .ok (startBuffers opts))
  | n + 1 =>
    match buffersAt realloc opts lines n with
    | (log, .error e) => (log, .error e)
    | (log, .ok b) =>
      (log ++ (stepBuffers realloc opts (stateAt opts lines n) b).1,
        (stepBuffers realloc opts (stateAt opts lines n) b).2)

/-! ### The buffers are large enough -/

/-- The buffer of each core has `size + 1` bytes. -/
def Leveled (cores : ℕ) (b : Sizes) : Prop := b.capacity = List.replicate cores (b.size + 1)

variable {realloc : ℕ → ℕ → Bool}

theorem reallocAll_eq {size : ℕ} : ∀ {j : ℕ} {l capacity : List ℕ},
    reallocAll realloc size j l = some capacity → capacity = List.replicate l.length (size + 1)
  | _, [], _, h => by
    cases h
    rfl
  | j, _ :: l, _, h => by
    unfold reallocAll at h
    split_ifs at h
    obtain ⟨capacity, hcap, rfl⟩ := Option.map_eq_some_iff.mp h
    rw [reallocAll_eq hcap]
    rfl

/-- **After the `while` loop the unit fits**, and all buffers have the new size. -/
theorem ensure_ok {cores length : ℕ} {b b' : Sizes} (hb : Leveled cores b)
    (h : ensure realloc length b = .ok b') : length < b'.size ∧ Leveled cores b' := by
  induction b using ensure.induct realloc length with
  | case1 b hlt =>
    rw [ensure, if_pos hlt] at h
    cases h
    exact ⟨hlt, hb⟩
  | case2 b hlt hmax =>
    rw [ensure, if_neg hlt, if_pos hmax] at h
    cases h
  | case3 b hlt hmax hnone =>
    rw [ensure, if_neg hlt, if_neg hmax, hnone] at h
    cases h
  | case4 b hlt hmax capacity hsome ih =>
    rw [ensure, if_neg hlt, if_neg hmax, hsome] at h
    refine ih ?_ h
    have hcap := reallocAll_eq hsome
    rwa [hb, List.length_replicate] at hcap

theorem reallocAll_exists (hreal : ∀ j bytes, realloc j bytes = true) {size : ℕ} : ∀ {j : ℕ} {l : List ℕ},
    reallocAll realloc size j l ≠ none
  | _, [], h => by cases h
  | j, _ :: l, h => by
    rw [reallocAll, if_pos (hreal j (size + 1)), Option.map_eq_none_iff] at h
    exact reallocAll_exists hreal h

/-- The size stays an `int` as long as the diagrams are shorter than `2 ^ 30`. -/
theorem ensure_exists (hreal : ∀ j bytes, realloc j bytes = true) {length : ℕ} (hlt : length < 2 ^ 30)
    (b : Sizes) : ∃ b', ensure realloc length b = .ok b' := by
  induction b using ensure.induct realloc length with
  | case1 b hfits =>
    rw [ensure, if_pos hfits]
    exact ⟨b, rfl⟩
  | case2 b hfits hmax => omega
  | case3 b hfits hmax hnone => exact absurd hnone (reallocAll_exists hreal)
  | case4 b hfits hmax capacity hsome ih =>
    rw [ensure, if_neg hfits, if_neg hmax, hsome]
    exact ih

/-- The string and its `NUL` fit into the buffer. -/
def Strcat.Fits (e : Strcat) : Prop := e.capacity = e.size + 1 ∧ e.diagram + e.unit + 1 ≤ e.capacity

theorem appendAll_fits {cores : ℕ} : ∀ {l : List (String × String)} {i : ℕ} {b : Sizes},
    Leveled cores b → i + l.length ≤ cores → (∀ e ∈ (appendAll realloc i l b).1, e.Fits) ∧
      ∀ b', (appendAll realloc i l b).2 = .ok b' → Leveled cores b'
  | [], _, _, hb, _ => ⟨nofun, fun b' h => by
    cases h
    exact hb⟩
  | (diagram, str) :: l, i, b, hb, hi => by
    rw [List.length_cons] at hi
    unfold appendAll
    cases hens : ensure realloc (diagram.length + str.length) b with
    | error e => exact ⟨nofun, nofun⟩
    | ok b₁ =>
      obtain ⟨hlt, hb₁⟩ := ensure_ok hb hens
      obtain ⟨hlog, hnext⟩ := appendAll_fits (l := l) (i := i + 1) hb₁ (by omega)
      have hcap : b₁.capacity.getD i 0 = b₁.size + 1 := by
        rw [hb₁, List.getD_eq_getElem?_getD, List.getElem?_replicate, if_pos (by omega),
          Option.getD_some]
      refine ⟨fun e he => ?_, hnext⟩
      rcases List.mem_cons.mp he with rfl | he
      · exact ⟨hcap, by simp only [hcap]; omega⟩
      · exact hlog e he

/-- Unless the buffers cannot grow, each core has its `strcat`. -/
theorem appendAll_calls : ∀ {l : List (String × String)} {i : ℕ} {b b' : Sizes},
    (appendAll realloc i l b).2 = .ok b' →
      (appendAll realloc i l b).1.map Strcat.core = List.range' i l.length ∧
      (appendAll realloc i l b).1.map Strcat.diagram = (l.map fun p => p.1.length) ∧
      (appendAll realloc i l b).1.map (fun e => e.diagram + e.unit) = l.map fun p => (p.1 ++ p.2).length
  | [], _, _, _, _ => ⟨rfl, rfl, rfl⟩
  | (diagram, str) :: l, i, b, _, h => by
    unfold appendAll at h ⊢
    cases hens : ensure realloc (diagram.length + str.length) b with
    | error e =>
      rw [hens] at h
      cases h
    | ok b₁ =>
      rw [hens] at h
      obtain ⟨hcore, hdiagram, hunit⟩ := appendAll_calls h
      simp only [List.map_cons, hcore, hdiagram, hunit, List.length_cons, List.range'_succ,
        String.length_append, and_self]

theorem appendAll_exists (hreal : ∀ j bytes, realloc j bytes = true) : ∀ {l : List (String × String)} (i : ℕ)
    (b : Sizes), (∀ p ∈ l, (p.1 ++ p.2).length < 2 ^ 30) → ∃ b', (appendAll realloc i l b).2 = .ok b'
  | [], _, b, _ => ⟨b, rfl⟩
  | (diagram, str) :: l, i, b, hlt => by
    obtain ⟨hfirst, hl⟩ := List.forall_mem_cons.mp hlt
    rw [String.length_append] at hfirst
    obtain ⟨b₁, hens⟩ := ensure_exists hreal hfirst b
    rw [appendAll, hens]
    exact appendAll_exists hreal (i + 1) b₁ hl

section Statements
variable {opts : Options} {lines : List Line}

/-- The diagrams after a time unit. -/
theorem diagrams_run (hcores : 0 < opts.cores) (h : Workload lines) {n : ℕ}
    (hpc : (stateAt opts lines n).pc = .run) : (stateAt opts lines (n + 1)).coreTimingDiagram =
      ((stateAt opts lines n).coreTimingDiagram.zip (unitStrings opts (stateAt opts lines n))).map
        fun p => p.1 ++ p.2 := by
  obtain ⟨clock, strings, hrun, -⟩ := run_ok (stateAt_inv hcores h n)
  have hnext : (stateAt opts lines (n + 1)).coreTimingDiagram = List.zipWith
      (fun diagram str => diagram ++ (if str = "" then "-" else str))
      (stateAt opts lines n).coreTimingDiagram strings := by
    rw [stateAt_succ]
    simp only [step, hpc, runStep, hrun]
    split_ifs <;> rfl
  rw [hnext, unitStrings, hrun]
  simp [List.map_zipWith, List.zip, List.zipWith_map_right]

theorem length_diagram_le (opts : Options) (lines : List Line) (n : ℕ) :
    (stateAt opts lines n).coreTimingDiagram.length ≤ opts.cores := by
  induction n with
  | zero => simp [stateAt, start]
  | succ n ih =>
    rw [stateAt_succ]
    by_cases hpc : (stateAt opts lines n).pc = .run
    · simp only [step, hpc, runStep]
      cases runJobs (stateAt opts lines n).jobs (stateAt opts lines n).quantumClock
        (List.replicate opts.cores "") 0 with
      | error why => exact ih
      | ok u =>
        simp only
        split_ifs <;> exact (List.length_zipWith .. ▸ min_le_left _ _).trans ih
    · rw [step_diagram hpc]
      exact ih

/-- Each core has a diagram. -/
theorem length_diagram (hcores : 0 < opts.cores) (h : Workload lines) (hsmall : lines.length ≤ 10 ^ 7)
    (n : ℕ) : (stateAt opts lines n).coreTimingDiagram.length = opts.cores := by
  refine le_antisymm (length_diagram_le opts lines n) ?_
  obtain ⟨d, hd, -⟩ := diagram_text hcores h hsmall (c := opts.cores - 1) (by omega) n
  have hlt := (List.getElem?_eq_some_iff.mp hd).1
  omega

/-- **In a time unit each core has one `strcat`**, which makes its diagram of the next state. -/
theorem strcats_run (hcores : 0 < opts.cores) (h : Workload lines) (hsmall : lines.length ≤ 10 ^ 7) {n : ℕ}
    {b b' : Sizes} (hpc : (stateAt opts lines n).pc = .run)
    (hok : (stepBuffers realloc opts (stateAt opts lines n) b).2 = .ok b') :
    (stepBuffers realloc opts (stateAt opts lines n) b).1.map Strcat.core = List.range opts.cores ∧
    (stepBuffers realloc opts (stateAt opts lines n) b).1.map Strcat.diagram =
      (stateAt opts lines n).coreTimingDiagram.map String.length ∧
    (stepBuffers realloc opts (stateAt opts lines n) b).1.map (fun e => e.diagram + e.unit) =
      (stateAt opts lines (n + 1)).coreTimingDiagram.map String.length := by
  have hnext := diagrams_run hcores h hpc
  have hlen := congrArg List.length hnext
  rw [length_diagram hcores h hsmall, List.length_map] at hlen
  have hunits := hlen
  rw [List.length_zip, length_diagram hcores h hsmall] at hunits
  unfold stepBuffers at hok ⊢
  rw [if_pos hpc] at hok ⊢
  obtain ⟨hcore, hdiagram, hunit⟩ := appendAll_calls hok
  refine ⟨?_, ?_, ?_⟩
  · rw [hcore, ← hlen, List.range_eq_range']
  · have hle : (stateAt opts lines n).coreTimingDiagram.length ≤
        (unitStrings opts (stateAt opts lines n)).length := by
      rw [length_diagram hcores h hsmall]
      omega
    have hfst := List.map_fst_zip hle
    rw [hdiagram, ← congrArg (List.map String.length) hfst, List.map_map]
    rfl
  · rw [hunit, hnext, List.map_map]
    rfl

/-- The buffers grow as long as `realloc` succeeds and the diagrams are shorter than `2 ^ 30`. -/
theorem buffersAt_exists (hcores : 0 < opts.cores) (h : Workload lines)
    (hreal : ∀ j bytes, realloc j bytes = true) (n : ℕ)
    (hlt : ∀ m ≤ n, ∀ d ∈ (stateAt opts lines m).coreTimingDiagram, d.length < 2 ^ 30) :
    ∃ b, (buffersAt realloc opts lines n).2 = .ok b := by
  induction n with
  | zero => exact ⟨_, rfl⟩
  | succ n ih =>
    obtain ⟨b, hb⟩ := ih fun m hm => hlt m (hm.trans (Nat.le_succ n))
    obtain ⟨⟨log, r⟩, hr⟩ : ∃ x, buffersAt realloc opts lines n = x := ⟨_, rfl⟩
    rw [hr] at hb
    subst hb
    rw [buffersAt, hr]
    simp only [stepBuffers]
    split_ifs with hpc
    · refine appendAll_exists hreal 0 b fun p hp => hlt (n + 1) (le_refl _) (p.1 ++ p.2) ?_
      rw [diagrams_run hcores h hpc]
      exact List.mem_map_of_mem (f := fun p : String × String => p.1 ++ p.2) hp
    · exact ⟨b, rfl⟩

theorem buffersAt_fits (realloc : ℕ → ℕ → Bool) (opts : Options) (lines : List Line) (n : ℕ) :
    (∀ e ∈ (buffersAt realloc opts lines n).1, e.Fits) ∧
      ∀ b, (buffersAt realloc opts lines n).2 = .ok b → Leveled opts.cores b := by
  induction n with
  | zero =>
    refine ⟨nofun, fun b hb => ?_⟩
    cases hb
    rfl
  | succ n ih =>
    obtain ⟨hlog, hb⟩ := ih
    unfold buffersAt
    obtain ⟨⟨log, r⟩, hr⟩ : ∃ x, buffersAt realloc opts lines n = x := ⟨_, rfl⟩
    rw [hr] at hlog hb ⊢
    cases r with
    | error e => exact ⟨hlog, nofun⟩
    | ok b =>
      have hnext : (∀ e ∈ (stepBuffers realloc opts (stateAt opts lines n) b).1, e.Fits) ∧
          ∀ b', (stepBuffers realloc opts (stateAt opts lines n) b).2 = .ok b' → Leveled opts.cores b' := by
        unfold stepBuffers
        split_ifs
        · refine appendAll_fits (hb b rfl) ?_
          rw [List.length_zip, Nat.zero_add]
          exact (min_le_left _ _).trans (length_diagram_le opts lines n)
        · refine ⟨nofun, fun b' hb' => ?_⟩
          cases hb'
          exact hb b rfl
      refine ⟨fun e he => ?_, hnext.2⟩
      rcases List.mem_append.mp he with he | he
      · exact hlog e he
      · exact hnext.1 e he

/-- **The timing diagram is a faithful record.** What each core did in each unit is decoded from its
diagram; no job is on two cores in a unit; at the end, which the run phases reach, each job appears as often
as its running time says. Every `strcat` has the room that it needs, however `realloc` behaves; in a time
unit there is one for each core, from its diagram to the next one, unless a `realloc` fails or the size is no
`int` any more: then `main` ends there. If `realloc` succeeds and the diagrams are shorter than `2 ^ 30` that
does not happen. -/
theorem faithful_record (hcores : 0 < opts.cores) (h : Workload lines) (hsmall : lines.length ≤ 10 ^ 7)
    (realloc : ℕ → ℕ → Bool) :
    (∃ n, (stateAt opts lines n).pc = .stop .done) ∧
    (∀ n c, c < opts.cores → ∃ d, (stateAt opts lines n).coreTimingDiagram[c]? = some d ∧
      decodeDiagram d = record opts lines n c) ∧
    (∀ (n c c' u : ℕ) (k : ℤ), (record opts lines n c)[u]? = some (some k) →
      (record opts lines n c')[u]? = some (some k) → c = c') ∧
    (∀ n, (stateAt opts lines n).pc = .stop .done → ∀ (k : ℕ) (l : Line), lines[k]? = some l →
      (∑ c ∈ Finset.range opts.cores, ((record opts lines n c).count (some (k : ℤ)) : ℤ)) = l.runTime) ∧
    (∀ n, ∀ e ∈ (buffersAt realloc opts lines n).1,
      e.capacity = e.size + 1 ∧ e.diagram + e.unit + 1 ≤ e.capacity) ∧
    (∀ (n : ℕ) (b : Sizes), (stateAt opts lines n).pc = .run →
      (buffersAt realloc opts lines (n + 1)).2 = .ok b → ∃ calls : List Strcat,
        (buffersAt realloc opts lines (n + 1)).1 = (buffersAt realloc opts lines n).1 ++ calls ∧
        calls.map Strcat.core = List.range opts.cores ∧
        calls.map Strcat.diagram = (stateAt opts lines n).coreTimingDiagram.map String.length ∧
        calls.map (fun e => e.diagram + e.unit) =
          (stateAt opts lines (n + 1)).coreTimingDiagram.map String.length) ∧
    ((∀ j bytes, realloc j bytes = true) → ∀ n,
      (∀ m ≤ n, ∀ d ∈ (stateAt opts lines m).coreTimingDiagram, d.length < 2 ^ 30) →
        ∃ b, (buffersAt realloc opts lines n).2 = .ok b) := by
  refine ⟨Runs.halts hcores h, fun n c hc => diagram_record hcores h hsmall hc n,
    fun n c c' u k hu hu' => record_apart hcores h hu hu', fun n hdone k l hk => ?_,
    fun n => (buffersAt_fits realloc opts lines n).1, fun n b hpc hok => ?_,
    fun hreal n => buffersAt_exists hcores h hreal n⟩
  · have hnil := ((stateAt_inv hcores h n).out _ hdone).2
    have hlt := (List.getElem?_eq_some_iff.mp hk).1
    obtain ⟨fin, hfin⟩ := exists_finish hcores h hnil
    have hended := ((executed hcores h n).ended k _ ((hfin k hlt _).mpr rfl)).1
    rw [lineOf_eq hk, ← appearances hcores h] at hended
    push_cast at hended
    exact hended
  · obtain ⟨⟨log, r⟩, hr⟩ : ∃ x, buffersAt realloc opts lines n = x := ⟨_, rfl⟩
    rw [buffersAt, hr] at hok ⊢
    cases r with
    | error e => cases hok
    | ok b₀ => exact ⟨_, rfl, strcats_run hcores h hsmall hpc hok⟩

/-- Two jobs on two cores, and memory for all that is asked for: the diagram of core 0 tells what it did, and
iteration 15 appends the second unit to each diagram. -/
theorem faithful_record_two : (∃ d,
      (stateAt ⟨2, .fcfs, 0⟩ [⟨0, 2, 1⟩, ⟨1, 1, 1⟩] 40).coreTimingDiagram[0]? = some d ∧
      decodeDiagram d = record ⟨2, .fcfs, 0⟩ [⟨0, 2, 1⟩, ⟨1, 1, 1⟩] 40 0) ∧
    ∃ calls, (buffersAt (fun _ _ => true) ⟨2, .fcfs, 0⟩ [⟨0, 2, 1⟩, ⟨1, 1, 1⟩] 16).1 =
        (buffersAt (fun _ _ => true) ⟨2, .fcfs, 0⟩ [⟨0, 2, 1⟩, ⟨1, 1, 1⟩] 15).1 ++ calls ∧
      calls.map Strcat.core = [0, 1] ∧ calls.map Strcat.diagram = [1, 1] ∧
      calls.map (fun e => e.diagram + e.unit) = [2, 2] := by
  have hcores : 0 < (⟨2, .fcfs, 0⟩ : Options).cores := by decide
  have h : Workload [⟨0, 2, 1⟩, ⟨1, 1, 1⟩] := by simp [Workload]
  obtain ⟨-, hdecode, -, -, -, hcalls, hgrow⟩ := faithful_record hcores h (by simp) fun _ _ => true
  obtain ⟨b, hb⟩ := hgrow (fun _ _ => rfl) 16 (by decide)
  exact ⟨hdecode 40 0 (by decide), hcalls 15 b rfl hb⟩

end Statements

end Eecs678.Simulator.Buffers
