import Eecs678.Scheduler.NonPreemptive
import Eecs678.Simulator.Statistics
import Mathlib.Order.Interval.Finset.Nat

/-!
# The quantum of `RR`

`quantum_clock` of a core is the quantum less the units that the job on it has run since the core was
last given to a job (`served`): `clocked`. `AtCore` says once what an iteration of the main loop means for
one core. The bound on the clock in the run phase, the bound on the units between two callbacks and
when `scheduler_quantum_expired` is called are read off `clocked`: `quantum_bound`.
-/

namespace Eecs678.Simulator.Quantum

open Eecs678.Scheduler.Model Eecs678.Scheduler.Places Eecs678.Scheduler.History
open Eecs678.Scheduler.Table Eecs678.Scheduler.NonPreemptive
open Eecs678.Simulator.Model Eecs678.Simulator.Jobs Eecs678.Simulator.Lockstep Eecs678.Simulator.Runs
open Eecs678.Simulator.Trace Eecs678.Simulator.Statistics

/-! ### Dispatches and what is served -/

/-- The core that the iteration gives to a job, if it does. -/
def dispatched (s : Sim) : Option ℤ :=
  match s.pc with
  | .finish i => do
    let j ← s.jobs[i]?
    if j.runTime ≠ 0 then failure
    let (newJobId, _) ← schedulerJobFinished j.coreId j.jobId s.time s.sched
    if newJobId = -1 then none else some j.coreId
  | .quantum i => do
    if s.quantumClock[i]? ≠ some 0 then failure
    let _ ← s.jobs.findIdx? (fun j => j.coreId = (i : ℤ))
    let (newJobId, _) ← schedulerQuantumExpired i s.time s.sched
    if newJobId = -1 then none else some i
  | .arrive i => do
    let j ← s.jobs[i]?
    if j.arrivalTime ≠ s.time then failure
    let core := (schedulerNewJob j.jobId s.time j.runTime j.priority s.sched).1
    if core = -1 then none else some core
  | _ => none

/-- The units that job `k` has run on core `c` since the core was last given to a job. -/
def served (opts : Options) (lines : List Line) (c : ℕ) (k : ℤ) : ℕ → ℕ
  | 0 => 0
  | n + 1 =>
    let s := stateAt opts lines n
    if dispatched s = some (c : ℤ) then 0
    else if .ran k c s.time ∈ events s then served opts lines c k n + 1
    else served opts lines c k n

/-- The next step calls `scheduler_quantum_expired` for core `c`, on which job `k` is. -/
def Expires (opts : Options) (s : Sim) (c : ℕ) (k : ℤ) : Prop :=
  s.pc = .quantum c ∧ Calls opts s c k

/-- The units that are run from iteration `m` on, before iteration `n`. -/
def units (opts : Options) (lines : List Line) (m n : ℕ) : ℕ :=
  ((Finset.Ico m n).filter fun i => (stateAt opts lines i).pc = .run).card

/-- The loop over the expired quantums is still to come to core `c`. -/
def Due : Pc → ℕ → Prop
  | .top, _ => True
  | .finish _, _ => True
  | .quantum i, c => i ≤ c
  | _, _ => False

section Core
variable {opts : Options} {total : ℕ} {s s' : Sim} {c : ℕ} {k : ℤ}

theorem onCore_iff (h : Inv opts total s) : OnCore s c k ↔ RunsOn s.sched c k := by
  constructor
  · rintro ⟨j, hj, rfl, hc⟩
    exact (runsOn_iff h hj c).mp hc
  · rintro ⟨p, hp, hn⟩
    obtain ⟨j, hj, -, he⟩ := h.exists_job (mem_places_slot hp)
    have hid : j.jobId = k := (congrArg Entry.jobNumber he).trans hn
    exact ⟨j, hj, hid, (runsOn_iff h hj c).mpr ⟨p, hp, hn.trans hid.symm⟩⟩

/-- A slot that is not written has the same job. -/
theorem onCore_keeps (h : Inv opts total s) (h' : Inv opts total s')
    (hk : Keeps s.time s.sched s'.sched)
    (hslot : s'.sched.coreJobPtrs[c]? = s.sched.coreJobPtrs[c]?) : OnCore s' c k ↔ OnCore s c k := by
  rw [onCore_iff h, onCore_iff h', RunsOn, RunsOn, hslot]
  refine exists_congr fun p => and_congr_right fun hp => ?_
  have hst := hk.static p (h.lock.wf.lt_fresh (mem_places_slot hp))
  rw [show (s'.sched.heap p).jobNumber = (s.sched.heap p).jobNumber from congrArg Prod.fst hst]

/-! ### One iteration -/

/-- **What an iteration means for core `c`.** -/
inductive AtCore (opts : Options) (c : ℕ) (s s' : Sim) : Prop
  | keeps (hpc : s.pc ≠ .run) (hon : ∀ k, OnCore s' c k ↔ OnCore s c k)
      (hclock : s'.quantumClock[c]? = s.quantumClock[c]?) (hdisp : dispatched s ≠ some (c : ℤ))
      (hcall : ∀ k, ¬ Calls opts s c k)
      (hdue : ∀ k, OnCore s c k → Due s.pc c → Due s'.pc c ∨ s.quantumClock[c]? ≠ some 0)
  | runs (hpc : s.pc = .run) (hpc' : s'.pc = .top) (hon : ∀ k, OnCore s' c k ↔ OnCore s c k)
      (hclock : ∀ k, OnCore s c k → s'.quantumClock[c]? = s.quantumClock[c]?.map (· - 1))
  | sets (hpc : s.pc ≠ .run) (hclock : s'.quantumClock[c]? = some opts.quantum)
      (hdisp : ∀ k, OnCore s' c k → dispatched s = some (c : ℤ))
      (hcall : (∃ k, Calls opts s c k) ∨ ∀ k, ¬ OnCore s c k)

theorem not_calls_of (h1 : ∀ i, s.pc ≠ .finish i) (h2 : ∀ i, s.pc ≠ .quantum i) (k : ℤ) :
    ¬ Calls opts s c k := by
  rintro (⟨i, -, hpc, -⟩ | ⟨i, -, -, hpc, -⟩)
  · exact h1 i hpc
  · exact h2 i hpc

/-- The machine moves on without a call. -/
theorem AtCore.move {pc : Pc} (hpc : s.pc ≠ .run) (hdisp : dispatched s ≠ some (c : ℤ))
    (hcall : ∀ k, ¬ Calls opts s c k)
    (hdue : ∀ k, OnCore s c k → Due s.pc c → Due pc c ∨ s.quantumClock[c]? ≠ some 0) :
    AtCore opts c s { s with pc := pc } :=
  .keeps hpc (fun _ => Iff.rfl) rfl hdisp hcall hdue

theorem not_onCore_nil (hnil : s.jobs = []) : ¬ OnCore s c k := by
  rintro ⟨j, hj, -⟩
  rw [hnil] at hj
  simp at hj

/-- Callbacks for another core leave the slot alone. -/
theorem finished_slot {core n t r : ℤ} {sched sched' : Sched} {p : ℕ} (hp : jobOn core sched = some p)
    (hcall : schedulerJobFinished core n t sched = some (r, sched')) (hne : (c : ℤ) ≠ core) :
    sched'.coreJobPtrs[c]? = sched.coreJobPtrs[c]? := by
  have h0 := (jobOn_eq hp).1
  have hne' : c ≠ core.toNat := by omega
  rw [finished_state hp hcall, pollOnto_slot hne']
  exact List.getElem?_set_ne hne'.symm

theorem expired_slot {core t r : ℤ} {sched sched' : Sched} {p : ℕ} (hp : jobOn core sched = some p)
    (hcall : schedulerQuantumExpired core t sched = some (r, sched')) (hne : (c : ℤ) ≠ core) :
    sched'.coreJobPtrs[c]? = sched.coreJobPtrs[c]? := by
  have h0 := (jobOn_eq hp).1
  have hne' : c ≠ core.toNat := by omega
  rw [expired_state hp hcall, pollOnto_slot hne']
  exact List.getElem?_set_ne hne'.symm

/-- The iteration in which a job finishes. -/
theorem Move.of_finish (hm : Move opts s s') {i : ℕ} {j : SimulatorJob} (hpc : s.pc = .finish i)
    (hi : s.jobs[i]? = some j) (h0 : j.runTime = 0) : ∃ r, j.coreId ≠ -1 ∧
      schedulerJobFinished j.coreId j.jobId s.time s.sched = some (r, s'.sched) ∧
      s'.jobs = (deleteJob i s.jobs).map (activateJob r j.coreId) := by
  cases hm with
  | quiet hev => simp [events, hpc, hi, h0] at hev
  | finish i' j' r hpc' hi' _ hcore hcall hjobs =>
    obtain rfl : i = i' := by simpa [hpc] using hpc'
    rw [hi, Option.some.injEq] at hi'
    subst hi'
    exact ⟨r, hcore, hcall, hjobs⟩
  | expire i' r hpc' => simp [hpc] at hpc'
  | arrive i' j' c' hpc' => simp [hpc] at hpc'
  | run hpc' => simp [hpc] at hpc'

/-- The clock after the callback, whatever it chooses. -/
theorem finish_clock {i : ℕ} {j : SimulatorJob} {x : ℤ × Sched} (hpc : s.pc = .finish i)
    (hi : s.jobs[i]? = some j) (h0 : j.runTime = 0)
    (hcall : schedulerJobFinished j.coreId j.jobId s.time s.sched = some x) :
    (step opts s).quantumClock = resetClock opts j.coreId s.quantumClock := by
  simp only [step, hpc, finishStep, hi, if_pos h0, hcall]
  cases setNewJob x.1 j.coreId (deleteJob i s.jobs) <;> rfl

theorem finish_pc (h' : Inv opts total (step opts s)) {i : ℕ} {j : SimulatorJob} {x : ℤ × Sched}
    (hpc : s.pc = .finish i) (hi : s.jobs[i]? = some j) (h0 : j.runTime = 0)
    (hcall : schedulerJobFinished j.coreId j.jobId s.time s.sched = some x) :
    (step opts s).pc = .finish i := by
  have hout := h'.out .invalidJob
  simp only [step, hpc, finishStep, hi, if_pos h0, hcall] at hout ⊢
  cases hset : setNewJob x.1 j.coreId (deleteJob i s.jobs) with
  | none =>
    rw [hset] at hout
    simpa using (hout rfl).1
  | some jobs => rfl

/-- The job that is deleted was the only one on its core. -/
theorem finish_onCore (h : Inv opts total s) {i : ℕ} {j : SimulatorJob} {r : ℤ}
    (hi : s.jobs[i]? = some j) (hcore : j.coreId ≠ -1)
    (hjobs : s'.jobs = (deleteJob i s.jobs).map (activateJob r j.coreId)) (hc : j.coreId = c)
    (hk : OnCore s' c k) : r ≠ -1 := by
  obtain ⟨j', hj', -, hc'⟩ := hk
  rw [hjobs] at hj'
  obtain ⟨a, ha, rfl⟩ := List.mem_map.mp hj'
  have ha' := mem_deleteJob hi ha
  have hid := jobId_nonneg h ha'
  by_cases har : a.jobId = r
  · omega
  · rw [activateJob, if_neg har] at hc'
    have hsame := same_core h (List.mem_of_getElem? hi) hcore ha' (hc'.trans hc.symm)
    exact absurd (hsame ▸ List.mem_map_of_mem ha) (List.nodup_cons.mp (deleteJob_ids h hi)).1

/-- A call in this loop is for the core of the job that the loop is at. -/
theorem finish_not_calls {i : ℕ} (hpc : s.pc = .finish i)
    (hno : ∀ j, s.jobs[i]? = some j → j.runTime = 0 → j.coreId ≠ c) (k : ℤ) : ¬ Calls opts s c k := by
  rintro (⟨i', j, hpc', hi, h0, hc, -⟩ | ⟨i', -, -, hpc', -⟩)
  · obtain rfl : i = i' := by simpa [hpc] using hpc'
    exact hno j hi h0 hc.symm
  · simp [hpc] at hpc'

/-- **When a job finishes**, its core gets the job that is chosen. -/
theorem ended_atCore (h : Inv opts total s) (hcores : 0 < opts.cores) (hrr : opts.scheme = .rr)
    {i : ℕ} {j : SimulatorJob} (hpc : s.pc = .finish i) (hi : s.jobs[i]? = some j)
    (h0 : j.runTime = 0) : AtCore opts c s (step opts s) := by
  have h' := step_inv h hcores
  have hm := step_move h hcores
  obtain ⟨r, hcore, hcall, hjobs⟩ := Move.of_finish hm hpc hi h0
  have hclock : (step opts s).quantumClock = _ := finish_clock hpc hi h0 hcall
  have hr := (h.range (List.mem_of_getElem? hi)).resolve_left hcore
  have hlen := h.lock.clock
  rw [resetClock, if_pos hrr] at hclock
  have hdisp : dispatched s = if r = -1 then none else some j.coreId := by
    simp [dispatched, hpc, hi, h0, hcall]
  by_cases hc : j.coreId = c
  · refine .sets (by simp [hpc]) ?_ (fun k hk => ?_) (Or.inl ⟨j.jobId, Or.inl ⟨i, j, hpc, hi, h0,
      hc.symm, rfl⟩⟩)
    · rw [hclock, hc, Int.toNat_natCast, List.getElem?_set_self (by omega)]
    · rw [hdisp, if_neg (finish_onCore h hi hcore hjobs hc hk), hc]
  · obtain ⟨p, hp⟩ := finished_jobOn hcall
    refine .keeps (by simp [hpc]) (fun k => onCore_keeps h h' (move_keeps h hm)
      (finished_slot hp hcall (Ne.symm hc))) ?_ ?_ (finish_not_calls hpc fun a ha _ => ?_) ?_
    · rw [hclock, List.getElem?_set_ne (by omega)]
    · rw [hdisp]
      split_ifs
      · simp
      · simpa using hc
    · rw [hi, Option.some.injEq] at ha
      exact ha ▸ hc
    · intro k _ _
      rw [finish_pc h' hpc hi h0 hcall]
      exact Or.inl trivial

theorem finish_atCore (h : Inv opts total s) (hcores : 0 < opts.cores) (hrr : opts.scheme = .rr)
    {i : ℕ} (hpc : s.pc = .finish i) : AtCore opts c s (step opts s) := by
  cases hi : s.jobs[i]? with
  | none =>
    have hquiet : ∀ k, ¬ Calls opts s c k := finish_not_calls hpc fun j hj => by
      rw [hi] at hj
      cases hj
    have hdisp : dispatched s ≠ some (c : ℤ) := by simp [dispatched, hpc, hi]
    simp only [step, hpc, finishStep, hi]
    split_ifs with h0
    · exact .move (by simp [hpc]) hdisp hquiet
        fun k hk => absurd hk (not_onCore_nil (List.length_eq_zero_iff.mp h0))
    · exact .move (by simp [hpc]) hdisp hquiet fun _ _ _ => Or.inl (Nat.zero_le c)
  | some j =>
    by_cases h0 : j.runTime = 0
    · exact ended_atCore h hcores hrr hpc hi h0
    · have hquiet : ∀ k, ¬ Calls opts s c k := finish_not_calls hpc fun a ha h0' => by
        rw [hi, Option.some.injEq] at ha
        exact absurd (ha ▸ h0') h0
      simp only [step, hpc, finishStep, hi, if_neg h0]
      refine .move (by simp [hpc]) ?_ hquiet fun _ _ _ => Or.inl trivial
      simp [dispatched, hpc, hi, h0]

/-- After the callback the core has the job that was chosen, if one was. -/
theorem expire_onCore (h : Inv opts total s) {r : ℤ}
    (hjobs : s'.jobs = (s.jobs.map (clearCore c)).map (activateJob r c)) (hk : OnCore s' c k) :
    r ≠ -1 := by
  obtain ⟨j', hj', -, hc'⟩ := hk
  rw [hjobs, List.map_map] at hj'
  obtain ⟨a, ha, rfl⟩ := List.mem_map.mp hj'
  have hid := jobId_nonneg h ha
  simp only [Function.comp_apply] at hc'
  by_cases har : a.jobId = r
  · omega
  · rw [activateJob, clearCore_jobId, if_neg har, clearCore] at hc'
    split_ifs at hc' with hac
    · simp only at hc'
      omega
    · exact absurd hc' hac

/-- The call of `scheduler_quantum_expired` for core `i`. -/
theorem expire_step (h : Inv opts total s) (h' : Inv opts total (step opts s)) {i m : ℕ}
    (hpc : s.pc = .quantum i) (hi : i < opts.cores) (h0 : s.quantumClock[i]? = some 0)
    (hm : s.jobs.findIdx? (fun j => j.coreId = (i : ℤ)) = some m) : ∃ (p : ℕ) (r : ℤ) (sched : Sched),
      jobOn i s.sched = some p ∧ schedulerQuantumExpired i s.time s.sched = some (r, sched) ∧
      step opts s = { s with
        pc := .quantum (i + 1)
        sched := sched
        quantumClock := s.quantumClock.set i opts.quantum
        jobs := (s.jobs.map (clearCore i)).map (activateJob r i) } := by
  obtain ⟨hlt, hcore, -⟩ := List.findIdx?_eq_some_iff_getElem.mp hm
  have hmj : s.jobs[m]? = some s.jobs[m] := List.getElem?_eq_getElem hlt
  have hc : s.jobs[m].coreId = i := by simpa using hcore
  obtain ⟨p, -, hp, -⟩ := h.jobOn_core (List.mem_of_getElem? hmj) (by omega)
  rw [hc] at hp
  obtain ⟨⟨r, sched⟩, hcall⟩ : ∃ x, schedulerQuantumExpired i s.time s.sched = some x :=
    ⟨_, expired_eq hp s.time⟩
  have hclear := modify_clearCore (c := i) h.apart (by omega) hmj hc
  have hout := h'.out .invalidJob
  refine ⟨p, r, sched, hp, hcall, ?_⟩
  simp only [step, hpc, quantumStep, if_pos hi, if_pos h0, hm, hcall, hclear] at hout ⊢
  cases hset : setNewJob r i (s.jobs.map (clearCore i)) with
  | none =>
    rw [hset] at hout
    simpa using (hout rfl).1
  | some jobs => rw [setNewJob_cleared h hset]

/-- A call in this loop is for the core that the loop is at. -/
theorem quantum_calls {i : ℕ} (hpc : s.pc = .quantum i) (hcall : Calls opts s c k) : i = c ∧
    i < opts.cores ∧ s.quantumClock[i]? = some 0 ∧
    s.jobs.findIdx? (fun j => j.coreId = (i : ℤ)) ≠ none := by
  rcases hcall with ⟨i', j, hpc', -⟩ | ⟨i', m, j, hpc', hi, h0, hm, -, hc, -⟩
  · simp [hpc] at hpc'
  · obtain rfl : i = i' := by simpa [hpc] using hpc'
    exact ⟨by omega, hi, h0, by rw [hm]; simp⟩

theorem Due.later {i : ℕ} (hne : i ≠ c) (hdue : Due (.quantum i) c) : Due (.quantum (i + 1)) c := by
  have hle : i ≤ c := hdue
  exact (by omega : i + 1 ≤ c)

/-- **When a quantum expires**, the core gets the job that is chosen. -/
theorem expired_atCore (h : Inv opts total s) (hcores : 0 < opts.cores) {i m : ℕ}
    (hpc : s.pc = .quantum i) (hi : i < opts.cores) (h0 : s.quantumClock[i]? = some 0)
    (hm : s.jobs.findIdx? (fun j => j.coreId = (i : ℤ)) = some m) : AtCore opts c s (step opts s) := by
  have h' := step_inv h hcores
  have hrun : s.pc ≠ .run := by simp [hpc]
  obtain ⟨p, r, sched, hp, hcall, hstep⟩ := expire_step h h' hpc hi h0 hm
  have hdisp : dispatched s = if r = -1 then none else some (i : ℤ) := by
    simp [dispatched, hpc, h0, hm, hcall]
  have hlen := h.lock.clock
  rw [hstep] at h' ⊢
  by_cases hic : i = c
  · subst hic
    refine .sets hrun (List.getElem?_set_self (by omega)) (fun k hk => ?_) ?_
    · rw [hdisp, if_neg (expire_onCore h rfl hk)]
    · obtain ⟨hlt, -⟩ := List.findIdx?_eq_some_iff_getElem.mp hm
      exact Or.inl ⟨_, Or.inr ⟨i, m, s.jobs[m], hpc, hi, h0, hm, List.getElem?_eq_getElem hlt,
        rfl, rfl⟩⟩
  · refine .keeps hrun (fun k => onCore_keeps h h' (expired_call h.lock.wf hp hcall).2.2
      (expired_slot hp hcall (by omega))) (List.getElem?_set_ne hic) ?_
      (fun k hk => hic (quantum_calls hpc hk).1) fun k _ hdue => Or.inl (Due.later hic (hpc ▸ hdue))
    rw [hdisp]
    split_ifs
    · simp
    · simpa using hic

theorem quantum_atCore (h : Inv opts total s) (hcores : 0 < opts.cores) {i : ℕ}
    (hpc : s.pc = .quantum i) : AtCore opts c s (step opts s) := by
  have hrun : s.pc ≠ .run := by simp [hpc]
  by_cases hi : i < opts.cores
  · by_cases h0 : s.quantumClock[i]? = some 0
    · cases hm : s.jobs.findIdx? (fun j => j.coreId = (i : ℤ)) with
      | none =>
        have hno : ∀ k, OnCore s c k → i ≠ c := by
          rintro k ⟨j, hj, -, hc⟩ rfl
          simpa [hc] using List.findIdx?_eq_none_iff.mp hm j hj
        simp only [step, hpc, quantumStep, if_pos hi, if_pos h0, hm]
        exact .move hrun (by simp [dispatched, hpc, h0, hm])
          (fun k hk => (quantum_calls hpc hk).2.2.2 hm)
          fun k hk hdue => Or.inl (Due.later (hno k hk) (hpc ▸ hdue))
      | some m => exact expired_atCore h hcores hpc hi h0 hm
    · simp only [step, hpc, quantumStep, if_pos hi, if_neg h0]
      refine .move hrun (by simp [dispatched, hpc, h0]) (fun k hk => h0 (quantum_calls hpc hk).2.2.1)
        fun k hk hdue => ?_
      by_cases hic : i = c
      · exact Or.inr (hic ▸ h0)
      · exact Or.inl (Due.later hic (hpc ▸ hdue))
  · have hlen := h.lock.clock
    simp only [step, hpc, quantumStep, if_neg hi]
    refine .move hrun ?_ (fun k hk => hi (quantum_calls hpc hk).2.1) fun k hk hdue => ?_
    · simp [dispatched, hpc, List.getElem?_eq_none (show s.quantumClock.length ≤ i by omega)]
    · have hlt := hk.lt h
      rw [hpc] at hdue
      have hle : i ≤ c := hdue
      omega

/-- In the loop over the arrivals the loop over the quantums is over. -/
theorem not_due_arrive {i : ℕ} (hpc : s.pc = .arrive i) (pc : Pc) (k : ℤ) (_ : OnCore s c k)
    (hdue : Due s.pc c) : Due pc c ∨ s.quantumClock[c]? ≠ some 0 := by
  rw [hpc] at hdue
  exact hdue.elim

/-- **An arrival gives the job an idle core**, or none. -/
theorem arrival_atCore (h : Inv opts total s) (hcores : 0 < opts.cores) (hrr : opts.scheme = .rr)
    (hsch : s.sched.currentScheme = .rr) {i : ℕ} {j : SimulatorJob} (hpc : s.pc = .arrive i)
    (hi : s.jobs[i]? = some j) (ht : j.arrivalTime = s.time) : AtCore opts c s (step opts s) := by
  have h' := step_inv h hcores
  have hrun : s.pc ≠ .run := by simp [hpc]
  have hquiet : ∀ k, ¬ Calls opts s c k := not_calls_of (by simp [hpc]) (by simp [hpc])
  have hlen := h.lock.clock
  have hslots := h.lock.slots
  have hk := newJob_keeps h.lock.wf j.jobId s.time j.runTime j.priority
  have hstep : step opts s = arriveStep opts i s := by simp only [step, hpc]
  have hdisp : dispatched s =
      if (schedulerNewJob j.jobId s.time j.runTime j.priority s.sched).1 = -1 then none
      else some (schedulerNewJob j.jobId s.time j.runTime j.priority s.sched).1 := by
    simp [dispatched, hpc, hi, ht]
  rw [hstep] at h' ⊢
  unfold arriveStep at h' ⊢
  simp only [hi, if_pos ht] at h' ⊢
  rcases newJob_still (by decide : Still .rr) hsch j.jobId s.time j.runTime j.priority with
    ⟨c', hc', -, he⟩ | ⟨-, he⟩
  · have hlt := (List.getElem?_eq_some_iff.mp hc').1
    rw [he] at hdisp h' hk ⊢
    simp only at hdisp h' hk ⊢
    rw [if_pos (by omega)] at h' ⊢
    rw [if_neg (by omega)] at hdisp
    by_cases hcc : c' = c
    · subst hcc
      refine .sets hrun ?_ (fun k _ => hdisp) (Or.inr fun k hk => ?_)
      · rw [resetClock, if_pos hrr, Int.toNat_natCast]
        exact List.getElem?_set_self (by omega)
      · obtain ⟨p, hp, -⟩ := (onCore_iff h).mp hk
        rw [hc'] at hp
        simp at hp
    · refine .keeps hrun (fun k => onCore_keeps h h' hk ?_) ?_ ?_ hquiet (not_due_arrive hpc _)
      · exact List.getElem?_set_ne hcc
      · rw [resetClock, if_pos hrr, Int.toNat_natCast]
        exact List.getElem?_set_ne hcc
      · rw [hdisp]
        simpa using hcc
  · rw [he] at hdisp h' hk ⊢
    simp only at hdisp h' hk ⊢
    rw [if_neg (by omega), if_pos trivial] at h' ⊢
    rw [if_pos trivial] at hdisp
    exact .keeps hrun (fun k => onCore_keeps h h' hk rfl) rfl (by simp [hdisp]) hquiet
      (not_due_arrive hpc _)

theorem arrive_atCore (h : Inv opts total s) (hcores : 0 < opts.cores) (hrr : opts.scheme = .rr)
    (hsch : s.sched.currentScheme = .rr) {i : ℕ} (hpc : s.pc = .arrive i) :
    AtCore opts c s (step opts s) := by
  have hrun : s.pc ≠ .run := by simp [hpc]
  have hquiet : ∀ k, ¬ Calls opts s c k := not_calls_of (by simp [hpc]) (by simp [hpc])
  cases hi : s.jobs[i]? with
  | none =>
    simp only [step, hpc, arriveStep, hi]
    exact .move hrun (by simp [dispatched, hpc, hi]) hquiet (not_due_arrive hpc _)
  | some j =>
    by_cases ht : j.arrivalTime = s.time
    · exact arrival_atCore h hcores hrr hsch hpc hi ht
    · simp only [step, hpc, arriveStep, hi, if_neg ht]
      exact .move hrun (by simp [dispatched, hpc, hi, ht]) hquiet (not_due_arrive hpc _)

theorem runJob_coreId (j : SimulatorJob) : (runJob j).coreId = j.coreId := by
  unfold runJob
  split_ifs <;> rfl

theorem run_atCore (h : Inv opts total s) (hcores : 0 < opts.cores) (hpc : s.pc = .run) :
    AtCore opts c s (step opts s) := by
  have hout := (step_inv h hcores).out .allIdle
  obtain ⟨clock, strings, hrun, -⟩ := run_ok h
  simp only [step, hpc, runStep, hrun] at hout ⊢
  split_ifs at hout ⊢
  · simpa using (hout rfl).1
  · refine .runs hpc rfl (fun k => ?_) ?_
    · constructor
      · rintro ⟨j', hj', hid, hc⟩
        obtain ⟨j, hj, rfl⟩ := List.mem_map.mp hj'
        exact ⟨j, hj, by rwa [runJob_jobId] at hid, by rwa [runJob_coreId] at hc⟩
      · rintro ⟨j, hj, hid, hc⟩
        exact ⟨runJob j, List.mem_map_of_mem hj, by rwa [runJob_jobId], by rwa [runJob_coreId]⟩
    · rintro k ⟨j, hj, -, hc⟩
      exact (runJobs_on hc hrun h.apart hj).1

/-- **Each iteration** does one of the three. -/
theorem step_atCore (h : Inv opts total s) (hcores : 0 < opts.cores) (hrr : opts.scheme = .rr)
    (hsch : s.sched.currentScheme = .rr) (c : ℕ) : AtCore opts c s (step opts s) := by
  cases hpc : s.pc with
  | top =>
    have hquiet : ∀ k, ¬ Calls opts s c k := not_calls_of (by simp [hpc]) (by simp [hpc])
    simp only [step, hpc]
    split_ifs with hlen
    · exact .move (by simp [hpc]) (by simp [dispatched, hpc]) hquiet fun _ _ _ => Or.inl trivial
    · have hnil := List.length_eq_zero_iff.mp (Nat.eq_zero_of_not_pos hlen)
      exact .move (by simp [hpc]) (by simp [dispatched, hpc]) hquiet
        fun k hk => absurd hk (not_onCore_nil hnil)
  | finish i => exact finish_atCore h hcores hrr hpc
  | quantum i => exact quantum_atCore h hcores hpc
  | arrive i => exact arrive_atCore h hcores hrr hsch hpc
  | run => exact run_atCore h hcores hpc
  | stop why =>
    have hquiet : ∀ k, ¬ Calls opts s c k := not_calls_of (by simp [hpc]) (by simp [hpc])
    have hstep : step opts s = { s with pc := s.pc } := by simp only [step, hpc]
    rw [hstep]
    exact .move (by simp [hpc]) (by simp [dispatched, hpc]) hquiet fun _ _ hd => Or.inl hd

end Core

/-! ### Runs -/

section Served
variable {opts : Options} {lines : List Line} {c n : ℕ} {k : ℤ}

theorem served_dispatched (hd : dispatched (stateAt opts lines n) = some (c : ℤ)) :
    served opts lines c k (n + 1) = 0 := by
  rw [served]
  exact if_pos hd

theorem served_same (hd : dispatched (stateAt opts lines n) ≠ some (c : ℤ))
    (hpc : (stateAt opts lines n).pc ≠ .run) :
    served opts lines c k (n + 1) = served opts lines c k n := by
  rw [served]
  simp only [if_neg hd]
  exact if_neg fun hr => hpc (mem_events_ran.mp hr).1

theorem served_run (hpc : (stateAt opts lines n).pc = .run)
    (hon : OnCore (stateAt opts lines n) c k) :
    served opts lines c k (n + 1) = served opts lines c k n + 1 := by
  obtain ⟨j, hj, hid, hc⟩ := hon
  have hd : dispatched (stateAt opts lines n) ≠ some (c : ℤ) := by simp [dispatched, hpc]
  rw [served]
  simp only [if_neg hd]
  exact if_pos (mem_events_ran.mpr ⟨hpc, rfl, j, hj, by omega, hid, hc⟩)

theorem units_self (opts : Options) (lines : List Line) (n : ℕ) : units opts lines n n = 0 := by
  rw [units, Finset.Ico_self]
  rfl

theorem units_succ {m : ℕ} (hmn : m ≤ n) : units opts lines m (n + 1) =
    units opts lines m n + if (stateAt opts lines n).pc = .run then 1 else 0 := by
  unfold units
  rw [Nat.Ico_succ_right_eq_insert_Ico hmn, Finset.filter_insert]
  split_ifs
  · rw [Finset.card_insert_of_notMem (by simp)]
  · rfl

end Served

section Runs
variable {opts : Options} {lines : List Line} {c : ℕ} {k : ℤ}

theorem stateAt_atCore (hcores : 0 < opts.cores) (hrr : opts.scheme = .rr) (h : Workload lines)
    (c n : ℕ) : AtCore opts c (stateAt opts lines n) (stateAt opts lines (n + 1)) := by
  rw [stateAt_succ]
  exact step_atCore (stateAt_inv hcores h n) hcores hrr ((stateAt_scheme hcores h n).trans hrr) c

/-- **The clock of a core** is what is left of the quantum, and if nothing is left, the loop over the
expired quantums is still to come. -/
theorem clocked (hcores : 0 < opts.cores) (hrr : opts.scheme = .rr) (hq : 1 ≤ opts.quantum)
    (h : Workload lines) (c n : ℕ) (k : ℤ) (hon : OnCore (stateAt opts lines n) c k) :
    (stateAt opts lines n).quantumClock[c]? = some (opts.quantum - served opts lines c k n) ∧
      (served opts lines c k n : ℤ) ≤ opts.quantum ∧
      ((served opts lines c k n : ℤ) = opts.quantum → Due (stateAt opts lines n).pc c) := by
  induction n with
  | zero =>
    obtain ⟨j, hj, -, hc⟩ := hon
    obtain ⟨i, hi, rfl⟩ := List.mem_mapIdx.mp hj
    simp only at hc
    omega
  | succ n ih =>
    cases stateAt_atCore hcores hrr h c n with
    | keeps hpc hkeep hclock hdisp _ hdue =>
      have hon' := (hkeep k).mp hon
      obtain ⟨hx, hle, hd⟩ := ih hon'
      rw [hclock, hx, served_same hdisp hpc]
      refine ⟨rfl, hle, fun heq => (hdue k hon' (hd heq)).resolve_right ?_⟩
      rw [hx, heq, sub_self]
      simp
    | runs hpc hpc' hkeep hclock =>
      have hon' := (hkeep k).mp hon
      obtain ⟨hx, hle, hd⟩ := ih hon'
      have hlt : (served opts lines c k n : ℤ) ≠ opts.quantum := fun heq => by
        have hdue := hd heq
        rw [hpc] at hdue
        exact hdue
      rw [hclock k hon', hx, served_run hpc hon', hpc', Option.map_some]
      push_cast
      exact ⟨congrArg some (by omega), by omega, fun _ => trivial⟩
    | sets _ hclock hdisp _ =>
      rw [hclock, served_dispatched (hdisp k hon)]
      exact ⟨by simp, by omega, fun heq => by push_cast at heq; omega⟩

/-- In the loop over the quantums the clock is 0 if and only if the quantum is used up. -/
theorem expires_iff (hcores : 0 < opts.cores) (hrr : opts.scheme = .rr) (hq : 1 ≤ opts.quantum)
    (h : Workload lines) {n : ℕ} (hpc : (stateAt opts lines n).pc = .quantum c) :
    Expires opts (stateAt opts lines n) c k ↔ OnCore (stateAt opts lines n) c k ∧
      (served opts lines c k n : ℤ) = opts.quantum := by
  have hinv := stateAt_inv hcores h n
  constructor
  · rintro ⟨-, hcall⟩
    obtain ⟨j, hj, hid, hc, -⟩ := calls_runsOn hinv hcall
    have hon : OnCore (stateAt opts lines n) c k := ⟨j, hj, hid, hc⟩
    rcases hcall with ⟨i, _, hpc', -⟩ | ⟨i, _, _, hpc', -, h0, -⟩
    · rw [hpc] at hpc'
      cases hpc'
    · rw [hpc] at hpc'
      cases hpc'
      rw [(clocked hcores hrr hq h c n k hon).1, Option.some.injEq] at h0
      exact ⟨hon, by omega⟩
  · rintro ⟨hon, heq⟩
    have h0 := (clocked hcores hrr hq h c n k hon).1
    rw [heq, sub_self] at h0
    obtain ⟨j, hj, hid, hc⟩ := hon
    cases hm : (stateAt opts lines n).jobs.findIdx? (fun j => j.coreId = (c : ℤ)) with
    | none => simpa [hc] using List.findIdx?_eq_none_iff.mp hm j hj
    | some m =>
      obtain ⟨hlt, hcore, -⟩ := List.findIdx?_eq_some_iff_getElem.mp hm
      have hsame := same_core hinv hj (by omega) (List.getElem_mem hlt)
        ((by simpa using hcore : _ = (c : ℤ)).trans hc.symm)
      exact ⟨hpc, Or.inr ⟨c, m, _, hpc, OnCore.lt hinv ⟨j, hj, hid, hc⟩, h0, hm,
        List.getElem?_eq_getElem hlt, rfl, hid.symm.trans hsame⟩⟩

/-- **While a core is busy and no callback is made for it**, the units that are run count for the job
that is on it. -/
theorem units_served (hcores : 0 < opts.cores) (hrr : opts.scheme = .rr) (h : Workload lines)
    {m n : ℕ} (hmn : m ≤ n)
    (hbusy : ∀ i, m ≤ i → i < n → (∀ k, ¬ Calls opts (stateAt opts lines i) c k) ∧
      ((stateAt opts lines i).pc = .run → ∃ k, OnCore (stateAt opts lines i) c k)) :
    units opts lines m n = 0 ∨ ∃ k, OnCore (stateAt opts lines n) c k ∧
      units opts lines m n ≤ served opts lines c k n := by
  induction hmn with
  | refl => exact Or.inl (units_self opts lines m)
  | @step n hmn ih =>
    obtain ⟨hcalls, hrun⟩ := hbusy n hmn (Nat.lt_succ_self n)
    have ih := ih fun i hi hin => hbusy i hi (by omega)
    rw [units_succ hmn]
    cases stateAt_atCore hcores hrr h c n with
    | keeps hpc hkeep _ hdisp =>
      rw [if_neg hpc, Nat.add_zero]
      refine ih.imp_right fun ⟨k, hon, hle⟩ => ⟨k, (hkeep k).mpr hon, ?_⟩
      rwa [served_same hdisp hpc]
    | runs hpc _ hkeep =>
      rw [if_pos hpc]
      right
      rcases ih with h0 | ⟨k, hon, hle⟩
      · obtain ⟨k, hon⟩ := hrun hpc
        exact ⟨k, (hkeep k).mpr hon, by rw [served_run hpc hon]; omega⟩
      · exact ⟨k, (hkeep k).mpr hon, by rw [served_run hpc hon]; omega⟩
    | sets hpc _ _ hcall =>
      rw [if_neg hpc, Nat.add_zero]
      refine Or.inl (ih.resolve_right fun ⟨k, hon, _⟩ => ?_)
      rcases hcall with ⟨k', hcall⟩ | hidle
      · exact hcalls k' hcall
      · exact hidle k hon

theorem runTime_left (hcores : 0 < opts.cores) (h : Workload lines) {n : ℕ}
    (hpc : (stateAt opts lines n).pc ≠ .run)
    (hleft : ∀ j ∈ (stateAt opts lines n).jobs, j.jobId = k → j.runTime ≠ 0) :
    ∀ j ∈ (stateAt opts lines (n + 1)).jobs, j.jobId = k → j.runTime ≠ 0 := by
  intro j' hj' hid
  obtain ⟨j, hj, h1, h2⟩ := move_runTime (stateAt_move hcores h n) hpc j' hj'
  rw [h2]
  exact hleft j hj (h1.symm.trans hid)

/-- **A job that used up its quantum and has something left to do** loses its core before the next unit
is run. -/
theorem exists_expires (hcores : 0 < opts.cores) (hrr : opts.scheme = .rr) (hq : 1 ≤ opts.quantum)
    (h : Workload lines) {n : ℕ} (hon : OnCore (stateAt opts lines n) c k)
    (hfull : (served opts lines c k n : ℤ) = opts.quantum)
    (hleft : ∀ j ∈ (stateAt opts lines n).jobs, j.jobId = k → j.runTime ≠ 0) :
    ∃ m ≥ n, (stateAt opts lines m).time = (stateAt opts lines n).time ∧
      Expires opts (stateAt opts lines m) c k := by
  -- each iteration leaves less to do, and until the call the job stays where it is
  obtain ⟨w, hw⟩ : ∃ w, w = left opts (stateAt opts lines n) := ⟨_, rfl⟩
  induction w using WellFoundedLT.induction generalizing n with
  | ind w ih =>
    have hinv := stateAt_inv hcores h n
    have hdue := (clocked hcores hrr hq h c n k hon).2.2 hfull
    by_cases hpc : (stateAt opts lines n).pc = .quantum c
    · exact ⟨n, le_refl n, rfl, (expires_iff hcores hrr hq h hpc).mpr ⟨hon, hfull⟩⟩
    · have hrun : (stateAt opts lines n).pc ≠ .run := fun hr => by
        rw [hr] at hdue
        exact hdue
      have hless : left opts (stateAt opts lines (n + 1)) < w := by
        rw [stateAt_succ, hw]
        refine step_left hinv hcores ?_
        rintro ⟨why, hstop⟩
        rw [hstop] at hdue
        exact hdue
      cases stateAt_atCore hcores hrr h c n with
      | keeps _ hkeep _ hdisp =>
        obtain ⟨m, hm, htime, hexp⟩ := ih _ hless ((hkeep k).mpr hon)
          (by rw [served_same hdisp hrun]; exact hfull) (runTime_left hcores h hrun hleft) rfl
        exact ⟨m, by omega, htime.trans (time_same hcores h hrun), hexp⟩
      | runs hpc' => exact absurd hpc' hrun
      | sets _ _ _ hcall =>
        rcases hcall with ⟨k', hcall⟩ | hidle
        · -- the call would be one for a job that has nothing left
          obtain ⟨j, hj, hid, hc, -⟩ := calls_runsOn hinv hcall
          rcases hcall with ⟨i, a, -, hi, h0, hca, -⟩ | ⟨i, _, _, hpc', -, -, -, -, hci, -⟩
          · have ha := List.mem_of_getElem? hi
            have hka := OnCore.unique hinv hon ⟨a, ha, rfl, hca.symm⟩
            exact absurd h0 (hleft a ha hka.symm)
          · obtain rfl : c = i := by omega
            exact absurd hpc' hpc
        · exact absurd hon (hidle k)

/-- **Quantum bound.** Under `RR` each busy core enters the run phase with a clock from 1 to the
quantum. No core runs more units than the quantum without a callback for it, and
`scheduler_quantum_expired` is called for it exactly when the job on it has run as many units since the
core was given to it, and is not finished. -/
theorem quantum_bound (hcores : 0 < opts.cores) (hrr : opts.scheme = .rr) (hq : 1 ≤ opts.quantum)
    (h : Workload lines) :
    (∀ n c k, (stateAt opts lines n).pc = .run → OnCore (stateAt opts lines n) c k →
      ∃ x, (stateAt opts lines n).quantumClock[c]? = some x ∧ 1 ≤ x ∧ x ≤ opts.quantum) ∧
    (∀ (c : ℕ) m n, m ≤ n →
      (∀ i, m ≤ i → i < n → (∀ k, ¬ Calls opts (stateAt opts lines i) c k) ∧
        ((stateAt opts lines i).pc = .run → ∃ k, OnCore (stateAt opts lines i) c k)) →
      (units opts lines m n : ℤ) ≤ opts.quantum) ∧
    (∀ n c k, (stateAt opts lines n).pc = .quantum c →
      (Expires opts (stateAt opts lines n) c k ↔ OnCore (stateAt opts lines n) c k ∧
        (served opts lines c k n : ℤ) = opts.quantum)) ∧
    ∀ n c k, OnCore (stateAt opts lines n) c k → (served opts lines c k n : ℤ) = opts.quantum →
      (∀ j ∈ (stateAt opts lines n).jobs, j.jobId = k → j.runTime ≠ 0) →
        ∃ m ≥ n, (stateAt opts lines m).time = (stateAt opts lines n).time ∧
          Expires opts (stateAt opts lines m) c k := by
  refine ⟨fun n c k hpc hon => ?_, fun c m n hmn hbusy => ?_, fun n c k hpc => ?_,
    fun n c k hon hfull hleft => exists_expires hcores hrr hq h hon hfull hleft⟩
  · obtain ⟨hx, hle, hdue⟩ := clocked hcores hrr hq h c n k hon
    have hne : (served opts lines c k n : ℤ) ≠ opts.quantum := fun heq => by
      have hd := hdue heq
      rw [hpc] at hd
      exact hd
    exact ⟨_, hx, by omega, by omega⟩
  · rcases units_served hcores hrr h hmn hbusy with h0 | ⟨k, hon, hle⟩
    · rw [h0]
      push_cast
      omega
    · have := (clocked hcores hrr hq h c n k hon).2.1
      omega
  · exact expires_iff hcores hrr hq h hpc

/-- A job of five units and one of three, on one core with a quantum of 2: the quantum expires when the
loop over the quantums is at the core for the third time, and not when it is there for the second time. -/
theorem quantum_bound_two :
    Expires ⟨1, .rr, 2⟩ (stateAt ⟨1, .rr, 2⟩ [⟨0, 5, 1⟩, ⟨1, 3, 1⟩] 24) 0 0 ∧
    ¬ Expires ⟨1, .rr, 2⟩ (stateAt ⟨1, .rr, 2⟩ [⟨0, 5, 1⟩, ⟨1, 3, 1⟩] 14) 0 0 := by
  have hcores : 0 < (⟨1, .rr, 2⟩ : Options).cores := by decide
  have h : Workload [⟨0, 5, 1⟩, ⟨1, 3, 1⟩] := by simp [Workload]
  obtain ⟨-, -, hexpires, -⟩ := quantum_bound hcores rfl (by decide) h
  refine ⟨(hexpires 24 0 0 rfl).mpr ⟨?_, rfl⟩, fun hexp => ?_⟩
  · exact ⟨⟨0, 0, 3, 1, 0, true⟩, List.mem_of_getElem? (i := 0) rfl, rfl, rfl⟩
  · exact absurd ((hexpires 14 0 0 rfl).mp hexp).2 (by decide)

end Runs

end Eecs678.Simulator.Quantum
