import Eecs678.Simulator.Jobs

/-!
# Simulator and scheduler in lockstep

The invariant of the main loop: the arrived jobs of the simulator and the jobs that have a place in
the scheduler are the same table (`Lock`), and each job of the array is where the phase of the loop
says (`Good`). One lemma for each phase shows that a step keeps both and leaves `main` only at the
end (`finish_inv`, `quantum_inv`, `arrive_inv`, `run_inv`).
-/

namespace Eecs678.Simulator.Lockstep

open Eecs678.Lib.Slots Eecs678.Scheduler.Model Eecs678.Scheduler.Places Eecs678.Scheduler.Runs
open Eecs678.Scheduler.Table Eecs678.Simulator.Model Eecs678.Simulator.Jobs

/-- Job `k` has arrived if its arrival time is below this. -/
def cutoff : Pc → ℤ → ℕ → ℤ
  | .arrive i, time, k => if k < i then time + 1 else time
  | .run, time, _ => time + 1
  | _, time, _ => time

theorem cutoff_arrive_zero (time : ℤ) (k : ℕ) : cutoff (.arrive 0) time k = time := by
  rw [cutoff, if_neg (Nat.not_lt_zero k)]

/-- The loop over the arriving jobs moves on: the cutoff changes for job `i` only. -/
theorem cutoff_arrive_succ (time : ℤ) {i k : ℕ} (h : i ≠ k) :
    cutoff (.arrive (i + 1)) time k = cutoff (.arrive i) time k := by
  rw [cutoff, cutoff]
  split_ifs <;> omega

/-- Job `k` may have ended: the loop over the finished jobs has not come to it. -/
def MayBeDone : Pc → ℕ → Prop
  | .top, _ => True
  | .finish i, k => i ≤ k
  | _, _ => False

/-- What the loop knows of the job `j` at index `k`. -/
structure Good (pc : Pc) (time : ℤ) (k : ℕ) (j : SimulatorJob) : Prop where
  id : 0 ≤ j.jobId
  due : j.arrived = true ↔ j.arrivalTime < cutoff pc time k
  idle : j.arrived = false → j.coreId = -1
  left : 0 ≤ j.runTime
  ended : j.runTime = 0 → j.coreId ≠ -1 ∧ MayBeDone pc k

/-- The loop moves on, and the job may be at another index. -/
theorem Good.mono {pc pc' : Pc} {time time' : ℤ} {k k' : ℕ} {j : SimulatorJob}
    (h : Good pc time k j) (hc : cutoff pc' time' k' = cutoff pc time k)
    (hm : j.runTime = 0 → MayBeDone pc k → MayBeDone pc' k') : Good pc' time' k' j :=
  ⟨h.id, by rw [hc]; exact h.due, h.idle, h.left, fun h0 =>
    ⟨(h.ended h0).1, hm h0 (h.ended h0).2⟩⟩

theorem Good.activate {pc : Pc} {time : ℤ} {k : ℕ} {j : SimulatorJob} {r c : ℤ}
    (h : Good pc time k j) (ha : j.jobId = r → j.arrived = true) (hc : c ≠ -1) :
    Good pc time k (activateJob r c j) := by
  unfold activateJob
  split_ifs with hr
  · exact ⟨h.id, h.due, fun hna => absurd (hna.symm.trans (ha hr)) (by simp), h.left,
      fun h0 => ⟨hc, (h.ended h0).2⟩⟩
  · exact h

/-- A job that has not ended can be taken off its core. -/
theorem Good.clear {pc : Pc} {time : ℤ} {k : ℕ} {j : SimulatorJob} (h : Good pc time k j)
    (hm : ¬ MayBeDone pc k) (c : ℤ) : Good pc time k (clearCore c j) := by
  unfold clearCore
  split_ifs
  · exact ⟨h.id, h.due, fun _ => rfl, h.left, fun h0 => absurd (h.ended h0).2 hm⟩
  · exact h

/-- Simulator and scheduler agree on the jobs; `total` jobs were loaded. -/
structure Lock (opts : Options) (total : ℕ) (s : Sim) : Prop where
  wf : Wf s.sched
  slots : s.sched.coreJobPtrs.length = opts.cores
  clock : s.quantumClock.length = opts.cores
  ids : (s.jobs.map SimulatorJob.jobId).Nodup
  table : (jobTable s.jobs).Perm (table s.time s.sched)
  alive : s.jobsAlive = (jobTable s.jobs).length
  count : s.sched.totalJobsFinished + s.jobs.length = total

/-- The invariant of the main loop. -/
structure Inv (opts : Options) (total : ℕ) (s : Sim) : Prop where
  lock : Lock opts total s
  good : ∀ (k : ℕ) (j : SimulatorJob), s.jobs[k]? = some j → Good s.pc s.time k j
  out : ∀ why, s.pc = .stop why → why = .done ∧ s.jobs = []

namespace Inv

variable {opts : Options} {total : ℕ} {s : Sim}

theorem numbers_nodup (h : Inv opts total s) : (numbers s.sched).Nodup := by
  rw [← table_numbers s.time, ← (h.lock.table.map Entry.jobNumber).nodup_iff, jobTable, List.map_map]
  exact h.lock.ids.sublist (List.filter_sublist.map _)

/-- Distinct places have jobs with distinct numbers. -/
theorem place_unique (h : Inv opts total s) {p q : ℕ} (hp : p ∈ places s.sched) (hq : q ∈ places s.sched)
    (he : (s.sched.heap p).jobNumber = (s.sched.heap q).jobNumber) : p = q := by
  have hnd := h.numbers_nodup
  rw [numbers, statics, List.map_map] at hnd
  exact List.inj_on_of_nodup_map hnd hp hq he

theorem good_mem (h : Inv opts total s) {j : SimulatorJob} (hj : j ∈ s.jobs) :
    ∃ k, s.jobs[k]? = some j ∧ Good s.pc s.time k j := by
  obtain ⟨k, hk⟩ := List.mem_iff_getElem?.mp hj
  exact ⟨k, hk, h.good k j hk⟩

theorem idle (h : Inv opts total s) {j : SimulatorJob} (hj : j ∈ s.jobs) (hc : j.coreId ≠ -1) :
    j.arrived = true := by
  obtain ⟨k, -, hg⟩ := h.good_mem hj
  by_contra ha
  exact hc (hg.idle (by simpa using ha))

/-- An arrived job has a place with the same entry. -/
theorem exists_place (h : Inv opts total s) {j : SimulatorJob} (hj : j ∈ s.jobs)
    (ha : j.arrived = true) : ∃ p ∈ places s.sched, entry s.time s.sched p = toEntry j :=
  List.mem_map.mp (h.lock.table.mem_iff.mp (mem_jobTable.mpr ⟨j, hj, ha, rfl⟩))

/-- A place belongs to an arrived job. -/
theorem exists_job (h : Inv opts total s) {p : ℕ} (hp : p ∈ places s.sched) :
    ∃ j ∈ s.jobs, j.arrived = true ∧ toEntry j = entry s.time s.sched p :=
  mem_jobTable.mp (h.lock.table.mem_iff.mpr (List.mem_map.mpr ⟨p, hp, rfl⟩))

theorem range (h : Inv opts total s) {j : SimulatorJob} (hj : j ∈ s.jobs) :
    j.coreId = -1 ∨ 0 ≤ j.coreId ∧ j.coreId < opts.cores := by
  by_cases hc : j.coreId = -1
  · exact Or.inl hc
  · obtain ⟨p, hp, he⟩ := h.exists_place hj (h.idle hj hc)
    have hr := coreId_range h.lock.wf.toHeld hp
    rw [show (s.sched.heap p).coreId = j.coreId from congrArg Entry.coreId he, h.lock.slots] at hr
    exact hr

/-- **The scheduler has on core `c` the job that the simulator has there.** -/
theorem jobOn_core (h : Inv opts total s) {j : SimulatorJob} (hj : j ∈ s.jobs)
    (hc : j.coreId ≠ -1) : ∃ p ∈ places s.sched, jobOn j.coreId s.sched = some p ∧
      entry s.time s.sched p = toEntry j := by
  obtain ⟨p, hp, he⟩ := h.exists_place hj (h.idle hj hc)
  have hid : (s.sched.heap p).coreId = j.coreId := congrArg Entry.coreId he
  have hr := (h.range hj).resolve_left hc
  obtain ⟨c, hjc⟩ : ∃ c : ℕ, j.coreId = c := ⟨j.coreId.toNat, by omega⟩
  have hslot := (coreId_iff h.lock.wf.toHeld hp c).mp (hid.trans hjc)
  refine ⟨p, hp, ?_, he⟩
  rw [jobOn, if_pos hr.1, hjc, Int.toNat_natCast, hslot]
  rfl

/-- No two jobs of the simulator are on one core. -/
theorem apart (h : Inv opts total s) : s.jobs.Pairwise Apart := by
  have hsymm : ∀ a b : Entry, (a.coreId = b.coreId → a.coreId = -1) →
      (b.coreId = a.coreId → b.coreId = -1) := fun a b hab hba => by
    rw [hba]
    exact hab hba.symm
  have htable : (table s.time s.sched).Pairwise fun a b => a.coreId = b.coreId → a.coreId = -1 := by
    rw [table, List.pairwise_map]
    have hnd : (places s.sched).Nodup := h.lock.wf.nodup
    refine hnd.imp_of_mem fun {p q} hp hq hne he => ?_
    by_contra hc
    exact hne (coreId_inj h.lock.wf.toHeld hp hq hc he)
  have hjobs := (h.lock.table.pairwise_iff (fun {a b} => hsymm a b)).mpr htable
  rw [jobTable, List.pairwise_map, List.pairwise_filter] at hjobs
  refine hjobs.imp_of_mem fun {a b} ha hb hab he => ?_
  by_contra hc
  exact hc (hab (h.idle ha hc) (h.idle hb (he ▸ hc)) he)

end Inv

/-! ### The loop over the finished jobs -/

/-- The scheduler's choice can be activated in the simulator. -/
theorem setNewJob_ok {r c : ℤ} {jobs : List SimulatorJob} {rest : List Entry}
    (hnd : (jobs.map SimulatorJob.jobId).Nodup) (hid : ∀ j ∈ jobs, 0 ≤ j.jobId)
    (hrest : (jobTable jobs).Perm rest) {l : List Entry}
    (hr : (r = -1 ∧ l.Perm rest) ∨
      ((∃ e ∈ rest, e.jobNumber = r) ∧ l.Perm (rest.map (Entry.activate r c)))) :
    setNewJob r c jobs = some (jobs.map (activateJob r c)) ∧
      (jobTable (jobs.map (activateJob r c))).Perm l ∧
      ∀ j ∈ jobs, j.jobId = r → j.arrived = true := by
  rw [jobTable_map (activateJob_arrived r c) (toEntry_activateJob r c)]
  rcases hr with ⟨rfl, hl⟩ | ⟨⟨e, he, her⟩, hl⟩
  · have hne : ∀ j ∈ jobs, j.jobId ≠ -1 := fun j hj => by
      have := hid j hj
      omega
    have hid' : (jobTable jobs).map (Entry.activate (-1) c) = (jobTable jobs).map id :=
      List.map_congr_left fun e he => by
        obtain ⟨j, hj, -, rfl⟩ := mem_jobTable.mp he
        exact if_neg (hne j hj)
    rw [map_activateJob_of_ne hne, hid', List.map_id]
    exact ⟨rfl, hrest.trans hl.symm, fun j hj hjr => absurd hjr (hne j hj)⟩
  · obtain ⟨j, hj, ha, hje⟩ := mem_jobTable.mp (hrest.mem_iff.mpr he)
    have hjr : j.jobId = r := (congrArg Entry.jobNumber hje).trans her
    have hr0 := hid j hj
    rw [setNewJob, if_neg (by omega), setActiveJob_eq hnd ⟨j, hj, hjr, ha⟩]
    refine ⟨rfl, (hrest.map _).trans hl.symm, fun j' hj' hjr' => ?_⟩
    rwa [List.inj_on_of_nodup_map hnd hj' hj (hjr'.trans hjr.symm)]

section Steps
variable {opts : Options} {total : ℕ} {s : Sim}

/-- The machine moves on without a change of the jobs. -/
theorem Inv.move (h : Inv opts total s) {pc : Pc}
    (hg : ∀ (k : ℕ) (j : SimulatorJob), s.jobs[k]? = some j → Good pc s.time k j)
    (hs : ∀ why, pc = .stop why → why = .done ∧ s.jobs = []) : Inv opts total { s with pc := pc } := by
  obtain ⟨hwf, hslots, hclock, hids, htable, halive, hcount⟩ := h.lock
  exact ⟨⟨hwf, hslots, hclock, hids, htable, halive, hcount⟩, hg, hs⟩

@[simp] theorem length_resetClock (opts : Options) (c : ℤ) (clock : List ℤ) :
    (resetClock opts c clock).length = clock.length := by
  unfold resetClock
  split_ifs
  · exact List.length_set
  · rfl

theorem finish_end {i : ℕ} (h : Inv opts total s) (hpc : s.pc = .finish i)
    (hi : s.jobs.length ≤ i) {pc : Pc} (hcut : ∀ k, cutoff pc s.time k = s.time) (k : ℕ)
    (j : SimulatorJob) (hk : s.jobs[k]? = some j) : Good pc s.time k j := by
  have hg := h.good k j hk
  rw [hpc] at hg
  refine hg.mono (hcut k) fun _ hle => ?_
  have hle' : i ≤ k := hle
  have := (List.getElem?_eq_some_iff.mp hk).1
  omega

/-- The last job takes the place of the one that is deleted, and it is visited there. -/
theorem finish_good {i : ℕ} (h : Inv opts total s) (hpc : s.pc = .finish i) {j : SimulatorJob}
    (hi : s.jobs[i]? = some j) {k : ℕ} {a : SimulatorJob}
    (ha : (deleteJob i s.jobs)[k]? = some a) : Good (.finish i) s.time k a := by
  rcases (deleteJob_spec hi).2 k a ha with ⟨-, hka⟩ | ⟨hle, k', -, hka⟩
  · have hg := h.good k a hka
    rw [hpc] at hg
    exact hg
  · have hg := h.good k' a hka
    rw [hpc] at hg
    exact hg.mono rfl fun _ _ => hle

/-- **The loop over the finished jobs keeps the invariant.** -/
theorem finish_inv {i : ℕ} (h : Inv opts total s) (hpc : s.pc = .finish i) :
    Inv opts total (finishStep opts i s) := by
  unfold finishStep
  cases hi : s.jobs[i]? with
  | none =>
    have hlen := List.getElem?_eq_none_iff.mp hi
    simp only
    split_ifs with h0 hrr
    · have hnil := List.length_eq_zero_iff.mp h0
      exact h.move (finish_end h hpc hlen fun k => rfl) fun why hw => ⟨by simpa using hw.symm, hnil⟩
    · exact h.move (finish_end h hpc hlen fun k => rfl) (by simp)
    · exact h.move (finish_end h hpc hlen (cutoff_arrive_zero s.time)) (by simp)
  | some j =>
    have hj := List.mem_of_getElem? hi
    have hg := h.good i j hi
    simp only
    split_ifs with h0
    · -- the job is on a core; the scheduler finishes the same job
      have hc := (hg.ended h0).1
      obtain ⟨p, -, hp, he⟩ := h.jobOn_core hj hc
      obtain ⟨r, s', rest, hcall, hwf, hk, hperm, hr⟩ :=
        table_finished h.lock.wf h.numbers_nodup hp j.jobId s.time
      obtain ⟨hdel, -⟩ := deleteJob_spec hi
      have hdelTable := jobTable_perm hdel
      rw [jobTable_cons, if_pos (h.idle hj hc)] at hdelTable
      have hrest : (jobTable (deleteJob i s.jobs)).Perm rest := by
        have h1 := hdelTable.trans (h.lock.table.trans hperm)
        rw [he] at h1
        exact h1.cons_inv
      have hmem : ∀ j' ∈ deleteJob i s.jobs, j' ∈ s.jobs := fun j' hj' =>
        hdel.mem_iff.mp (List.mem_cons_of_mem _ hj')
      have hids : ((deleteJob i s.jobs).map SimulatorJob.jobId).Nodup :=
        (List.nodup_cons.mp ((hdel.map SimulatorJob.jobId).nodup_iff.mpr h.lock.ids)).2
      obtain ⟨hset, htable, harrived⟩ := setNewJob_ok (c := j.coreId) hids
        (fun j' hj' => by
          obtain ⟨_, -, hg'⟩ := h.good_mem (hmem j' hj')
          exact hg'.id) hrest hr
      rw [hcall]
      simp only [hset]
      refine ⟨⟨hwf, hk.length.trans h.lock.slots, by simpa using h.lock.clock, ?_, htable, ?_, ?_⟩,
        fun k j' hk' => ?_, by simp⟩
      · rw [List.map_map]
        simpa [Function.comp_def] using hids
      · have h1 := hdelTable.length_eq
        have h2 := h.lock.alive
        rw [jobTable_map (activateJob_arrived r j.coreId) (toEntry_activateJob r j.coreId),
          List.length_map]
        rw [List.length_cons] at h1
        simp only
        omega
      · have h1 := hdel.length_eq
        have h2 := h.lock.count
        have h3 := finished_count hp hcall
        rw [List.length_cons] at h1
        simp only [List.length_map]
        omega
      · simp only [List.getElem?_map, Option.map_eq_some_iff] at hk'
        obtain ⟨a, ha, rfl⟩ := hk'
        exact (finish_good h hpc hi ha).activate (harrived a (List.mem_of_getElem? ha)) hc
    · refine h.move (fun k j' hk => ?_) (by simp)
      have hg' := h.good k j' hk
      rw [hpc] at hg'
      refine hg'.mono rfl fun h0' hle => ?_
      have hle' : i ≤ k := hle
      have hne : i ≠ k := by
        rintro rfl
        rw [hi, Option.some.injEq] at hk
        exact h0 (hk ▸ h0')
      exact (by omega : i + 1 ≤ k)

/-! ### The loop over the expired quantums -/

/-- **The loop over the expired quantums keeps the invariant.** -/
theorem quantum_inv {i : ℕ} (h : Inv opts total s) (hpc : s.pc = .quantum i) :
    Inv opts total (quantumStep opts i s) := by
  have hgood : ∀ pc, (∀ k, cutoff pc s.time k = s.time) → ∀ (k : ℕ) (j : SimulatorJob),
      s.jobs[k]? = some j → Good pc s.time k j := fun pc hcut k j hk => by
    have hg := h.good k j hk
    rw [hpc] at hg
    exact hg.mono (hcut k) fun _ hm => hm.elim
  have hnext := h.move (hgood (.quantum (i + 1)) fun k => rfl) (by simp)
  unfold quantumStep
  split_ifs with hi h0
  · cases hk : s.jobs.findIdx? (fun j => j.coreId = (i : ℤ)) with
    | none => exact hnext
    | some k =>
      obtain ⟨hlt, hcore, -⟩ := List.findIdx?_eq_some_iff_getElem.mp hk
      have hkj : s.jobs[k]? = some s.jobs[k] := List.getElem?_eq_getElem hlt
      have hj := List.mem_of_getElem? hkj
      have hc : s.jobs[k].coreId = i := by simpa using hcore
      obtain ⟨p, -, hp, he⟩ := h.jobOn_core hj (by omega)
      rw [hc] at hp
      obtain ⟨r, s', hcall, hwf, hkeeps, hr⟩ :=
        table_expired h.lock.wf h.numbers_nodup hp s.time
      have hclear := modify_clearCore (c := i) h.apart (by omega) hkj hc
      have hrest : (jobTable (s.jobs.map (clearCore i))).Perm
          ((table s.time s.sched).map (Entry.vacate i)) := by
        rw [jobTable_map (clearCore_arrived _) (toEntry_clearCore _)]
        exact h.lock.table.map _
      have hids : ((s.jobs.map (clearCore i)).map SimulatorJob.jobId).Nodup := by
        rw [List.map_map]
        simpa [Function.comp_def] using h.lock.ids
      obtain ⟨hset, htable, harrived⟩ := setNewJob_ok (c := i) (r := r)
        (l := table s.time s') hids (fun j' hj' => by
          obtain ⟨a, ha, rfl⟩ := List.mem_map.mp hj'
          obtain ⟨_, -, hga⟩ := h.good_mem ha
          rw [clearCore_jobId]
          exact hga.id) hrest (hr.imp_right fun ⟨⟨e, hmem, hn⟩, hperm⟩ =>
            ⟨⟨e.vacate i, List.mem_map_of_mem hmem, by rw [vacate_jobNumber, hn]⟩, hperm⟩)
      rw [hcall]
      simp only [hclear, hset]
      refine ⟨⟨hwf, hkeeps.length.trans h.lock.slots, by simpa using h.lock.clock, ?_, htable, ?_,
        ?_⟩, fun k' j' hk' => ?_, by simp⟩
      · rw [List.map_map]
        simpa [Function.comp_def] using hids
      · rw [jobTable_map (activateJob_arrived r i) (toEntry_activateJob r i), List.length_map,
          jobTable_map (clearCore_arrived _) (toEntry_clearCore _), List.length_map]
        exact h.lock.alive
      · have h1 := h.lock.count
        have h2 := expired_count hp hcall
        simp only [List.length_map]
        omega
      · simp only [List.getElem?_map, Option.map_eq_some_iff, List.map_map] at hk'
        obtain ⟨a, ha, rfl⟩ := hk'
        have hga := hgood (.quantum (i + 1)) (fun k => rfl) k' a ha
        refine (hga.clear (fun hm => hm) i).activate (harrived _ ?_) (by omega)
        exact List.mem_map_of_mem (List.mem_of_getElem? ha)
  · exact hnext
  · exact h.move (hgood (.arrive 0) (cutoff_arrive_zero s.time)) (by simp)

/-! ### The loop over the arriving jobs -/

/-- The job that arrives is settled, and the others are due as before. -/
theorem arrive_good {i : ℕ} (h : Inv opts total s) (hpc : s.pc = .arrive i) {j : SimulatorJob}
    (hi : s.jobs[i]? = some j) (ht : j.arrivalTime = s.time) {c : ℤ} {k : ℕ} {a : SimulatorJob}
    (hka : ((s.jobs.map (clearCore c)).modify i (settle c))[k]? = some a) :
    Good (.arrive (i + 1)) s.time k a := by
  simp only [List.getElem?_modify, List.getElem?_map] at hka
  cases hb : s.jobs[k]? with
  | none =>
    rw [hb] at hka
    simp at hka
  | some b =>
    rw [hb] at hka
    simp only [Option.map_some, Option.map_eq_map, Option.some.injEq] at hka
    have hgb := h.good k b hb
    rw [hpc] at hgb
    have hgc := hgb.clear (fun hm => hm) c
    split_ifs at hka with hik
    · subst hik
      rw [hi, Option.some.injEq] at hb
      subst hb hka
      refine ⟨hgc.id, ?_, fun hf => absurd hf (by simp [settle]), hgc.left,
        fun h0 => (hgc.ended h0).2.elim⟩
      have harr : (settle c (clearCore c j)).arrivalTime = s.time := by
        unfold settle clearCore
        split_ifs <;> exact ht
      rw [harr, cutoff, if_pos (Nat.lt_succ_self i)]
      exact ⟨fun _ => by omega, fun _ => rfl⟩
    · subst hka
      exact hgc.mono (cutoff_arrive_succ _ hik) fun _ hm => hm.elim

/-- **An arrival keeps the invariant**, whatever becomes of the quantums. -/
theorem arrive_next {i : ℕ} (h : Inv opts total s) (hpc : s.pc = .arrive i) {j : SimulatorJob}
    (hi : s.jobs[i]? = some j) (ht : j.arrivalTime = s.time) (hna : j.arrived = false) {c : ℤ}
    {sched : Sched}
    (hcall : schedulerNewJob j.jobId s.time j.runTime j.priority s.sched = (c, sched))
    {clock : List ℤ} (hclock : clock.length = s.quantumClock.length) :
    Inv opts total { s with
      pc := .arrive (i + 1)
      sched := sched
      jobs := (s.jobs.map (clearCore c)).modify i (settle c)
      jobsAlive := s.jobsAlive + 1
      quantumClock := clock } := by
  obtain ⟨hperm, -⟩ := table_newJob h.lock.wf j.jobId s.time j.runTime j.priority
  have hk := newJob_keeps h.lock.wf j.jobId s.time j.runTime j.priority
  have hwf := (newJob_spec h.lock.wf j.jobId s.time j.runTime j.priority).1
  have hcount := newJob_count j.jobId s.time j.runTime j.priority s.sched
  rw [hcall] at hperm hk hwf hcount
  simp only at hperm hk hwf hcount
  have hic : (s.jobs.map (clearCore c))[i]? = some (clearCore c j) := by
    rw [List.getElem?_map, hi, Option.map_some]
  have htable := jobTable_arrive (f := settle c) hic (by simpa using hna) rfl
  rw [jobTable_map (clearCore_arrived _) (toEntry_clearCore _)] at htable
  have hentry : toEntry (settle c (clearCore c j)) = ⟨j.jobId, j.runTime, c⟩ := by
    unfold settle clearCore toEntry
    split_ifs <;> rfl
  rw [hentry] at htable
  refine ⟨⟨hwf, hk.length.trans h.lock.slots, hclock.trans h.lock.clock, ?_,
    htable.trans (((h.lock.table.map _).cons _).trans hperm.symm), ?_, ?_⟩,
    fun k a hka => arrive_good h hpc hi ht hka, by simp⟩
  · simp only [jobIds_settle]
    exact h.lock.ids
  · have h1 := htable.length_eq
    have h2 := h.lock.alive
    rw [List.length_cons, List.length_map] at h1
    simp only
    omega
  · have h1 := h.lock.count
    simp only [List.length_modify, List.length_map]
    omega

/-- **The loop over the arriving jobs keeps the invariant.** -/
theorem arrive_inv {i : ℕ} (h : Inv opts total s) (hpc : s.pc = .arrive i) :
    Inv opts total (arriveStep opts i s) := by
  unfold arriveStep
  cases hi : s.jobs[i]? with
  | none =>
    have hlen := List.getElem?_eq_none_iff.mp hi
    refine h.move (fun k j hk => ?_) (by simp)
    have hg := h.good k j hk
    rw [hpc] at hg
    have hlt : k < i := (List.getElem?_eq_some_iff.mp hk).1.trans_le hlen
    exact hg.mono (if_pos hlt).symm fun _ hm => hm.elim
  | some j =>
    have hg := h.good i j hi
    rw [hpc] at hg
    simp only
    by_cases ht : j.arrivalTime = s.time
    · rw [if_pos ht]
      -- the job has not arrived before, so it is on no core
      have hna : j.arrived = false := by
        have hdue := hg.due
        rw [cutoff, if_neg (lt_irrefl i), ht] at hdue
        simpa using hdue
      obtain ⟨-, hrange⟩ := table_newJob h.lock.wf j.jobId s.time j.runTime j.priority
      obtain ⟨⟨c, sched⟩, hcall⟩ : ∃ r, schedulerNewJob j.jobId s.time j.runTime j.priority
        s.sched = r := ⟨_, rfl⟩
      rw [hcall] at hrange ⊢
      have hnext := fun (clock : List ℤ) (hl : clock.length = s.quantumClock.length) =>
        arrive_next h hpc hi ht hna hcall hl
      simp only at hrange ⊢
      split_ifs with hc hneg
      · rw [arrive_onCore]
        exact hnext _ (length_resetClock ..)
      · rw [hneg] at hnext
        rw [arrive_waits hi (hg.idle hna)]
        exact hnext _ rfl
      · have hslots := h.lock.slots
        omega
    · rw [if_neg ht]
      refine h.move (fun k j' hk => ?_) (by simp)
      have hg' := h.good k j' hk
      rw [hpc] at hg'
      by_cases hik : i = k
      · subst hik
        rw [hi, Option.some.injEq] at hk
        subst hk
        refine ⟨hg'.id, ?_, hg'.idle, hg'.left, fun h0 => (hg'.ended h0).2.elim⟩
        have hdue := hg'.due
        rw [cutoff, if_neg (lt_irrefl i)] at hdue
        rw [hdue, cutoff, if_pos (Nat.lt_succ_self i)]
        omega
      · exact hg'.mono (cutoff_arrive_succ _ hik) fun _ hm => hm.elim

/-! ### The run phase -/

/-- **A job that needs the processor gets one**: if a job is alive, some job runs. -/
theorem Inv.exists_running (h : Inv opts total s) (hcores : 0 < opts.cores) {p : ℕ}
    (hp : p ∈ places s.sched) : ∃ j ∈ s.jobs, j.coreId ≠ -1 := by
  have hslot : ∃ (c q : ℕ), s.sched.coreJobPtrs[c]? = some (some q) := by
    by_cases hn : none ∈ s.sched.coreJobPtrs
    · rcases List.mem_append.mp hp with hp | hp
      · obtain ⟨c, hc⟩ := exists_slot hp
        exact ⟨c, p, hc⟩
      · rw [h.lock.wf.busy hn] at hp
        simp at hp
    · have hlt : 0 < s.sched.coreJobPtrs.length := h.lock.slots ▸ hcores
      cases h0 : s.sched.coreJobPtrs[0] with
      | none => exact absurd (h0 ▸ List.getElem_mem hlt) hn
      | some q => exact ⟨0, q, by rw [List.getElem?_eq_getElem hlt, h0]⟩
  obtain ⟨c, q, hc⟩ := hslot
  obtain ⟨j, hj, -, he⟩ := h.exists_job (mem_places_slot hc)
  have hid : j.coreId = (s.sched.heap q).coreId := congrArg Entry.coreId he
  rw [h.lock.wf.core_id c q hc] at hid
  exact ⟨j, hj, by omega⟩

/-- What the run phase computes. -/
theorem run_ok (h : Inv opts total s) : ∃ clock strings,
    runJobs s.jobs s.quantumClock (List.replicate opts.cores "") 0 =
      .ok ⟨s.jobs.map runJob, clock, strings, (s.jobs.filter fun j => j.coreId ≠ -1).length⟩ ∧
    clock.length = s.quantumClock.length := by
  have hrange : ∀ j ∈ s.jobs, j.coreId = -1 ∨ 0 ≤ j.coreId ∧ j.coreId < s.quantumClock.length :=
    fun j hj => h.lock.clock ▸ h.range hj
  have hlength : (List.replicate opts.cores "").length = s.quantumClock.length := by
    rw [List.length_replicate, h.lock.clock]
  obtain ⟨clock, strings, hrun, hlen⟩ := runJobs_ok 0 h.apart hrange hlength fun j hj hc => by
    have hr := (h.range hj).resolve_left hc
    rw [List.getElem?_replicate, if_pos (by omega)]
  rw [Nat.zero_add] at hrun
  exact ⟨clock, strings, hrun, hlen⟩

/-- **The run phase keeps the invariant.** -/
theorem run_inv (h : Inv opts total s) (hcores : 0 < opts.cores) (hpc : s.pc = .run) :
    Inv opts total (runStep opts s) := by
  obtain ⟨clock, strings, hrun, hlen⟩ := run_ok h
  unfold runStep
  rw [hrun]
  simp only
  split_ifs with hidle
  · obtain ⟨halive, hwork⟩ := hidle
    have hpos : 0 < (table s.time s.sched).length := by
      rw [← h.lock.table.length_eq]
      have := h.lock.alive
      omega
    obtain ⟨p, hp⟩ := List.exists_mem_of_length_pos (by simpa [table] using hpos)
    obtain ⟨j, hj, hc⟩ := h.exists_running hcores hp
    have hmem : j ∈ s.jobs.filter fun j => j.coreId ≠ -1 := List.mem_filter.mpr ⟨hj, by simpa⟩
    rw [List.length_eq_zero_iff.mp hwork] at hmem
    simp at hmem
  · refine ⟨⟨h.lock.wf, h.lock.slots, hlen.trans h.lock.clock, ?_, ?_, ?_, ?_⟩, fun k a hka => ?_,
      by simp⟩
    · rw [jobIds_runJob]
      exact h.lock.ids
    · rw [jobTable_map runJob_arrived toEntry_runJob, table_tick h.lock.wf.toHeld]
      exact h.lock.table.map _
    · rw [jobTable_map runJob_arrived toEntry_runJob, List.length_map]
      exact h.lock.alive
    · rw [List.length_map]
      exact h.lock.count
    · rw [List.getElem?_map, Option.map_eq_some_iff] at hka
      obtain ⟨j, hj, rfl⟩ := hka
      have hg := h.good k j hj
      rw [hpc] at hg
      have hleft : j.runTime ≠ 0 := fun h0 => (hg.ended h0).2
      have h1 := hg.left
      unfold runJob
      split_ifs with hc
      · exact ⟨hg.id, hg.due, hg.idle, hg.left, fun h0 => absurd h0 hleft⟩
      · exact ⟨hg.id, hg.due, fun hna => absurd (hg.idle hna) hc, by simp only; omega,
          fun _ => ⟨hc, trivial⟩⟩

/-! ### The main loop -/

/-- **Every iteration keeps the invariant.** -/
theorem step_inv (h : Inv opts total s) (hcores : 0 < opts.cores) :
    Inv opts total (step opts s) := by
  unfold step
  cases hpc : s.pc with
  | top =>
    simp only
    split_ifs with hlen
    · refine h.move (fun k j hk => ?_) (by simp)
      have hg := h.good k j hk
      rw [hpc] at hg
      exact hg.mono rfl fun _ _ => Nat.zero_le k
    · have hnil := List.length_eq_zero_iff.mp (Nat.eq_zero_of_not_pos hlen)
      refine h.move (fun k j hk => ?_) fun why hw => ⟨by simpa using hw.symm, hnil⟩
      rw [hnil] at hk
      simp at hk
  | finish i => exact finish_inv h hpc
  | quantum i => exact quantum_inv h hpc
  | arrive i => exact arrive_inv h hpc
  | run => exact run_inv h hcores hpc
  | stop why => exact h

end Steps

/-- The workloads of the simulator: every job runs for at least one unit, from time 0 on. -/
def Workload (lines : List Line) : Prop := ∀ l ∈ lines, 1 ≤ l.runTime ∧ 0 ≤ l.arrivalTime

/-- The ids of a workload. -/
theorem ids_nodup (n : ℕ) : ((List.range n).map fun k : ℕ => (k : ℤ)).Nodup :=
  List.nodup_range.map fun a b hab => by simpa using hab

theorem start_inv (opts : Options) {lines : List Line} (h : Workload lines) :
    Inv opts lines.length (start opts lines) := by
  have hjobs : ∀ (k : ℕ) (j : SimulatorJob), (load lines)[k]? = some j → ∃ l ∈ lines,
      j = ⟨k, l.arrivalTime, l.runTime, l.priority, -1, false⟩ := fun k j hk => by
    rw [load, List.getElem?_mapIdx, Option.map_eq_some_iff] at hk
    obtain ⟨l, hl, rfl⟩ := hk
    exact ⟨l, List.mem_of_getElem? hl, rfl⟩
  have hnone : jobTable (load lines) = [] := by
    rw [jobTable, List.map_eq_nil_iff, List.filter_eq_nil_iff]
    intro j hj
    obtain ⟨k, hk⟩ := List.mem_iff_getElem?.mp hj
    obtain ⟨l, -, rfl⟩ := hjobs k j hk
    simp
  refine ⟨⟨wf_startUp _ _, by simp [start, schedulerStartUp], by simp [start], ?_, ?_, ?_, ?_⟩,
    fun k j hk => ?_, by simp [start]⟩
  · have hids : (load lines).map SimulatorJob.jobId =
        (List.range lines.length).map fun k : ℕ => (k : ℤ) := by
      refine List.ext_getElem (by simp [load]) fun k h1 h2 => ?_
      simp [load]
    simp only [start]
    rw [hids]
    exact ids_nodup lines.length
  · simp only [start, hnone]
    simp [table, places, schedulerStartUp, List.reduceOption_replicate_none]
  · simp [start, hnone]
  · simp [start, load, schedulerStartUp]
  · obtain ⟨l, hl, rfl⟩ := hjobs k j hk
    obtain ⟨hrun, harr⟩ := h l hl
    have hcut : cutoff (start opts lines).pc (start opts lines).time k = 0 := rfl
    refine ⟨by simp only; omega, ?_, fun _ => rfl, by simp only; omega, fun h0 => ?_⟩
    · rw [hcut]
      simp only [Bool.false_eq_true, false_iff]
      omega
    · simp only at h0
      omega

/-- **The invariant holds in every state of the main loop.** -/
theorem stateAt_inv {opts : Options} {lines : List Line} (hcores : 0 < opts.cores)
    (h : Workload lines) (n : ℕ) : Inv opts lines.length (stateAt opts lines n) := by
  induction n with
  | zero => exact start_inv opts h
  | succ n ih =>
    rw [stateAt, Function.iterate_succ_apply']
    exact step_inv ih hcores

end Eecs678.Simulator.Lockstep
