import Eecs678.Simulator.Model
import Eecs678.Scheduler.Table

/-!
# The job array

What the loops of `main` over the job array do, in terms of the table of the arrived jobs (`arrivals`
of entries, `jobTable`): activating a job, deleting a job, taking the jobs off a core and running a
time unit.
-/

namespace Eecs678.Simulator.Jobs

open Eecs678.Scheduler.Model Eecs678.Scheduler.Table Eecs678.Simulator.Model

/-- The entry of a job of the simulator. -/
def toEntry (j : SimulatorJob) : Entry := ⟨j.jobId, j.runTime, j.coreId⟩

/-- The jobs that arrived and did not finish. -/
def jobTable (jobs : List SimulatorJob) : List Entry := (jobs.filter (·.arrived)).map toEntry

theorem mem_jobTable {jobs : List SimulatorJob} {e : Entry} :
    e ∈ jobTable jobs ↔ ∃ j ∈ jobs, j.arrived = true ∧ toEntry j = e := by
  simp only [jobTable, List.mem_map, List.mem_filter]
  exact ⟨fun ⟨j, ⟨h1, h2⟩, h3⟩ => ⟨j, h1, h2, h3⟩, fun ⟨j, h1, h2, h3⟩ => ⟨j, ⟨h1, h2⟩, h3⟩⟩

theorem jobTable_perm {jobs jobs' : List SimulatorJob} (h : jobs.Perm jobs') :
    (jobTable jobs).Perm (jobTable jobs') := (h.filter _).map _

theorem jobTable_cons (j : SimulatorJob) (jobs : List SimulatorJob) :
    jobTable (j :: jobs) = if j.arrived then toEntry j :: jobTable jobs else jobTable jobs := by
  unfold jobTable
  cases h : j.arrived <;> simp [h]

/-- A change of each job that an entry can follow. -/
theorem jobTable_map {f : SimulatorJob → SimulatorJob} {g : Entry → Entry}
    (ha : ∀ j, (f j).arrived = j.arrived) (hg : ∀ j, toEntry (f j) = g (toEntry j)) :
    ∀ jobs : List SimulatorJob, jobTable (jobs.map f) = (jobTable jobs).map g
  | [] => rfl
  | j :: jobs => by
    rw [List.map_cons, jobTable_cons, jobTable_cons, ha, hg, jobTable_map ha hg jobs]
    split_ifs <;> rfl

/-- An index splits a list. -/
theorem split_at {α : Type} {l : List α} {i : ℕ} {a : α} (h : l[i]? = some a) :
    ∃ l₁ l₂, l = l₁ ++ a :: l₂ ∧ l₁.length = i := by
  obtain ⟨hi, rfl⟩ := List.getElem?_eq_some_iff.mp h
  refine ⟨l.take i, l.drop (i + 1), ?_, by rw [List.length_take]; omega⟩
  rw [← List.drop_eq_getElem_cons, List.take_append_drop]

/-! ### `set_active_job` -/

/-- Job `n` is set to run on core `c`. -/
def activateJob (n c : ℤ) (j : SimulatorJob) : SimulatorJob :=
  if j.jobId = n then { j with coreId := c } else j

@[simp] theorem activateJob_arrived (n c : ℤ) (j : SimulatorJob) :
    (activateJob n c j).arrived = j.arrived := by
  unfold activateJob
  split_ifs <;> rfl

@[simp] theorem activateJob_jobId (n c : ℤ) (j : SimulatorJob) :
    (activateJob n c j).jobId = j.jobId := by
  unfold activateJob
  split_ifs <;> rfl

@[simp] theorem activateJob_runTime (n c : ℤ) (j : SimulatorJob) :
    (activateJob n c j).runTime = j.runTime := by
  unfold activateJob
  split_ifs <;> rfl

theorem toEntry_activateJob (n c : ℤ) (j : SimulatorJob) :
    toEntry (activateJob n c j) = (toEntry j).activate n c := by
  unfold activateJob Entry.activate
  by_cases h : j.jobId = n
  · rw [if_pos h, if_pos (show (toEntry j).jobNumber = n from h)]
    rfl
  · rw [if_neg h, if_neg (show (toEntry j).jobNumber ≠ n from h)]

theorem map_activateJob_of_ne {n c : ℤ} {jobs : List SimulatorJob} (h : ∀ j ∈ jobs, j.jobId ≠ n) :
    jobs.map (activateJob n c) = jobs := by
  have hid : jobs.map (activateJob n c) = jobs.map id :=
    List.map_congr_left fun j hj => if_neg (h j hj)
  rw [hid, List.map_id]

/-- **`set_active_job` finds the job** if it arrived and the job ids are distinct. -/
theorem setActiveJob_eq {n c : ℤ} : ∀ {jobs : List SimulatorJob},
    (jobs.map SimulatorJob.jobId).Nodup → (∃ j ∈ jobs, j.jobId = n ∧ j.arrived = true) →
      setActiveJob n c jobs = some (jobs.map (activateJob n c))
  | [], _, ⟨j, hj, _⟩ => by simp at hj
  | a :: jobs, hnd, ⟨j, hj, hn, ha⟩ => by
    obtain ⟨hna, hnd'⟩ := List.nodup_cons.mp hnd
    have hother : a.jobId = n → ∀ j ∈ jobs, j.jobId ≠ n := fun he j hj hjn =>
      hna (List.mem_map.mpr ⟨j, hj, hjn.trans he.symm⟩)
    unfold setActiveJob
    by_cases h : a.jobId = n ∧ a.arrived = true
    · rw [if_pos h, List.map_cons, map_activateJob_of_ne (hother h.1), activateJob, if_pos h.1]
    · have hj' : j ∈ jobs := by
        rcases List.mem_cons.mp hj with rfl | hj
        · exact absurd ⟨hn, ha⟩ h
        · exact hj
      have han : a.jobId ≠ n := fun he => hother he j hj' hn
      rw [if_neg h, setActiveJob_eq hnd' ⟨j, hj', hn, ha⟩, List.map_cons, activateJob, if_neg han]
      rfl

/-! ### Deleting a job -/

theorem deleteJob_append {i : ℕ} {init : List SimulatorJob} (hi : i ≤ init.length)
    (last : SimulatorJob) :
    deleteJob i (init ++ [last]) = if i = init.length then init else init.set i last := by
  unfold deleteJob
  rw [List.getLast?_append_cons]
  simp only [List.getLast?_singleton, List.length_append, List.length_singleton,
    Nat.add_sub_cancel]
  by_cases h : i = init.length
  · simp [h]
  · rw [if_pos h, if_neg h, List.set_append_left _ _ (by omega), List.dropLast_concat]

/-- **Deleting removes one job**, and keeps the places before it. -/
theorem deleteJob_spec {i : ℕ} {jobs : List SimulatorJob} {j : SimulatorJob}
    (h : jobs[i]? = some j) :
    (j :: deleteJob i jobs).Perm jobs ∧
      ∀ (k : ℕ) (j' : SimulatorJob), (deleteJob i jobs)[k]? = some j' →
        (k < i ∧ jobs[k]? = some j') ∨ (i ≤ k ∧ ∃ k', i ≤ k' ∧ jobs[k']? = some j') := by
  obtain ⟨init, last, rfl⟩ : ∃ init last, jobs = init ++ [last] := by
    rcases List.eq_nil_or_concat jobs with rfl | ⟨init, last, rfl⟩
    · simp at h
    · exact ⟨init, last, List.concat_eq_append ..⟩
  have hi : i ≤ init.length := by
    have := (List.getElem?_eq_some_iff.mp h).1
    rw [List.length_append, List.length_singleton] at this
    omega
  have hlast : (init ++ [last])[init.length]? = some last := by simp
  have hinit : ∀ {k : ℕ} {j' : SimulatorJob}, init[k]? = some j' →
      (init ++ [last])[k]? = some j' := fun hk => by
    rwa [List.getElem?_append_left (List.getElem?_eq_some_iff.mp hk).1]
  rw [deleteJob_append hi]
  split_ifs with hil
  · rw [hil, hlast, Option.some.injEq] at h
    subst h
    refine ⟨(List.perm_append_singleton _ _).symm, fun k j' hk => Or.inl ⟨?_, hinit hk⟩⟩
    exact hil ▸ (List.getElem?_eq_some_iff.mp hk).1
  · rw [List.getElem?_append_left (by omega)] at h
    obtain ⟨l₁, l₂, rfl, rfl⟩ := split_at h
    refine ⟨?_, fun k j' hk => ?_⟩
    · -- the last job takes the place of the deleted one
      rw [List.set_append_right _ _ (le_refl _), Nat.sub_self, List.set_cons_zero,
        List.append_assoc, List.cons_append]
      refine List.perm_middle.symm.trans (List.Perm.append_left _ (List.Perm.cons _ ?_))
      exact (List.perm_append_singleton _ _).symm
    · by_cases hk' : l₁.length = k
      · subst hk'
        rw [List.getElem?_set_self (by simp)] at hk
        exact Or.inr ⟨le_refl _, _, hi, hlast.trans hk⟩
      · rw [List.getElem?_set_ne hk'] at hk
        rcases Nat.lt_or_ge k l₁.length with hlt | hge
        · exact Or.inl ⟨hlt, hinit hk⟩
        · exact Or.inr ⟨hge, k, hge, hinit hk⟩

/-! ### Changing one job -/

theorem modify_append {α : Type} (f : α → α) (l₁ : List α) (a : α) (l₂ : List α) :
    (l₁ ++ a :: l₂).modify l₁.length f = l₁ ++ f a :: l₂ := by
  rw [List.modify_eq_set_getElem?]
  simp

/-- **A job arrives**: the table has an entry more. -/
theorem jobTable_arrive {i : ℕ} {jobs : List SimulatorJob} {j : SimulatorJob}
    {f : SimulatorJob → SimulatorJob} (h : jobs[i]? = some j) (ha : j.arrived = false)
    (hf : (f j).arrived = true) :
    (jobTable (jobs.modify i f)).Perm (toEntry (f j) :: jobTable jobs) := by
  obtain ⟨l₁, l₂, rfl, rfl⟩ := split_at h
  rw [modify_append]
  have hmiddle : ∀ a : SimulatorJob, (jobTable (l₁ ++ a :: l₂)).Perm (jobTable (a :: (l₁ ++ l₂))) :=
    fun a => jobTable_perm List.perm_middle
  have h1 := hmiddle (f j)
  have h2 := hmiddle j
  rw [jobTable_cons, if_pos hf] at h1
  rw [jobTable_cons, if_neg (by rw [ha]; simp)] at h2
  exact h1.trans (h2.symm.cons _)

/-! ### Cores -/

/-- Two jobs are not on one core. -/
def Apart (a b : SimulatorJob) : Prop := a.coreId = b.coreId → a.coreId = -1

theorem toEntry_clearCore (c : ℤ) (j : SimulatorJob) :
    toEntry (clearCore c j) = (toEntry j).vacate c := by
  unfold clearCore Entry.vacate
  by_cases h : j.coreId = c
  · rw [if_pos h, if_pos (show (toEntry j).coreId = c from h)]
    rfl
  · rw [if_neg h, if_neg (show (toEntry j).coreId ≠ c from h)]

@[simp] theorem clearCore_arrived (c : ℤ) (j : SimulatorJob) :
    (clearCore c j).arrived = j.arrived := by
  unfold clearCore
  split_ifs <;> rfl

@[simp] theorem clearCore_jobId (c : ℤ) (j : SimulatorJob) :
    (clearCore c j).jobId = j.jobId := by
  unfold clearCore
  split_ifs <;> rfl

@[simp] theorem clearCore_runTime (c : ℤ) (j : SimulatorJob) :
    (clearCore c j).runTime = j.runTime := by
  unfold clearCore
  split_ifs <;> rfl

/-- Taking the one job off its core is taking all jobs off it. -/
theorem modify_clearCore {c : ℤ} : ∀ {jobs : List SimulatorJob} {k : ℕ} {j : SimulatorJob},
    jobs.Pairwise Apart → c ≠ -1 → jobs[k]? = some j → j.coreId = c →
      jobs.modify k (fun j => { j with coreId := -1 }) = jobs.map (clearCore c)
  | [], k, j, _, _, h, _ => by simp at h
  | a :: jobs, 0, j, hp, hc, h, hj => by
    simp only [List.getElem?_cons_zero, Option.some.injEq] at h
    subst h
    have hother : jobs.map (clearCore c) = jobs.map id := List.map_congr_left fun b hb =>
      if_neg fun hbc => hc (hj ▸ (List.pairwise_cons.mp hp).1 b hb (hj.trans hbc.symm))
    rw [List.map_cons, hother, List.map_id, clearCore, if_pos hj]
    rfl
  | a :: jobs, k + 1, j, hp, hc, h, hj => by
    simp only [List.getElem?_cons_succ] at h
    obtain ⟨ha, hp'⟩ := List.pairwise_cons.mp hp
    have hac : a.coreId ≠ c := fun hac => by
      have := ha j (List.mem_of_getElem? h) (hac.trans hj.symm)
      exact hc (hac ▸ this)
    rw [List.map_cons, clearCore, if_neg hac, ← modify_clearCore hp' hc h hj]
    rfl

/-- The arriving job is set to run on core `c`, or to wait. -/
def settle (c : ℤ) (j : SimulatorJob) : SimulatorJob := { j with arrived := true, coreId := c }

/-- What the arrival of job `i` does to the array when it gets core `c`. -/
theorem arrive_onCore (c : ℤ) (i : ℕ) (jobs : List SimulatorJob) :
    ((jobs.modify i fun j => { j with arrived := true }).map (clearCore c)).modify i
      (fun j => { j with coreId := c }) = (jobs.map (clearCore c)).modify i (settle c) := by
  cases hi : jobs[i]? with
  | none =>
    have hlen := List.getElem?_eq_none_iff.mp hi
    rw [List.modify_eq_self hlen, List.modify_eq_self (by simpa using hlen),
      List.modify_eq_self (by simpa using hlen)]
  | some j =>
    obtain ⟨l₁, l₂, rfl, rfl⟩ := split_at hi
    have hset : { clearCore c { j with arrived := true } with coreId := c } =
        settle c (clearCore c j) := by
      unfold clearCore settle
      split_ifs <;> rfl
    have hmap : ∀ a : SimulatorJob, (l₁ ++ a :: l₂).map (clearCore c) =
        l₁.map (clearCore c) ++ clearCore c a :: l₂.map (clearCore c) := fun a => by simp
    have hlen : l₁.length = (l₁.map (clearCore c)).length := (List.length_map ..).symm
    rw [modify_append, hmap, hmap, hlen, modify_append, modify_append, hset]

theorem jobIds_settle (c : ℤ) (i : ℕ) (jobs : List SimulatorJob) :
    ((jobs.map (clearCore c)).modify i (settle c)).map SimulatorJob.jobId =
      jobs.map SimulatorJob.jobId := by
  refine List.ext_getElem? fun k => ?_
  simp only [List.getElem?_map, List.getElem?_modify]
  cases jobs[k]? with
  | none => rfl
  | some j => by_cases h : i = k <;> simp [h, settle]

@[simp] theorem clearCore_neg (j : SimulatorJob) : clearCore (-1) j = j := by
  unfold clearCore
  split_ifs with h
  · rw [← h]
  · rfl

/-- What the arrival of job `i` does to the array when it waits. -/
theorem arrive_waits {i : ℕ} {jobs : List SimulatorJob} {j : SimulatorJob} (h : jobs[i]? = some j)
    (hc : j.coreId = -1) : jobs.modify i (fun j => { j with arrived := true }) =
      (jobs.map (clearCore (-1))).modify i (settle (-1)) := by
  have hid : jobs.map (clearCore (-1)) = jobs.map id :=
    List.map_congr_left fun a _ => clearCore_neg a
  obtain ⟨l₁, l₂, rfl, rfl⟩ := split_at h
  rw [hid, List.map_id, modify_append, modify_append, settle, ← hc]

/-- A time unit of a job. -/
def runJob (j : SimulatorJob) : SimulatorJob :=
  if j.coreId = -1 then j else { j with runTime := j.runTime - 1 }

theorem toEntry_runJob (j : SimulatorJob) : toEntry (runJob j) = (toEntry j).tick := by
  unfold runJob Entry.tick
  by_cases h : j.coreId = -1
  · rw [if_pos h, if_pos (show (toEntry j).coreId = -1 from h)]
  · rw [if_neg h, if_neg (show (toEntry j).coreId ≠ -1 from h)]
    rfl

@[simp] theorem runJob_arrived (j : SimulatorJob) : (runJob j).arrived = j.arrived := by
  unfold runJob
  split_ifs <;> rfl

@[simp] theorem runJob_jobId (j : SimulatorJob) : (runJob j).jobId = j.jobId := by
  unfold runJob
  split_ifs <;> rfl

theorem jobIds_runJob (jobs : List SimulatorJob) :
    (jobs.map runJob).map SimulatorJob.jobId = jobs.map SimulatorJob.jobId := by
  rw [List.map_map]
  exact List.map_congr_left fun j _ => runJob_jobId j

/-- **The loop of the run phase** runs the jobs that are on a core. -/
theorem runJobs_ok : ∀ {jobs : List SimulatorJob} {clock : List ℤ} {strings : List String}
    (working : ℕ), jobs.Pairwise Apart →
      (∀ j ∈ jobs, j.coreId = -1 ∨ 0 ≤ j.coreId ∧ j.coreId < clock.length) →
        strings.length = clock.length →
          (∀ j ∈ jobs, j.coreId ≠ -1 → strings[j.coreId.toNat]? = some "") →
            ∃ clock' strings', runJobs jobs clock strings working =
              .ok ⟨jobs.map runJob, clock', strings',
                working + (jobs.filter fun j => j.coreId ≠ -1).length⟩ ∧
              clock'.length = clock.length
  | [], clock, strings, working, _, _, _, _ => ⟨clock, strings, rfl, rfl⟩
  | j :: jobs, clock, strings, working, hp, hr, hl, he => by
    obtain ⟨hj, hp'⟩ := List.pairwise_cons.mp hp
    have hr' : ∀ j ∈ jobs, j.coreId = -1 ∨ 0 ≤ j.coreId ∧ j.coreId < clock.length :=
      fun j hj => hr j (List.mem_cons_of_mem _ hj)
    unfold runJobs
    by_cases hc : j.coreId = -1
    · obtain ⟨clock', strings', hrun, hlen⟩ := runJobs_ok working hp' hr' hl
        fun j hj => he j (List.mem_cons_of_mem _ hj)
      rw [if_pos hc, hrun]
      refine ⟨clock', strings', ?_, hlen⟩
      simp [Except.map, runJob, hc]
    · have hrange : 0 ≤ j.coreId ∧ j.coreId < clock.length :=
        (hr j (List.mem_cons_self ..)).resolve_left hc
      have hstr := he j (List.mem_cons_self ..) hc
      obtain ⟨k, hclock⟩ : ∃ k, clock[j.coreId.toNat]? = some k :=
        ⟨_, List.getElem?_eq_getElem (by omega)⟩
      have hfree : ∀ j' ∈ jobs, j'.coreId ≠ -1 →
          (strings.set j.coreId.toNat (timeString j.jobId))[j'.coreId.toNat]? = some "" :=
        fun j' hj' hc' => by
          have hrange' : 0 ≤ j'.coreId ∧ j'.coreId < clock.length := (hr' j' hj').resolve_left hc'
          have hne : j.coreId.toNat ≠ j'.coreId.toNat := fun heq => hc (hj j' hj' (by omega))
          rw [List.getElem?_set_ne hne]
          exact he j' (List.mem_cons_of_mem _ hj') hc'
      have hlens : (strings.set j.coreId.toNat (timeString j.jobId)).length =
          (clock.set j.coreId.toNat (k - 1)).length := by simpa using hl
      obtain ⟨clock', strings', hrun, hlen⟩ :=
        runJobs_ok (working + 1) hp' (by simpa using hr') hlens hfree
      rw [if_neg hc, if_neg (by omega), hclock, hstr]
      simp only [ne_eq, not_true_eq_false, if_false, hrun]
      refine ⟨clock', strings', ?_, by simpa using hlen⟩
      simp [Except.map, runJob, hc]
      omega

/-- **One job in the loop of the run phase**, if the loop comes to its end. -/
theorem runJobs_cons {j : SimulatorJob} {jobs : List SimulatorJob} {clock : List ℤ}
    {strings : List String} {working : ℕ} {u : RunPhase}
    (h : runJobs (j :: jobs) clock strings working = .ok u) : ∃ v : RunPhase,
      u = { v with jobs := runJob j :: v.jobs } ∧
      ((j.coreId = -1 ∧ runJobs jobs clock strings working = .ok v) ∨
        ∃ k, 0 ≤ j.coreId ∧ clock[j.coreId.toNat]? = some k ∧ strings[j.coreId.toNat]? = some "" ∧
          runJobs jobs (clock.set j.coreId.toNat (k - 1))
            (strings.set j.coreId.toNat (timeString j.jobId)) (working + 1) = .ok v) := by
  have hmap : ∀ {f : RunPhase → RunPhase} {x : Except Stop RunPhase}, x.map f = .ok u →
      ∃ v, x = .ok v ∧ f v = u := fun {f x} hx => by
    cases x with
    | error why => cases hx
    | ok v =>
      cases hx
      exact ⟨v, rfl, rfl⟩
  unfold runJobs at h
  by_cases hc : j.coreId = -1
  · rw [if_pos hc] at h
    obtain ⟨v, hv, rfl⟩ := hmap h
    exact ⟨v, by rw [runJob, if_pos hc], Or.inl ⟨hc, hv⟩⟩
  · rw [if_neg hc] at h
    split_ifs at h with hneg
    split at h
    case h_1 k str hk hstr =>
      split_ifs at h with hne
      obtain ⟨v, hv, rfl⟩ := hmap h
      refine ⟨v, by rw [runJob, if_neg hc], Or.inr ⟨k, not_lt.mp hneg, hk, ?_, hv⟩⟩
      rw [hstr, not_not.mp hne]
    case h_2 => cases h

theorem runJobs_jobs : ∀ {jobs : List SimulatorJob} {clock : List ℤ} {strings : List String}
    {working : ℕ} {u : RunPhase}, runJobs jobs clock strings working = .ok u →
      u.jobs = jobs.map runJob
  | [], _, _, _, _, h => by
    cases h
    rfl
  | j :: jobs, _, _, _, _, h => by
    obtain ⟨v, rfl, ⟨-, hv⟩ | ⟨k, -, -, -, hv⟩⟩ := runJobs_cons h
    · rw [List.map_cons, ← runJobs_jobs hv]
    · rw [List.map_cons, ← runJobs_jobs hv]

/-- **A core without a job** is left alone by the run phase. -/
theorem runJobs_idle {c : ℕ} : ∀ {jobs : List SimulatorJob} {clock : List ℤ} {strings : List String}
    {working : ℕ} {u : RunPhase}, runJobs jobs clock strings working = .ok u →
      (∀ j ∈ jobs, j.coreId ≠ c) →
        u.quantumClock[c]? = clock[c]? ∧ u.timeStrings[c]? = strings[c]?
  | [], _, _, _, _, h, _ => by
    cases h
    exact ⟨rfl, rfl⟩
  | j :: jobs, _, _, _, _, h, hc => by
    have hc' : ∀ j ∈ jobs, j.coreId ≠ c := fun j hj => hc j (List.mem_cons_of_mem _ hj)
    obtain ⟨v, rfl, ⟨-, hv⟩ | ⟨k, h0, -, -, hv⟩⟩ := runJobs_cons h
    · have ih := runJobs_idle hv hc'
      exact ih
    · have hj := hc j (List.mem_cons_self ..)
      have ih := runJobs_idle hv hc'
      rwa [List.getElem?_set_ne (by omega), List.getElem?_set_ne (by omega)] at ih

/-- **A core with a job** has a unit less of its quantum, and the name of the job. -/
theorem runJobs_on {c : ℕ} {a : SimulatorJob} (hac : a.coreId = c) : ∀ {jobs : List SimulatorJob}
    {clock : List ℤ} {strings : List String} {working : ℕ} {u : RunPhase},
      runJobs jobs clock strings working = .ok u → jobs.Pairwise Apart → a ∈ jobs →
        u.quantumClock[c]? = clock[c]?.map (· - 1) ∧ u.timeStrings[c]? = some (timeString a.jobId)
  | [], _, _, _, _, _, _, ha => absurd ha List.not_mem_nil
  | j :: jobs, clock, strings, _, _, h, hp, ha => by
    obtain ⟨hj, hp'⟩ := List.pairwise_cons.mp hp
    obtain ⟨v, rfl, ⟨hneg, hv⟩ | ⟨k, h0, hk, hstr, hv⟩⟩ := runJobs_cons h
    · have hne : a ≠ j := by
        rintro rfl
        omega
      have ih := runJobs_on hac hv hp' ((List.mem_cons.mp ha).resolve_left hne)
      exact ih
    · rcases List.mem_cons.mp ha with rfl | ha
      · -- no other job is on that core
        have hother : ∀ j ∈ jobs, j.coreId ≠ c := fun b hb hbc => by
          have := hj b hb (hac.trans hbc.symm)
          omega
        have hidle := runJobs_idle hv hother
        rw [hac, Int.toNat_natCast] at hidle hk hstr
        rwa [List.getElem?_set_self (List.getElem?_eq_some_iff.mp hk).1,
          List.getElem?_set_self (List.getElem?_eq_some_iff.mp hstr).1,
          show some (k - 1) = clock[c]?.map (· - 1) by rw [hk]; rfl] at hidle
      · have hne : j.coreId.toNat ≠ c := fun hjc => by
          have := hj a ha (by omega)
          omega
        have ih := runJobs_on hac hv hp' ha
        rwa [List.getElem?_set_ne hne] at ih

end Eecs678.Simulator.Jobs
