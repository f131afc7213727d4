import Eecs678.Scheduler.Runs

/-!
# The scheduler as a table of jobs

What a simulator can know of the scheduler: for each job that has a place its number, the remaining
time at the moment and its core (`table`). Each callback is a simple change of this table, up to
order (`table_newJob`, `table_finished`, `table_expired`).
-/

namespace Eecs678.Scheduler.Table

open Eecs678.Lib.Slots Eecs678.Scheduler.Model Eecs678.Scheduler.Places Eecs678.Scheduler.Runs

/-- A job that has a place; `coreId` is `-1` for a job that waits. -/
structure Entry where
  jobNumber : ℤ
  remaining : ℤ
  coreId : ℤ
deriving DecidableEq

/-- The job on core `c`, if any, is set to wait. -/
def Entry.vacate (c : ℤ) (e : Entry) : Entry := if e.coreId = c then { e with coreId := -1 } else e

/-- Job `n` is set to run on core `c`. -/
def Entry.activate (n c : ℤ) (e : Entry) : Entry :=
  if e.jobNumber = n then { e with coreId := c } else e

/-- The entry of the job at `p`. -/
def entry (t : ℤ) (s : Sched) (p : ℕ) : Entry :=
  ⟨(s.heap p).jobNumber, trueRemaining t s p, (s.heap p).coreId⟩

/-- The jobs that have a place. -/
def table (t : ℤ) (s : Sched) : List Entry := (places s).map (entry t s)

@[simp] theorem vacate_neg (e : Entry) : e.vacate (-1) = e := by
  unfold Entry.vacate
  split_ifs with h
  · rw [← h]
  · rfl

@[simp] theorem vacate_jobNumber (c : ℤ) (e : Entry) : (e.vacate c).jobNumber = e.jobNumber := by
  unfold Entry.vacate
  split_ifs <;> rfl

theorem table_numbers (t : ℤ) (s : Sched) : (table t s).map Entry.jobNumber = numbers s := by
  simp only [table, numbers, statics, List.map_map]
  rfl

/-! ### Where a job is -/

/-- `core_id` and the slots agree. -/
theorem coreId_iff {s : Sched} (h : Held [] s) {p : ℕ} (hp : p ∈ places s) (c : ℕ) :
    (s.heap p).coreId = c ↔ s.coreJobPtrs[c]? = some (some p) := by
  refine ⟨fun hc => ?_, fun hc => h.core_id c p hc⟩
  rcases List.mem_append.mp hp with hr | hq
  · obtain ⟨c', hc'⟩ := exists_slot hr
    have he : (c' : ℤ) = c := (h.core_id c' p hc').symm.trans hc
    rwa [show c = c' by omega]
  · rw [h.queue_id p hq] at hc
    omega

/-- A job waits, or runs on one of the cores. -/
theorem coreId_range {s : Sched} (h : Held [] s) {p : ℕ} (hp : p ∈ places s) :
    (s.heap p).coreId = -1 ∨
      0 ≤ (s.heap p).coreId ∧ (s.heap p).coreId < s.coreJobPtrs.length := by
  rcases List.mem_append.mp hp with hr | hq
  · obtain ⟨c, hc⟩ := exists_slot hr
    have hlt := (List.getElem?_eq_some_iff.mp hc).1
    rw [h.core_id c p hc]
    omega
  · exact Or.inl (h.queue_id p hq)

/-- Two jobs on one core are one job. -/
theorem coreId_inj {s : Sched} (h : Held [] s) {p q : ℕ} (hp : p ∈ places s) (hq : q ∈ places s)
    (hne : (s.heap p).coreId ≠ -1) (he : (s.heap p).coreId = (s.heap q).coreId) : p = q := by
  obtain ⟨c, hc⟩ : ∃ c : ℕ, (s.heap p).coreId = c :=
    ⟨(s.heap p).coreId.toNat, by have := coreId_range h hp; omega⟩
  have hpc := (coreId_iff h hp c).mp hc
  have hqc := (coreId_iff h hq c).mp (he ▸ hc)
  rw [hpc] at hqc
  simpa using hqc

/-- A job that is not the new occupant of the slot is where it was. -/
theorem slot_of_coreId {s s' : Sched} (h' : Held [] s') {c : ℕ} {x : Option ℕ}
    (hc : c < s.coreJobPtrs.length) (hs : s'.coreJobPtrs = s.coreJobPtrs.set c x) {q : ℕ}
    (hq' : q ∈ places s') (hx : x ≠ some q) {c' : ℕ} (hc' : (s'.heap q).coreId = c') :
    c' ≠ c ∧ s.coreJobPtrs[c']? = some (some q) := by
  have hslot := (coreId_iff h' hq' c').mp hc'
  rw [hs] at hslot
  by_cases he : c' = c
  · rw [he, List.getElem?_set_self hc] at hslot
    exact absurd (Option.some.inj hslot) hx
  · rw [List.getElem?_set_ne (Ne.symm he)] at hslot
    exact ⟨he, hslot⟩

/-- **One slot is written**: the new occupant is on that core, the old one waits. -/
theorem coreId_set {s s' : Sched} (h : Held [] s) (h' : Held [] s') {c : ℕ} {x : Option ℕ}
    (hc : c < s.coreJobPtrs.length) (hs : s'.coreJobPtrs = s.coreJobPtrs.set c x) {q : ℕ}
    (hq : q ∈ places s) (hq' : q ∈ places s') :
    (s'.heap q).coreId = if x = some q then (c : ℤ) else
      if (s.heap q).coreId = c then -1 else (s.heap q).coreId := by
  split_ifs with hx hold
  · exact (coreId_iff h' hq' c).mpr (by rw [hs, List.getElem?_set_self hc, hx])
  · -- a slot of `s'` with `q` would be another slot of `s` with `q`
    rcases coreId_range h' hq' with hr | hr
    · exact hr
    · obtain ⟨c', hc'⟩ : ∃ c' : ℕ, (s'.heap q).coreId = c' := ⟨(s'.heap q).coreId.toNat, by omega⟩
      obtain ⟨hne, hslot⟩ := slot_of_coreId h' hc hs hq' hx hc'
      have := h.core_id c' q hslot
      omega
  · rcases coreId_range h' hq' with hr' | hr'
    · rcases coreId_range h hq with hr | hr
      · rw [hr, hr']
      · obtain ⟨c', hc'⟩ : ∃ c' : ℕ, (s.heap q).coreId = c' := ⟨(s.heap q).coreId.toNat, by omega⟩
        have hne : c' ≠ c := by omega
        have hslot := (coreId_iff h hq c').mp hc'
        rw [← List.getElem?_set_ne hne.symm, ← hs] at hslot
        rw [h'.core_id c' q hslot, hc']
    · obtain ⟨c', hc'⟩ : ∃ c' : ℕ, (s'.heap q).coreId = c' := ⟨(s'.heap q).coreId.toNat, by omega⟩
      rw [hc', h.core_id c' q (slot_of_coreId h' hc hs hq' hx hc').2]

/-! ### The callbacks -/

theorem entry_keeps {t : ℤ} {s s' : Sched} (h : Keeps t s s') {q : ℕ} (hq : q < s.fresh)
    (hc : (s'.heap q).coreId = (s.heap q).coreId) : entry t s' q = entry t s q := by
  have hn : (s'.heap q).jobNumber = (s.heap q).jobNumber := congrArg Prod.fst (h.static q hq)
  rw [entry, hn, h.remaining q hq, hc, entry]

/-- The entry of a job after a callback that writes slot `c`. -/
theorem entry_set {t : ℤ} {s s' : Sched} (h : Held [] s) (h' : Held [] s') (hk : Keeps t s s')
    {c : ℕ} {x : Option ℕ} (hc : c < s.coreJobPtrs.length)
    (hs : s'.coreJobPtrs = s.coreJobPtrs.set c x) {q : ℕ} (hq : q ∈ places s)
    (hq' : q ∈ places s') :
    entry t s' q = if x = some q then { entry t s q with coreId := c }
      else (entry t s q).vacate c := by
  have hst := congrArg Prod.fst (hk.static q (h.fresh q hq))
  have hn : (s'.heap q).jobNumber = (s.heap q).jobNumber := hst
  have hr := hk.remaining q (h.fresh q hq)
  have hid := coreId_set h h' hc hs hq hq'
  rw [entry, hn, hr, hid, Entry.vacate, entry]
  split_ifs <;> rfl

/-- The job gets the core returned, or it is queued. -/
theorem newJob_slots {s : Sched} (n t r pr : ℤ) :
    (∃ c : ℕ, c < s.coreJobPtrs.length ∧ (schedulerNewJob n t r pr s).1 = c ∧
      (schedulerNewJob n t r pr s).2.coreJobPtrs = s.coreJobPtrs.set c (some s.fresh)) ∨
    ((schedulerNewJob n t r pr s).1 = -1 ∧
      (schedulerNewJob n t r pr s).2.heap = (arrive n t r pr s).heap) := by
  rcases newJob_cases n t r pr s with ⟨c, hc, -, he⟩ | ⟨-, w, c, hc, -, he⟩ | ⟨-, -, he⟩
  · exact Or.inl ⟨c, (List.getElem?_eq_some_iff.mp hc).1, by rw [he], by rw [he]; rfl⟩
  · exact Or.inl ⟨c, (List.getElem?_eq_some_iff.mp hc).1, by rw [he], by rw [he]; rfl⟩
  · exact Or.inr ⟨by rw [he], by rw [he]; rfl⟩

/-- **`scheduler_new_job` adds an entry**, and the job that was on its core waits. -/
theorem table_newJob {s : Sched} (h : Wf s) (n t r pr : ℤ) :
    (table t (schedulerNewJob n t r pr s).2).Perm
      (⟨n, r, (schedulerNewJob n t r pr s).1⟩ ::
        (table t s).map (Entry.vacate (schedulerNewJob n t r pr s).1)) ∧
    ((schedulerNewJob n t r pr s).1 = -1 ∨ 0 ≤ (schedulerNewJob n t r pr s).1 ∧
      (schedulerNewJob n t r pr s).1 < s.coreJobPtrs.length) := by
  obtain ⟨hwf, hperm, -⟩ := newJob_spec h n t r pr
  have hk := newJob_keeps h n t r pr
  obtain ⟨hst, hrem⟩ := newJob_new h n t r pr
  have hn : ((schedulerNewJob n t r pr s).2.heap s.fresh).jobNumber = n := congrArg Prod.fst hst
  have hold : ∀ q ∈ places s, q ∈ places (schedulerNewJob n t r pr s).2 := fun q hq =>
    hperm.mem_iff.mpr (List.mem_cons_of_mem _ hq)
  have hnew : s.fresh ∈ places (schedulerNewJob n t r pr s).2 :=
    hperm.mem_iff.mpr (List.mem_cons_self ..)
  -- it is enough to look at the entries one by one
  suffices hsuff : ((schedulerNewJob n t r pr s).2.heap s.fresh).coreId =
        (schedulerNewJob n t r pr s).1 ∧
      ∀ q ∈ places s, entry t (schedulerNewJob n t r pr s).2 q =
        (entry t s q).vacate (schedulerNewJob n t r pr s).1 by
    have he := hperm.map (entry t (schedulerNewJob n t r pr s).2)
    rw [List.map_cons, List.map_congr_left hsuff.2] at he
    have hfresh : entry t (schedulerNewJob n t r pr s).2 s.fresh =
        ⟨n, r, (schedulerNewJob n t r pr s).1⟩ := by
      rw [entry, hn, hrem, hsuff.1]
    rw [hfresh] at he
    refine ⟨by rw [table, table, List.map_map]; exact he, ?_⟩
    have hrange := coreId_range hwf.toHeld hnew
    rwa [hsuff.1, hk.length] at hrange
  rcases newJob_slots (s := s) n t r pr with ⟨c, hc, hr, hs⟩ | ⟨hr, hs⟩
  · rw [hr]
    refine ⟨(coreId_iff hwf.toHeld hnew c).mpr (by rw [hs, List.getElem?_set_self hc]),
      fun q hq => ?_⟩
    rw [entry_set h.toHeld hwf.toHeld hk hc hs hq (hold q hq), if_neg]
    exact fun he => h.fresh_not_mem (Option.some.inj he ▸ hq)
  · rw [hr]
    refine ⟨?_, fun q hq => ?_⟩
    · rw [hs, arrive_heap h.toHeld, if_pos rfl]
      rfl
    · rw [vacate_neg, entry_keeps hk (h.lt_fresh hq) (by rw [hs, arrive_coreId h.toHeld _ _ _ _ hq])]

/-- The slot of the core after the end of the two other callbacks. -/
theorem pollOnto_slots (c : ℕ) (t : ℤ) (s : Sched) :
    ((pollOnto c t s).1 = -1 ∧ (pollOnto c t s).2.coreJobPtrs = s.coreJobPtrs) ∨
    ∃ next ∈ s.jobQueue, (pollOnto c t s).1 = (s.heap next).jobNumber ∧
      (pollOnto c t s).2.coreJobPtrs = s.coreJobPtrs.set c (some next) := by
  rcases pollOnto_cases c t s with ⟨-, he⟩ | ⟨next, q, hq, he⟩
  · exact Or.inl ⟨by rw [he], by rw [he]⟩
  · exact Or.inr ⟨next, hq ▸ List.mem_cons_self .., by rw [he], by rw [he]; rfl⟩

/-- The entries after a callback that gives core `c` to the job `next`, if there is one. -/
theorem entries_polled {t : ℤ} {s s' : Sched} (h : Wf s) (hw : Wf s') (hk : Keeps t s s')
    (hnd : (numbers s).Nodup) {c : ℕ} {r : ℤ} (hc : c < s.coreJobPtrs.length)
    (hs : (r = -1 ∧ s'.coreJobPtrs = s.coreJobPtrs.set c none) ∨
      ∃ next ∈ places s, r = (s.heap next).jobNumber ∧
        s'.coreJobPtrs = s.coreJobPtrs.set c (some next)) {l : List ℕ}
    (hl : ∀ q ∈ l, q ∈ places s ∧ q ∈ places s') :
    (r = -1 ∧ l.map (entry t s') = (l.map (entry t s)).map (Entry.vacate c)) ∨
    ((∃ next ∈ places s', (s.heap next).jobNumber = r) ∧
      l.map (entry t s') = ((l.map (entry t s)).map (Entry.vacate c)).map (Entry.activate r c)) := by
  simp only [List.map_map]
  rcases hs with ⟨hr, hs⟩ | ⟨next, hnext, hr, hs⟩
  · refine Or.inl ⟨hr, List.map_congr_left fun q hq => ?_⟩
    obtain ⟨hq, hq'⟩ := hl q hq
    rw [entry_set h.toHeld hw.toHeld hk hc hs hq hq', if_neg (by simp)]
    rfl
  · have hslot : s'.coreJobPtrs[c]? = some (some next) := by rw [hs, List.getElem?_set_self hc]
    refine Or.inr ⟨⟨next, mem_places_slot hslot, hr.symm⟩, List.map_congr_left fun q hq => ?_⟩
    obtain ⟨hq, hq'⟩ := hl q hq
    rw [entry_set h.toHeld hw.toHeld hk hc hs hq hq', Function.comp_apply, Function.comp_apply,
      Entry.activate, vacate_jobNumber]
    by_cases hqn : next = q
    · subst hqn
      rw [if_pos rfl, if_pos (show (entry t s next).jobNumber = r from hr.symm), Entry.vacate]
      split_ifs <;> rfl
    · rw [if_neg (fun he => hqn (Option.some.inj he)), if_neg]
      intro he
      have hinj := hnd
      rw [numbers, statics, List.map_map] at hinj
      exact hqn (List.inj_on_of_nodup_map hinj hnext hq (hr.symm.trans he.symm))

/-- **`scheduler_job_finished` removes the entry of the job on the core**, and the job whose number
it returns gets the core. -/
theorem table_finished {s : Sched} (h : Wf s) (hnd : (numbers s).Nodup) {core : ℤ} {p : ℕ}
    (hp : jobOn core s = some p) (n t : ℤ) :
    ∃ (r : ℤ) (s' : Sched) (rest : List Entry), schedulerJobFinished core n t s = some (r, s') ∧
      Wf s' ∧ Keeps t s s' ∧ (table t s).Perm (entry t s p :: rest) ∧
      ((r = -1 ∧ (table t s').Perm rest) ∨ ((∃ e ∈ rest, e.jobNumber = r) ∧
        (table t s').Perm (rest.map (Entry.activate r core)))) := by
  obtain ⟨hcore, hc⟩ := jobOn_eq hp
  obtain ⟨r, s', he, hw, hperm, hk⟩ := finished_spec h hp n t
  have hlt := (List.getElem?_eq_some_iff.mp hc).1
  have hin : ∀ q ∈ places s', q ∈ places s := fun q hq =>
    hperm.mem_iff.mp (List.mem_cons_of_mem _ hq)
  have hne : ∀ q ∈ places s', q ≠ p := fun q hq hqp =>
    (List.nodup_cons.mp (hperm.nodup_iff.mpr h.nodup)).1 (hqp ▸ hq)
  have hslots : (r = -1 ∧ s'.coreJobPtrs = s.coreJobPtrs.set core.toNat none) ∨
      ∃ next ∈ places s, r = (s.heap next).jobNumber ∧
        s'.coreJobPtrs = s.coreJobPtrs.set core.toNat (some next) := by
    rw [finished_eq hp, Option.some.injEq, Prod.ext_iff] at he
    obtain ⟨rfl, rfl⟩ := he
    rcases pollOnto_slots core.toNat t (finish p core.toNat t s) with ⟨hr, hs⟩ | ⟨next, hq, hr, hs⟩
    · exact Or.inl ⟨hr, hs⟩
    · have hqs : next ∈ s.jobQueue := hq
      refine Or.inr ⟨next, mem_places_queue hqs, hr.trans ?_, hs.trans (List.set_set ..)⟩
      exact congrArg Prod.fst ((keeps_finish h hc t).static next (h.lt_fresh (mem_places_queue hqs)))
  have hvac : ((places s').map (entry t s)).map (Entry.vacate core.toNat) =
      (places s').map (entry t s) := by
    rw [List.map_map]
    refine List.map_congr_left fun q hq => ?_
    rw [Function.comp_apply, Entry.vacate, if_neg]
    intro hid
    have hq' := (coreId_iff h.toHeld (hin q hq) core.toNat).mp hid
    rw [hc] at hq'
    exact hne q hq (by simpa using hq'.symm)
  have hentries := entries_polled h hw hk hnd hlt hslots fun q hq => ⟨hin q hq, hq⟩
  rw [hvac, Int.toNat_of_nonneg hcore] at hentries
  refine ⟨r, s', (places s').map (entry t s), he, hw, hk, (hperm.map (entry t s)).symm, ?_⟩
  rcases hentries with ⟨hr, hent⟩ | ⟨⟨next, hnext, hr⟩, hent⟩
  · exact Or.inl ⟨hr, List.Perm.of_eq hent⟩
  · exact Or.inr ⟨⟨entry t s next, List.mem_map.mpr ⟨next, hnext, rfl⟩, hr⟩, List.Perm.of_eq hent⟩

/-- **`scheduler_quantum_expired` makes the job on the core wait**, and the job whose number it
returns gets the core. -/
theorem table_expired {s : Sched} (h : Wf s) (hnd : (numbers s).Nodup) {core : ℤ} {p : ℕ}
    (hp : jobOn core s = some p) (t : ℤ) :
    ∃ (r : ℤ) (s' : Sched), schedulerQuantumExpired core t s = some (r, s') ∧
      Wf s' ∧ Keeps t s s' ∧
      ((r = -1 ∧ (table t s').Perm ((table t s).map (Entry.vacate core))) ∨
        ((∃ e ∈ table t s, e.jobNumber = r) ∧ (table t s').Perm
          (((table t s).map (Entry.vacate core)).map (Entry.activate r core)))) := by
  obtain ⟨hcore, hc⟩ := jobOn_eq hp
  obtain ⟨r, s', he, hw, hperm, hk⟩ := expired_spec h hp t
  have hlt := (List.getElem?_eq_some_iff.mp hc).1
  have hslots : (r = -1 ∧ s'.coreJobPtrs = s.coreJobPtrs.set core.toNat none) ∨
      ∃ next ∈ places s, r = (s.heap next).jobNumber ∧
        s'.coreJobPtrs = s.coreJobPtrs.set core.toNat (some next) := by
    rw [expired_eq hp, Option.some.injEq, Prod.ext_iff] at he
    obtain ⟨rfl, rfl⟩ := he
    rcases pollOnto_slots core.toNat t (expire p core.toNat t s) with ⟨hr, hs⟩ | ⟨next, hq, hr, hs⟩
    · exact Or.inl ⟨hr, hs⟩
    · have hmem : next ∈ places s := by
        rcases List.mem_cons.mp ((offer_jobQueue _ _).mem_iff.mp hq) with rfl | hq
        · exact mem_places_slot hc
        · exact mem_places_queue hq
      refine Or.inr ⟨next, hmem, hr.trans ?_, hs.trans (List.set_set ..)⟩
      exact congrArg Prod.fst ((keeps_expire h hc t).static next (h.lt_fresh hmem))
  have hentries := entries_polled h hw hk hnd hlt hslots fun q hq => ⟨hq, hperm.mem_iff.mpr hq⟩
  rw [Int.toNat_of_nonneg hcore] at hentries
  have htable : (table t s').Perm ((places s).map (entry t s')) := hperm.map _
  refine ⟨r, s', he, hw, hk, ?_⟩
  rcases hentries with ⟨hr, hent⟩ | ⟨⟨next, hnext, hr⟩, hent⟩
  · exact Or.inl ⟨hr, hent ▸ htable⟩
  · exact Or.inr ⟨⟨entry t s next, List.mem_map.mpr ⟨next, hperm.mem_iff.mp hnext, rfl⟩, hr⟩,
      hent ▸ htable⟩

/-! ### The number of finished jobs -/

theorem newJob_count (n t r pr : ℤ) (s : Sched) :
    (schedulerNewJob n t r pr s).2.totalJobsFinished = s.totalJobsFinished := by
  rcases newJob_cases n t r pr s with ⟨c, -, -, he⟩ | ⟨-, w, c, -, -, he⟩ | ⟨-, -, he⟩ <;>
    (rw [he]; rfl)

theorem pollOnto_count (c : ℕ) (t : ℤ) (s : Sched) :
    (pollOnto c t s).2.totalJobsFinished = s.totalJobsFinished := by
  rcases pollOnto_cases c t s with ⟨-, he⟩ | ⟨next, q, -, he⟩
  · rw [he]
  · rw [he]
    rfl

theorem finished_count {core n t r : ℤ} {s s' : Sched} {p : ℕ} (hp : jobOn core s = some p)
    (he : schedulerJobFinished core n t s = some (r, s')) :
    s'.totalJobsFinished = s.totalJobsFinished + 1 := by
  obtain rfl := finished_state hp he
  exact pollOnto_count _ _ _

theorem expired_count {core t r : ℤ} {s s' : Sched} {p : ℕ} (hp : jobOn core s = some p)
    (he : schedulerQuantumExpired core t s = some (r, s')) :
    s'.totalJobsFinished = s.totalJobsFinished := by
  obtain rfl := expired_state hp he
  exact pollOnto_count _ _ _

/-- The sums of turnaround, waiting and response times, and the floats. -/
def totals (s : Sched) : ℚ × ℚ × ℚ × FloatTotals :=
  (s.totalTurnaroundTime, s.totalWaitTime, s.totalResponseTime, s.floats)

theorem newJob_totals (n t r pr : ℤ) (s : Sched) :
    totals (schedulerNewJob n t r pr s).2 = totals s := by
  rcases newJob_cases n t r pr s with ⟨c, -, -, he⟩ | ⟨-, w, c, -, -, he⟩ | ⟨-, -, he⟩ <;>
    (rw [he]; rfl)

theorem pollOnto_totals (c : ℕ) (t : ℤ) (s : Sched) : totals (pollOnto c t s).2 = totals s := by
  rcases pollOnto_cases c t s with ⟨-, he⟩ | ⟨next, q, -, he⟩
  · rw [he]
  · rw [he]
    rfl

/-- **What a finished job adds to the sums.** -/
theorem finished_totals {core n t r : ℤ} {s s' : Sched} {p : ℕ} (hp : jobOn core s = some p)
    (he : schedulerJobFinished core n t s = some (r, s')) :
    totals s' = totals (accumulateStats (finishRecord t (s.heap p)) s) := by
  obtain rfl := finished_state hp he
  exact pollOnto_totals _ _ _

theorem expired_totals {core t r : ℤ} {s s' : Sched} {p : ℕ} (hp : jobOn core s = some p)
    (he : schedulerQuantumExpired core t s = some (r, s')) : totals s' = totals s := by
  obtain rfl := expired_state hp he
  exact pollOnto_totals _ _ _

/-! ### Jobs that wait -/

theorem newJob_queued {s : Sched} (h : Wf s) (n t r pr : ℤ) {q : ℕ} (hq : q ∈ s.jobQueue) :
    (schedulerNewJob n t r pr s).2.heap q = s.heap q := by
  have hne : q ≠ s.fresh := (h.lt_fresh (mem_places_queue hq)).ne
  rcases newJob_cases n t r pr s with ⟨c, hc, -, he⟩ | ⟨-, w, c, hc, -, he⟩ | ⟨-, -, he⟩
  · rw [he, place_heap, if_neg hne, arrive_queued h _ _ _ _ hq]
  · have hqw : q ≠ w := fun he => h.not_queued hc (he ▸ hq)
    rw [he, place_heap, if_neg hne, offer_heap, setJob_heap, if_neg hqw, arrive_queued h _ _ _ _ hq]
  · rw [he, offer_heap, arrive_queued h _ _ _ _ hq]

/-- A job that still waits after the end of a callback was not touched by it. -/
theorem pollOnto_queued {c : ℕ} {t : ℤ} {s : Sched} (h : Held [] (pollOnto c t s).2) {q : ℕ}
    (hc : c < s.coreJobPtrs.length) (hq : q ∈ (pollOnto c t s).2.jobQueue) :
    (pollOnto c t s).2.heap q = s.heap q := by
  rcases pollOnto_cases c t s with ⟨-, he⟩ | ⟨next, l, -, he⟩
  · rw [he]
  · rw [he] at h hq ⊢
    have hslot : (placeJobOnCore next c t { s with jobQueue := l }).coreJobPtrs[c]? =
        some (some next) := List.getElem?_set_self hc
    rw [place_heap, if_neg fun hqn : q = next => h.not_queued hslot (hqn ▸ hq)]

theorem finished_queued {core n t r : ℤ} {s s' : Sched} {p q : ℕ} (h : Wf s)
    (hp : jobOn core s = some p) (he : schedulerJobFinished core n t s = some (r, s'))
    (hw : Wf s') (hq : q ∈ s.jobQueue) (hq' : q ∈ s'.jobQueue) : s'.heap q = s.heap q := by
  obtain ⟨-, hc⟩ := jobOn_eq hp
  obtain rfl := finished_state hp he
  have hlt : core.toNat < (finish p core.toNat t s).coreJobPtrs.length := by
    simpa [finish, accumulateStats] using (List.getElem?_eq_some_iff.mp hc).1
  rw [pollOnto_queued hw.toHeld hlt hq']
  have hqp : q ≠ p := fun hqp => h.not_queued hc (hqp ▸ hq)
  exact (vacate_heap ..).trans (if_neg hqp)

theorem expired_queued {core t r : ℤ} {s s' : Sched} {p q : ℕ} (h : Wf s)
    (hp : jobOn core s = some p) (he : schedulerQuantumExpired core t s = some (r, s'))
    (hw : Wf s') (hq : q ∈ s.jobQueue) (hq' : q ∈ s'.jobQueue) : s'.heap q = s.heap q := by
  obtain ⟨-, hc⟩ := jobOn_eq hp
  obtain rfl := expired_state hp he
  have hlt : core.toNat < (expire p core.toNat t s).coreJobPtrs.length := by
    simpa [expire] using (List.getElem?_eq_some_iff.mp hc).1
  rw [pollOnto_queued hw.toHeld hlt hq']
  have hqp : q ≠ p := fun hqp => h.not_queued hc (hqp ▸ hq)
  exact (vacate_heap ..).trans (if_neg hqp)

/-- The record that a finished job leaves. -/
theorem finished_remaining {core n t r : ℤ} {s s' : Sched} {p : ℕ} (h : Wf s)
    (hp : jobOn core s = some p) (he : schedulerJobFinished core n t s = some (r, s')) :
    (s'.heap p).remainingTime = trueRemaining t s p := by
  obtain ⟨-, hperm, hk⟩ := finished_call h hp he
  have hp' : some p ∉ s'.coreJobPtrs := fun hm => by
    obtain ⟨c, hc⟩ := List.mem_iff_getElem?.mp hm
    exact (List.nodup_cons.mp (hperm.nodup_iff.mpr h.nodup)).1 (mem_places_slot hc)
  have hrem := hk.remaining p (h.lt_fresh (hperm.mem_iff.mp (List.mem_cons_self ..)))
  rw [← hrem, trueRemaining, if_neg hp']

theorem finished_jobOn {core n t : ℤ} {s : Sched} {x : ℤ × Sched}
    (h : schedulerJobFinished core n t s = some x) : ∃ p, jobOn core s = some p := by
  unfold schedulerJobFinished at h
  cases hp : jobOn core s with
  | none => simp [hp] at h
  | some p => exact ⟨p, rfl⟩

theorem expired_jobOn {core t : ℤ} {s : Sched} {x : ℤ × Sched}
    (h : schedulerQuantumExpired core t s = some x) : ∃ p, jobOn core s = some p := by
  unfold schedulerQuantumExpired at h
  cases hp : jobOn core s with
  | none => simp [hp] at h
  | some p => exact ⟨p, rfl⟩

/-! ### Time -/

/-- A job on a core has run one unit more at the next time. -/
def Entry.tick (e : Entry) : Entry :=
  if e.coreId = -1 then e else { e with remaining := e.remaining - 1 }

theorem entry_tick {s : Sched} (h : Held [] s) (t : ℤ) {p : ℕ} (hp : p ∈ places s) :
    entry (t + 1) s p = (entry t s p).tick := by
  have hid : (entry t s p).coreId = (s.heap p).coreId := rfl
  unfold Entry.tick
  rw [hid]
  rcases List.mem_append.mp hp with hr | hq
  · obtain ⟨c, hc⟩ := exists_slot hr
    have hcid := h.core_id c p hc
    rw [if_neg (by omega), entry, entry, trueRemaining, trueRemaining,
      if_pos (List.mem_of_getElem? hc), if_pos (List.mem_of_getElem? hc)]
    have ht : ∀ a b : ℤ, a - (t + 1 - b) = a - (t - b) - 1 := fun a b => by omega
    simp only [ht]
  · have hslot : some p ∉ s.coreJobPtrs := h.not_running hq
    rw [h.queue_id p hq, if_pos rfl, entry, entry, trueRemaining, trueRemaining, if_neg hslot,
      if_neg hslot]

/-- **The table after a unit of time.** -/
theorem table_tick {s : Sched} (h : Held [] s) (t : ℤ) :
    table (t + 1) s = (table t s).map Entry.tick := by
  rw [table, table, List.map_map]
  exact List.map_congr_left fun p hp => entry_tick h t hp

end Eecs678.Scheduler.Table
