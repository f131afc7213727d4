import Eecs678.Dining.Endings

/-!
# A program of philosophers that does not end

The release in `main` comes once. Threads that are still thinking then lock their left chopsticks after
it, and nobody is left to free them. `exists_hang` builds such a run of `dining_philosophers.c` at a table
of any size, after ten periods with progress and `"Finished without Deadlock"`.
-/

namespace Eecs678.Dining.Hang

open Eecs678.Lib.Interleaving Eecs678.Dining.Holding Eecs678.Dining.Periods Eecs678.Dining.Endings
open Eecs678.Dining.Model hiding Step Reachable

variable {n : ℕ} {s s' : Program n} {g : Fin n → Pc n} {h : Fin n → Option (Fin n)} {m : MainPc} {i : ℕ}
  {d : Bool} {r : Option String} {p : Fin n}

/-! ### What a run has come to -/

/-- A reachable state, given but for the counts of progress. -/
structure At (g : Fin n → Pc n) (h : Fin n → Option (Fin n)) (m : MainPc) (i : ℕ) (d : Bool)
    (r : Option String) (s : Program n) : Prop where
  reachable : Reachable (step takeChopsticks) (start n) s
  pc : ∀ p, (s.table.diners p).pc = g p
  chopstick : s.table.chopstick = h
  main : s.main = m
  iter : s.iter = i
  deadlock : s.deadlock = d
  report : s.report = r
  stop : s.stop = m.stopped
  ended : ∀ p, s.ended p = false

theorem at_start : At (fun _ => .loop) (fun _ => none) (.reset 0) 0 false none (start n) :=
  ⟨.refl, fun _ => rfl, rfl, rfl, rfl, rfl, rfl, rfl, fun _ => rfl⟩

/-- A step of `dp_thread`, with `rand()` always 0. -/
theorem At.goto (hat : At g h m i d r s) {pc : Pc n} {h' : Fin n → Option (Fin n)} {u : Table n}
    (hgo : m.stopped = false ∨ g p ≠ .loop)
    (hstep : dpThread takeChopsticks p ⟨0, 0, 0⟩ s.table = some (u.goto p pc)) (hchop : u.chopstick = h') :
    At (Function.update g p pc) h' m i d r { s with table := u.goto p pc } := by
  have hthread : threadStep takeChopsticks p ⟨0, 0, 0⟩ s = some { s with table := u.goto p pc } := by
    have hloop : ¬ (s.stop = true ∧ (s.table.diners p).pc = .loop) := by
      rintro ⟨hs, hl⟩
      rw [hat.pc] at hl
      rcases hgo with hgo | hgo
      · rw [hat.stop, hgo] at hs
        cases hs
      · exact hgo hl
    unfold threadStep
    rw [if_neg (by rw [hat.ended]; exact Bool.false_ne_true), if_neg hloop, hstep]
    rfl
  refine ⟨hat.reachable.next (p := .thread p ⟨0, 0, 0⟩) hthread, fun q => ?_, hchop, hat.main, hat.iter,
    hat.deadlock, hat.report, hat.stop, hat.ended⟩
  by_cases hq : q = p
  · rw [hq, Function.update_self, goto_pc, if_pos rfl]
  · rw [Function.update_of_ne hq, dpThread_pc hstep hq]
    exact hat.pc q

theorem At.step (hat : At g h m i d r s) (pc : Pc n) {h' : Fin n → Option (Fin n)} (u : Table n)
    (hgo : m.stopped = false ∨ g p ≠ .loop)
    (hstep : dpThread takeChopsticks p ⟨0, 0, 0⟩ s.table = some (u.goto p pc)) (hchop : u.chopstick = h') :
    ∃ s', At (Function.update g p pc) h' m i d r s' := ⟨_, hat.goto hgo hstep hchop⟩

theorem At.think (hat : At g h m i d r s) (hm : m.stopped = false) (hp : g p = .loop) :
    ∃ s', At (Function.update g p (.think 0 0)) h m i d r s' := by
  refine hat.step _ s.table (.inl hm) ?_ hat.chopstick
  unfold dpThread
  rw [hat.pc, hp]
  rfl

theorem At.hungry (hat : At g h m i d r s) (hp : g p = .think 0 0) :
    ∃ s', At (Function.update g p (.grab [leftChop p, rightChop p] 0)) h m i d r s' := by
  refine hat.step _ s.table (.inr (by rw [hp]; intro he; cases he)) ?_ hat.chopstick
  unfold dpThread
  rw [hat.pc, hp]
  rfl

theorem At.lock (hat : At g h m i d r s) {c : Fin n} {cs : List (Fin n)} (hp : g p = .grab (c :: cs) 0)
    (hc : h c = none) :
    ∃ s', At (Function.update g p (.grab cs 0)) (Function.update h c (some p)) m i d r s' := by
  refine hat.step _ (s.table.lock p c) (.inr (by rw [hp]; intro he; cases he)) ?_ ?_
  · unfold dpThread
    rw [hat.pc, hp]
    exact if_pos (by rw [hat.chopstick, hc])
  · rw [← hat.chopstick]
    rfl

theorem At.eat (hat : At g h m i d r s) (hp : g p = .grab [] 0) :
    ∃ s', At (Function.update g p .progress)
      (Function.update (Function.update h (rightChop p) none) (leftChop p) none) m i d r s' := by
  obtain ⟨s1, h1⟩ := hat.step (p := p) (.eat 0) s.table (.inr (by rw [hp]; intro he; cases he))
    (by unfold dpThread; rw [hat.pc, hp]) hat.chopstick
  have hp1 : Function.update g p (.eat 0) p = .eat 0 := Function.update_self ..
  obtain ⟨s2, h2⟩ := h1.step (p := p) .releaseRight s1.table
    (.inr (by rw [hp1]; intro he; cases he)) (by unfold dpThread; rw [h1.pc, hp1]) h1.chopstick
  rw [Function.update_idem] at h2
  have hp2 : Function.update g p .releaseRight p = .releaseRight := Function.update_self ..
  obtain ⟨s3, h3⟩ := h2.step (p := p) .releaseLeft (s2.table.unlock (rightChop p))
    (.inr (by rw [hp2]; intro he; cases he)) (by unfold dpThread; rw [h2.pc, hp2])
    (by rw [Table.unlock, h2.chopstick])
  rw [Function.update_idem] at h3
  have hp3 : Function.update g p .releaseLeft p = .releaseLeft := Function.update_self ..
  obtain ⟨s4, h4⟩ := h3.step (p := p) .progress (s3.table.unlock (leftChop p))
    (.inr (by rw [hp3]; intro he; cases he)) (by unfold dpThread; rw [h3.pc, hp3])
    (by rw [Table.unlock, h3.chopstick])
  rw [Function.update_idem] at h4
  exact ⟨s4, h4⟩

/-- A round up to the progress, with both chopsticks free. -/
theorem At.round (hn : 2 ≤ n) (hat : At g (fun _ => none) m i d r s) (hm : m.stopped = false)
    (hp : g p = .loop) : ∃ s', At (Function.update g p .progress) (fun _ => none) m i d r s' := by
  obtain ⟨s1, h1⟩ := hat.think hm hp
  obtain ⟨s2, h2⟩ := h1.hungry (p := p) (Function.update_self ..)
  obtain ⟨s3, h3⟩ := h2.lock (p := p) (Function.update_self ..) rfl
  obtain ⟨s4, h4⟩ := h3.lock (p := p) (Function.update_self ..)
    (Function.update_of_ne (rightChop_ne hn p) ..)
  obtain ⟨s5, h5⟩ := h4.eat (p := p) (Function.update_self ..)
  simp only [Function.update_idem] at h5
  -- all chopsticks are free again
  rw [show Function.update (Function.update (Function.update (fun _ => (none : Option (Fin n))) (leftChop p)
      (some p)) (rightChop p) none) (leftChop p) none = fun _ => none from funext fun c => by
    simp only [Function.update_apply]
    split_ifs <;> rfl] at h5
  exact ⟨s5, h5⟩

theorem At.progress (hat : At g h m i d r s) (hm : m.stopped = false) (hp : g p = .progress)
    (hprog : (s.table.diners p).prog = 0) :
    ∃ s', At (Function.update g p .loop) h m i d r s' ∧ (s'.table.diners p).prog ≠ 0 := by
  refine ⟨_, hat.goto (u := s.table.update p) (.inl hm) ?_ hat.chopstick, ?_⟩
  · unfold dpThread
    rw [hat.pc, hp]
  · simp [Table.goto, Table.update, hprog]

/-! ### Runs of `main` -/

/-- A step of `main` that leaves the places and the chopsticks as they are. -/
theorem At.main_step (hat : At g h m i d r s) {m' : MainPc} {i' : ℕ} {d' : Bool} {r' : Option String}
    (hstep : mainStep s = some s') (hpc : ∀ p, (s'.table.diners p).pc = (s.table.diners p).pc)
    (hchop : s'.table.chopstick = s.table.chopstick) (he : s'.ended = s.ended) (hm : s'.main = m')
    (hi : s'.iter = i') (hd : s'.deadlock = d') (hr : s'.report = r') (hstop : s'.stop = m'.stopped) :
    At g h m' i' d' r' s' :=
  ⟨hat.reachable.next (p := .main) hstep, fun p => (hpc p).trans (hat.pc p), hchop.trans hat.chopstick, hm,
    hi, hd, hr, hstop, fun p => he ▸ hat.ended p⟩

/-- The loop over `Diners[i].prog = 0`. -/
theorem At.resets {j : ℕ} (hj : j ≤ n) (hat : At g h (.reset j) i d r s)
    (hprog : ∀ p, p.val < j → (s.table.diners p).prog = 0) :
    ∃ s', At g h .sleep i d r s' ∧ ∀ p, (s'.table.diners p).prog = 0 := by
  induction hk : n - j generalizing j s with
  | zero =>
    have hstep : mainStep s = some { s with main := .sleep } := by
      unfold mainStep
      simp only [hat.main]
      exact dif_neg (by omega)
    exact ⟨_, hat.main_step hstep (fun _ => rfl) rfl rfl rfl hat.iter hat.deadlock hat.report hat.stop,
      fun p => hprog p (by omega)⟩
  | succ k ih =>
    have hlt : j < n := by omega
    have hstep : mainStep s = some { s with table := s.table.reset ⟨j, hlt⟩, main := .reset (j + 1) } := by
      unfold mainStep
      simp only [hat.main]
      exact dif_pos hlt
    refine ih (by omega) (hat.main_step hstep (fun p => reset_pc p) rfl rfl rfl hat.iter hat.deadlock hat.report
      hat.stop) (fun p hp => ?_) (by omega)
    simp only [Table.reset, Function.update_apply]
    split_ifs with heq
    · rfl
    · exact hprog p (Nat.lt_of_le_of_ne (Nat.le_of_lt_succ hp) fun hv => heq (Fin.ext hv))

/-- The loop over `if (Diners[i].prog)`. -/
theorem At.checks {j : ℕ} (hj : j ≤ n) (hat : At g h (.check j) i d r s)
    (hprog : d = false ∨ ∃ p : Fin n, j ≤ p.val ∧ (s.table.diners p).prog ≠ 0) :
    ∃ s', At g h .print i false r s' := by
  induction hk : n - j generalizing j d s with
  | zero =>
    have hstep : mainStep s = some { s with main := .print } := by
      unfold mainStep
      simp only [hat.main]
      exact dif_neg (by omega)
    have hd : d = false := by
      rcases hprog with hd | ⟨p, hp, -⟩
      · exact hd
      · have := p.isLt
        omega
    exact ⟨_, hat.main_step hstep (fun _ => rfl) rfl rfl rfl hat.iter (hat.deadlock.trans hd) hat.report
      hat.stop⟩
  | succ k ih =>
    have hlt : j < n := by omega
    have hstep : mainStep s = some { s with
        deadlock := if (s.table.diners ⟨j, hlt⟩).prog ≠ 0 then false else s.deadlock
        main := .check (j + 1) } := by
      unfold mainStep
      simp only [hat.main]
      exact dif_pos hlt
    refine ih (by omega) (hat.main_step hstep (fun _ => rfl) rfl rfl rfl hat.iter rfl hat.report hat.stop) ?_
      (by omega)
    rcases hprog with hd | ⟨p, hp, hne⟩
    · rw [hat.deadlock, hd, ite_self]
      exact .inl rfl
    · by_cases hpj : p.val = j
      · rw [show (⟨j, hlt⟩ : Fin n) = p from Fin.ext hpj.symm, if_pos hne]
        exact .inl rfl
      · exact .inr ⟨p, by omega, hne⟩

/-- The loop over `pthread_mutex_unlock(&chopstick[i])`, when all are free. -/
theorem At.unlocks {j : ℕ} (hj : j ≤ n) (hat : At g (fun _ => none) (.unlock j) i d r s) :
    ∃ s', At g (fun _ => none) (.join 0) i d r s' := by
  induction hk : n - j generalizing j s with
  | zero =>
    have hstep : mainStep s = some { s with main := .join 0 } := by
      unfold mainStep
      simp only [hat.main]
      exact dif_neg (by omega)
    exact ⟨_, hat.main_step hstep (fun _ => rfl) rfl rfl rfl hat.iter hat.deadlock hat.report hat.stop⟩
  | succ k ih =>
    have hlt : j < n := by omega
    have hstep : mainStep s =
        some { s with table := s.table.unlock ⟨j, hlt⟩, main := .unlock (j + 1) } := by
      unfold mainStep
      simp only [hat.main]
      exact dif_pos hlt
    refine ih (by omega) (hat.main_step hstep (fun _ => rfl) ?_ rfl rfl hat.iter hat.deadlock hat.report
      hat.stop) (by omega)
    funext c
    rw [unlock_chopstick, hat.chopstick, ite_self]

/-- A period in which philosopher 0 makes its round. -/
theorem At.period (hn : 2 ≤ n) (hat : At (fun _ => .loop) (fun _ => none) (.reset 0) i d r s) :
    ∃ s' : Program n, At (fun _ => .loop) (fun _ => none) .while (i + 1) false r s' := by
  obtain ⟨s1, h1⟩ := hat.round (p := ⟨0, by omega⟩) hn rfl rfl
  obtain ⟨s2, h2, hprog⟩ := h1.resets (Nat.zero_le n) fun p hp => absurd hp (Nat.not_lt_zero _)
  obtain ⟨s3, h3, hne⟩ := h2.progress (p := ⟨0, by omega⟩) rfl (Function.update_self ..) (hprog _)
  rw [Function.update_idem, Function.update_eq_self_iff.mpr rfl] at h3
  have h4 : At (fun _ => .loop) (fun _ => none) (.check 0) i true r
      { s3 with deadlock := true, main := .check 0 } :=
    h3.main_step (by unfold mainStep; rw [h3.main]) (fun _ => rfl) rfl rfl rfl h3.iter rfl h3.report h3.stop
  obtain ⟨s5, h5⟩ := h4.checks (Nat.zero_le n) (.inr ⟨_, Nat.zero_le _, hne⟩)
  exact ⟨{ s5 with iter := s5.iter + 1, main := .while },
    h5.main_step (by unfold mainStep; rw [h5.main]) (fun _ => rfl) rfl rfl rfl (by rw [h5.iter]) h5.deadlock
      h5.report h5.stop⟩

/-- As many periods as `main` makes. -/
theorem periods (hn : 2 ≤ n) : ∀ k, k < iterationLimit →
    ∃ s : Program n, At (fun _ => .loop) (fun _ => none) .while (k + 1) false none s
  | 0, _ => at_start.period hn
  | k + 1, hk => by
    obtain ⟨s, hat⟩ := periods hn k (by omega)
    have hstep : mainStep s = some { s with main := .reset 0 } := by
      unfold mainStep
      simp only [hat.main]
      exact if_pos ⟨hat.deadlock, by rw [hat.iter]; exact hk⟩
    exact At.period hn (hat.main_step hstep (fun _ => rfl) rfl rfl rfl hat.iter hat.deadlock hat.report
      hat.stop)

/-- What each philosopher can do, at its place and with its left chopstick, all do in turn. -/
theorem At.all {A B : Fin n → Pc n} {X Y : Fin n → Option (Fin n)}
    (heach : ∀ p g h s, g p = A p → h p = X p → At g h m i d r s →
      ∃ s', At (Function.update g p (B p)) (Function.update h p (Y p)) m i d r s')
    (hat : At A X m i d r s) : ∃ s', At B Y m i d r s' := by
  have hk : ∀ k ≤ n, ∃ s', At (fun p => if p.val < k then B p else A p)
      (fun c => if c.val < k then Y c else X c) m i d r s' := by
    intro k
    induction k with
    | zero => exact fun _ => ⟨s, by simpa only [Nat.not_lt_zero, if_false] using hat⟩
    | succ k ih =>
      intro hk
      obtain ⟨s1, h1⟩ := ih (by omega)
      obtain ⟨s2, h2⟩ := heach ⟨k, hk⟩ _ _ s1 (if_neg (lt_irrefl k)) (if_neg (lt_irrefl k)) h1
      have hupdate : ∀ {α : Type} (f f' : Fin n → α),
          Function.update (fun p : Fin n => if p.val < k then f' p else f p) ⟨k, hk⟩ (f' ⟨k, hk⟩) =
            fun p => if p.val < k + 1 then f' p else f p := by
        intro α f f'
        funext p
        rw [Function.update_apply]
        by_cases hp : p.val = k
        · rw [if_pos (Fin.ext hp), if_pos (by omega), show p = ⟨k, hk⟩ from Fin.ext hp]
        · rw [if_neg fun he => hp (congrArg Fin.val he)]
          exact if_congr (by omega) rfl rfl
      rw [hupdate, hupdate] at h2
      exact ⟨s2, h2⟩
  obtain ⟨s', h'⟩ := hk n le_rfl
  exact ⟨s', by simpa only [Fin.is_lt, if_true] using h'⟩

theorem At.all_think (hm : m.stopped = false) (hat : At (fun _ => .loop) (fun _ => none) m i d r s) :
    ∃ s' : Program n, At (fun _ => .think 0 0) (fun _ => none) m i d r s' := by
  refine hat.all fun p g h s hg hh hat => ?_
  rw [show Function.update h p none = h from Function.update_eq_self_iff.mpr hh.symm]
  exact hat.think hm hg

theorem At.all_lock (hat : At (fun _ => .think 0 0) (fun _ => none) m i d r s) :
    ∃ s' : Program n, At (fun p => .grab [rightChop p] 0) some m i d r s' := by
  refine hat.all fun p g h s hg hh hat => ?_
  obtain ⟨s1, h1⟩ := hat.hungry hg
  obtain ⟨s2, h2⟩ := h1.lock (p := p) (Function.update_self ..) hh
  rw [Function.update_idem] at h2
  exact ⟨s2, h2⟩

theorem At.circle (hat : At (fun p => .grab [rightChop p] 0) some m i d r s) : Circle s.table :=
  fun p => ⟨⟨0, hat.pc p⟩, by rw [hat.chopstick]; rfl⟩

/-- **A run that hangs**, at a table of any size and with `rand()` 0 throughout: `main` reports that there was
no deadlock, releases the chopsticks and waits for the first thread, and the philosophers wait in a circle. -/
theorem exists_hang (hn : 2 ≤ n) : ∃ s : Program n, Reachable (step takeChopsticks) (start n) s ∧
    s.main = .join 0 ∧ s.report = some "Finished without Deadlock\n" ∧ Circle s.table ∧
      Stuck (step takeChopsticks) s := by
  obtain ⟨s1, h1⟩ := periods hn 9 (by decide)
  have h2 : At (fun _ => .loop) (fun _ => none) .stop 10 false none { s1 with main := .stop } := by
    refine h1.main_step ?_ (fun _ => rfl) rfl rfl rfl h1.iter h1.deadlock h1.report h1.stop
    unfold mainStep
    simp only [h1.main]
    exact if_neg fun hw => absurd (h1.iter ▸ hw.2) (lt_irrefl _)
  obtain ⟨s3, h3⟩ := h2.all_think rfl
  have h4 : At (fun _ => .think 0 0) (fun _ => none) .report 10 false none
      { s3 with stop := true, main := .report } :=
    h3.main_step (by unfold mainStep; rw [h3.main]) (fun _ => rfl) rfl rfl rfl h3.iter h3.deadlock h3.report
      rfl
  have h5 : At (fun _ => .think 0 0) (fun _ => none) (.unlock 0) 10 false
      (some "Finished without Deadlock\n")
      { s3 with stop := true, main := .unlock 0, report := some "Finished without Deadlock\n" } := by
    refine h4.main_step ?_ (fun _ => rfl) rfl rfl rfl h4.iter h4.deadlock rfl rfl
    unfold mainStep
    simp only [h3.deadlock]
    rfl
  obtain ⟨s6, h6⟩ := h5.unlocks (Nat.zero_le n)
  obtain ⟨s7, h7⟩ := h6.all_lock
  have hok := ok_reachable hn (orders_take 0) (fun _ _ => rfl) h7.reachable
  exact ⟨s7, h7.reachable, h7.main, h7.report, h7.circle, stuck_of_circle hn hok h7.main h7.circle⟩

theorem exists_hang_five : ∃ s : Program 5, Circle s.table ∧ Stuck (step takeChopsticks) s := by
  obtain ⟨s, -, -, -, hc, hs⟩ := exists_hang (n := 5) (by omega)
  exact ⟨s, hc, hs⟩

end Eecs678.Dining.Hang
