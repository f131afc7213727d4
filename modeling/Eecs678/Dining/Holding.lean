import Eecs678.Dining.Model

/-!
# Who holds which chopstick

While the threads lock both chopsticks, in an order for each, the owners of the chopsticks can be read
off the program counters (`Inv`). So neighbours do not eat at the same time (`not_both_eating`), and a
thread unlocks what it has locked (`unlocks_owned`).
-/

namespace Eecs678.Dining.Holding

open Eecs678.Dining.Model

variable {n : ℕ}

/-! ### Neighbours -/

theorem leftPhil_val (p : Fin n) :
    (leftPhil p).val = if p.val = n - 1 then 0 else p.val + 1 := rfl

theorem rightChop_val (p : Fin n) : (rightChop p).val = if p.val = 0 then n - 1 else p.val - 1 := rfl

theorem leftPhil_ne (hn : 2 ≤ n) (p : Fin n) : leftPhil p ≠ p := by
  intro h
  have hv := leftPhil_val p
  rw [h] at hv
  split_ifs at hv <;> omega

theorem rightChop_leftPhil (p : Fin n) : rightChop (leftPhil p) = leftChop p := by
  have hv := leftPhil_val p
  apply Fin.ext
  rw [rightChop_val, leftChop]
  split_ifs at hv ⊢ <;> omega

theorem rightChop_ne (hn : 2 ≤ n) (p : Fin n) : rightChop p ≠ leftChop p := by
  intro h
  have hv := rightChop_val p
  rw [h, leftChop] at hv
  split_ifs at hv <;> omega

/-! ### The invariant -/

/-- Each philosopher has an order in which it locks its two chopsticks. -/
def Orders (order : Fin n → List (Fin n)) : Prop :=
  ∀ p, order p = [leftChop p, rightChop p] ∨ order p = [rightChop p, leftChop p]

/-- The chopsticks that a philosopher holds. -/
def holds (p : Fin n) : Pc n → List (Fin n)
  | .loop => []
  | .think _ _ => []
  | .grab chops _ => [leftChop p, rightChop p].filter (· ∉ chops)
  | .eat _ => [leftChop p, rightChop p]
  | .releaseRight => [leftChop p, rightChop p]
  | .releaseLeft => [leftChop p]
  | .progress => []

/-- The chopsticks still to be locked are the last ones of the order. -/
def Rest (order : Fin n → List (Fin n)) (p : Fin n) : Pc n → Prop
  | .grab chops _ => chops <:+ order p
  | _ => True

structure Inv (order : Fin n → List (Fin n)) (t : Table n) : Prop where
  rest : ∀ p, Rest order p (t.diners p).pc
  owner : ∀ p chop, t.chopstick chop = some p ↔ chop ∈ holds p (t.diners p).pc

variable {order : Fin n → List (Fin n)} {t t' : Table n} {p : Fin n}

theorem inv_setTable : Inv order (setTable n) :=
  ⟨fun _ => trivial, fun _ _ => iff_of_false (fun h => by cases h) List.not_mem_nil⟩

/-- What a step of one thread has to show. -/
theorem Inv.step (h : Inv order t) (hothers : ∀ q, q ≠ p → (t'.diners q).pc = (t.diners q).pc)
    (hchops : ∀ q, q ≠ p → ∀ chop, t'.chopstick chop = some q ↔ t.chopstick chop = some q)
    (hrest : Rest order p (t'.diners p).pc)
    (howner : ∀ chop, t'.chopstick chop = some p ↔ chop ∈ holds p (t'.diners p).pc) :
    Inv order t' := by
  refine ⟨fun q => ?_, fun q chop => ?_⟩
  · by_cases hq : q = p
    · exact hq ▸ hrest
    · exact hothers q hq ▸ h.rest q
  · by_cases hq : q = p
    · exact hq ▸ howner chop
    · rw [hchops q hq, hothers q hq]
      exact h.owner q chop

theorem goto_pc (q : Fin n) (pc : Pc n) :
    ((t.goto p pc).diners q).pc = if q = p then pc else (t.diners q).pc := by
  unfold Table.goto
  simp only [Function.update_apply]
  split_ifs <;> rfl

/-- A step that locks and unlocks nothing. -/
theorem Inv.goto (h : Inv order t) (pc : Pc n) (hrest : Rest order p pc)
    (hholds : ∀ chop, chop ∈ holds p pc ↔ chop ∈ holds p (t.diners p).pc) :
    Inv order (t.goto p pc) := by
  refine h.step (p := p) (fun q hq => ?_) (fun q hq chop => Iff.rfl) ?_ fun chop => ?_
  · rw [goto_pc, if_neg hq]
  · rwa [goto_pc, if_pos rfl]
  · rw [goto_pc, if_pos rfl, hholds]
    exact h.owner p chop

theorem lock_chopstick (chop c : Fin n) :
    (t.lock p chop).chopstick c = if c = chop then some p else t.chopstick c := by
  simp only [Table.lock, Function.update_apply]

theorem unlock_chopstick (chop c : Fin n) :
    (t.unlock chop).chopstick c = if c = chop then none else t.chopstick c := by
  simp only [Table.unlock, Function.update_apply]

theorem Inv.lock (h : Inv order t) {chop : Fin n} (hfree : t.chopstick chop = none) {pc : Pc n}
    (hrest : Rest order p pc)
    (hholds : ∀ c, c ∈ holds p pc ↔ c = chop ∨ c ∈ holds p (t.diners p).pc) :
    Inv order ((t.lock p chop).goto p pc) := by
  refine h.step (p := p) (fun q hq => ?_) (fun q hq c => ?_) ?_ fun c => ?_
  · rw [goto_pc, if_neg hq]
    rfl
  · change (t.lock p chop).chopstick c = some q ↔ _
    rw [lock_chopstick]
    split_ifs with hc
    · rw [hc, hfree]
      exact iff_of_false (fun he => hq (Option.some.inj he).symm) (fun he => by cases he)
    · exact Iff.rfl
  · rwa [goto_pc, if_pos rfl]
  · change (t.lock p chop).chopstick c = some p ↔ _
    rw [lock_chopstick, goto_pc, if_pos rfl, hholds]
    split_ifs with hc
    · exact iff_of_true rfl (.inl hc)
    · rw [h.owner p c]
      exact (or_iff_right hc).symm

theorem Inv.unlock (h : Inv order t) {chop : Fin n} (hown : t.chopstick chop = some p) {pc : Pc n}
    (hrest : Rest order p pc)
    (hholds : ∀ c, c ∈ holds p pc ↔ c ≠ chop ∧ c ∈ holds p (t.diners p).pc) :
    Inv order ((t.unlock chop).goto p pc) := by
  refine h.step (p := p) (fun q hq => ?_) (fun q hq c => ?_) ?_ fun c => ?_
  · rw [goto_pc, if_neg hq]
    rfl
  · change (t.unlock chop).chopstick c = some q ↔ _
    rw [unlock_chopstick]
    split_ifs with hc
    · rw [hc, hown]
      exact iff_of_false (fun he => by cases he) (fun he => hq (Option.some.inj he).symm)
    · exact Iff.rfl
  · rwa [goto_pc, if_pos rfl]
  · change (t.unlock chop).chopstick c = some p ↔ _
    rw [unlock_chopstick, goto_pc, if_pos rfl, hholds]
    split_ifs with hc
    · exact iff_of_false (fun he => by cases he) fun he => he.1 hc
    · rw [h.owner p c]
      exact (and_iff_right hc).symm

/-! ### One step -/

theorem mem_holds_grab {chops : List (Fin n)} {eatRnd : ℕ} {c : Fin n} :
    c ∈ holds p (.grab chops eatRnd) ↔ (c = leftChop p ∨ c = rightChop p) ∧ c ∉ chops := by
  simp [holds]

theorem mem_order (ho : Orders order) {c : Fin n} :
    c ∈ order p ↔ c = leftChop p ∨ c = rightChop p := by
  rcases ho p with h | h
  · simp [h]
  · simp [h, or_comm]

theorem nodup_order (hn : 2 ≤ n) (ho : Orders order) : (order p).Nodup := by
  have hne := rightChop_ne hn p
  rcases ho p with h | h
  · simp [h, hne.symm]
  · simp [h, hne]

/-- What a thread holds at its first lock. -/
theorem holds_take (ho : Orders order) (eatRnd : ℕ) : holds p (.grab (order p) eatRnd) = [] := by
  rw [List.eq_nil_iff_forall_not_mem]
  intro c hc
  obtain ⟨h1, h2⟩ := mem_holds_grab.mp hc
  exact h2 ((mem_order ho).mpr h1)

variable {take : Fin n → ℤ → List (Fin n)} {P : Answer → Prop}

/-- **One step of a thread.** -/
theorem inv_dpThread (hn : 2 ≤ n) (ho : Orders order) {a : Answer}
    (ha : take p a.available = order p) (h : Inv order t) (hstep : dpThread take p a t = some t') :
    Inv order t' := by
  have hrest := h.rest p
  unfold dpThread at hstep
  cases hpc : (t.diners p).pc with
  | loop =>
    simp only [hpc, Option.some.injEq] at hstep
    rw [← hstep]
    exact h.goto _ trivial fun c => by rw [hpc]; rfl
  | think left eatRnd =>
    cases left with
    | zero =>
      simp only [hpc, Option.some.injEq, ha] at hstep
      rw [← hstep]
      exact h.goto _ List.suffix_rfl fun c => by rw [hpc, holds_take ho]; rfl
    | succ left =>
      simp only [hpc, Option.some.injEq] at hstep
      rw [← hstep]
      exact h.goto _ trivial fun c => by rw [hpc]; rfl
  | grab chops eatRnd =>
    rw [hpc] at hrest
    cases chops with
    | nil =>
      simp only [hpc, Option.some.injEq] at hstep
      rw [← hstep]
      exact h.goto _ trivial fun c => by rw [hpc, mem_holds_grab]; simp [holds]
    | cons chop chops =>
      simp only [hpc] at hstep
      split_ifs at hstep with hfree
      simp only [Option.some.injEq] at hstep
      rw [← hstep]
      have hsuf : chop :: chops <:+ order p := hrest
      have hchop := (mem_order ho).mp (hsuf.subset (List.mem_cons_self ..))
      have hnot := (List.nodup_cons.mp (hsuf.sublist.nodup (nodup_order hn ho))).1
      refine h.lock hfree ((List.suffix_cons chop chops).trans hsuf) fun c => ?_
      rw [hpc, mem_holds_grab, mem_holds_grab, List.mem_cons, not_or]
      constructor
      · rintro ⟨hc, hcn⟩
        by_cases he : c = chop
        · exact .inl he
        · exact .inr ⟨hc, he, hcn⟩
      · rintro (rfl | ⟨hc, -, hcn⟩)
        · exact ⟨hchop, hnot⟩
        · exact ⟨hc, hcn⟩
  | eat left =>
    cases left with
    | zero =>
      simp only [hpc, Option.some.injEq] at hstep
      rw [← hstep]
      exact h.goto _ trivial fun c => by rw [hpc]; rfl
    | succ left =>
      simp only [hpc, Option.some.injEq] at hstep
      rw [← hstep]
      exact h.goto _ trivial fun c => by rw [hpc]; rfl
  | releaseRight =>
    simp only [hpc, Option.some.injEq] at hstep
    rw [← hstep]
    refine h.unlock ((h.owner p _).mpr ?_) trivial fun c => ?_
    · rw [hpc]
      simp [holds]
    · rw [hpc]
      have hne := rightChop_ne hn p
      simp only [holds, List.mem_cons, List.not_mem_nil, or_false]
      constructor
      · rintro rfl
        exact ⟨hne.symm, .inl rfl⟩
      · rintro ⟨h1, h2⟩
        exact h2.resolve_right h1
  | releaseLeft =>
    simp only [hpc, Option.some.injEq] at hstep
    rw [← hstep]
    refine h.unlock ((h.owner p _).mpr ?_) trivial fun c => ?_
    · rw [hpc]
      simp [holds]
    · rw [hpc]
      simp [holds]
  | progress =>
    simp only [hpc, Option.some.injEq] at hstep
    rw [← hstep]
    have hup : Inv order (t.update p) := by
      refine h.step (p := p) (fun q hq => ?_) (fun q hq c => Iff.rfl) ?_ fun c => ?_
      · simp [Table.update, hq]
      · simp [Table.update, hpc, Rest]
      · simpa [Table.update] using h.owner p c
    exact hup.goto _ trivial fun c => by simp [Table.update, hpc, holds]

/-- **One step of the program.** -/
theorem inv_step (hn : 2 ≤ n) (ho : Orders order)
    (ha : ∀ p a, P a → take p a.available = order p) (h : Inv order t) (hstep : Step take P t t') :
    Inv order t' := by
  cases hstep with
  | thread p a hP hstep => exact inv_dpThread hn ho (ha p a hP) h hstep
  | reset p =>
    have hpc : ∀ q, ((t.reset p).diners q).pc = (t.diners q).pc := fun q => by
      simp only [Table.reset, Function.update_apply]
      split_ifs with hq <;> simp [hq]
    exact h.step (p := p) (fun q _ => hpc q) (fun q _ c => Iff.rfl) (hpc p ▸ h.rest p)
      fun c => hpc p ▸ h.owner p c

/-- **Every reachable state.** -/
theorem inv_reachable (hn : 2 ≤ n) (ho : Orders order)
    (ha : ∀ p a, P a → take p a.available = order p) (h : Reachable take P t) : Inv order t := by
  induction h with
  | refl => exact inv_setTable
  | tail _ hstep ih => exact inv_step hn ho ha ih hstep

/-! ### What follows -/

theorem holds_eating (h : Eating t p) : holds p (t.diners p).pc = [leftChop p, rightChop p] := by
  unfold Eating at h
  split at h
  · next hpc =>
    rw [hpc]
    simp [holds]
  · next hpc => rw [hpc, holds]
  · next hpc => rw [hpc, holds]
  · exact h.elim

/-- **Neighbours do not eat at the same time.** -/
theorem not_both_eating (hn : 2 ≤ n) (h : Inv order t) (p : Fin n) :
    ¬ (Eating t p ∧ Eating t (leftPhil p)) := by
  rintro ⟨hp, hq⟩
  have h1 : t.chopstick (leftChop p) = some p := (h.owner p _).mpr (by simp [holds_eating hp])
  have h2 : t.chopstick (rightChop (leftPhil p)) = some (leftPhil p) :=
    (h.owner _ _).mpr (by simp [holds_eating hq])
  rw [rightChop_leftPhil, h1] at h2
  exact leftPhil_ne hn p (Option.some.inj h2).symm

/-- **A thread unlocks what it has locked.** -/
theorem unlocks_owned (h : Inv order t) {chop : Fin n} (hu : unlocks t p = some chop) :
    t.chopstick chop = some p := by
  rw [h.owner]
  unfold unlocks at hu
  split at hu
  · next hpc =>
    rw [hpc, ← Option.some.inj hu]
    simp [holds]
  · next hpc =>
    rw [hpc, ← Option.some.inj hu]
    simp [holds]
  · cases hu

/-- A philosopher that holds one chopstick and waits for another is at its second lock. -/
theorem order_of_waiting (ho : Orders order) (h : Inv order t) {c c' : Fin n}
    (hown : t.chopstick c = some p) (hw : wants t p = some c') : order p = [c, c'] := by
  unfold wants at hw
  split at hw
  · next chop chops eatRnd hpc =>
    obtain rfl := Option.some.inj hw
    have hsuf : chop :: chops <:+ order p := by
      have hrest := h.rest p
      rwa [hpc] at hrest
    obtain ⟨hc, hcn⟩ : c ∈ order p ∧ c ∉ chop :: chops := by
      have hmem := (h.owner p c).mp hown
      rw [hpc, mem_holds_grab] at hmem
      exact ⟨(mem_order ho).mpr hmem.1, hmem.2⟩
    obtain ⟨l, hl⟩ := hsuf
    have hlen : (order p).length = 2 := by rcases ho p with he | he <;> rw [he] <;> rfl
    have hcl : c ∈ l := by
      rw [← hl, List.mem_append] at hc
      exact hc.resolve_right hcn
    have hlens := congrArg List.length hl
    rw [List.length_append, List.length_cons, hlen] at hlens
    have hpos := List.length_pos_of_mem hcl
    obtain ⟨x, rfl⟩ := List.length_eq_one_iff.mp (by omega : l.length = 1)
    obtain rfl := List.eq_nil_of_length_eq_zero (by omega : chops.length = 0)
    rw [← hl, List.mem_singleton.mp hcl]
    rfl
  · cases hw

/-- A thread steps unless it waits. -/
theorem dpThread_isSome (p : Fin n) (a : Answer)
    (h : ∀ chop, wants t p = some chop → t.chopstick chop = none) : (dpThread take p a t).isSome := by
  unfold dpThread
  split
  · rfl
  · rfl
  · rfl
  · next chop chops eatRnd hpc =>
    rw [if_pos (h chop (by rw [wants, hpc]))]
    rfl
  · rfl
  · rfl
  · rfl
  · rfl
  · rfl
  · rfl

end Eecs678.Dining.Holding
