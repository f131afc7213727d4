import Mathlib.Logic.Relation
import Mathlib.Order.WellFounded

/-!
# Interleaved steps

A system takes one step at a time: an action is refused (`none`) or gives the next state. `invariant` is
the rule of invariants. `simulation` carries the runs of one system over to another one, in which an
action does the same or nothing. `ends` is the rule of termination under every order of the actions.
-/

namespace Eecs678.Lib.Interleaving

variable {P σ τ : Type} {step : P → σ → Option σ} {init s t : σ}

/-- One action of the system. -/
def Step (step : P → σ → Option σ) (s t : σ) : Prop := ∃ p, step p s = some t

/-- The states of the runs, with any order of the actions. -/
def Reachable (step : P → σ → Option σ) (init : σ) : σ → Prop := Relation.ReflTransGen (Step step) init

theorem Reachable.next {p : P} (h : Reachable step init s) (hstep : step p s = some t) :
    Reachable step init t := Relation.ReflTransGen.tail h ⟨p, hstep⟩

/-- **The rule of invariants.** -/
theorem invariant (inv : σ → Prop) (hinit : inv init)
    (hstep : ∀ p s t, inv s → step p s = some t → inv t) (h : Reachable step init s) : inv s := by
  induction h with
  | refl => exact hinit
  | tail _ hlast ih =>
    obtain ⟨p, hp⟩ := hlast
    exact hstep p _ _ ih hp

/-- **The rule of simulation**, with an invariant of the first system. -/
theorem simulation {step' : P → τ → Option τ} (abs : σ → τ) (inv : σ → Prop)
    (hinv : ∀ {s}, Reachable step init s → inv s)
    (hstep : ∀ p s t, inv s → step p s = some t → abs t = abs s ∨ step' p (abs s) = some (abs t))
    (h : Reachable step init s) : Reachable step' (abs init) (abs s) := by
  induction h with
  | refl => exact .refl
  | tail hrun hlast ih =>
    obtain ⟨p, hp⟩ := hlast
    rcases hstep p _ _ (hinv hrun) hp with heq | hnext
    · exact heq ▸ ih
    · exact ih.next hnext

/-- The actions `ps`, one after the other. -/
def run (step : P → σ → Option σ) : List P → σ → Option σ
  | [], s => some s
  | p :: ps, s => (step p s).bind (run step ps)

theorem reachable_run : ∀ {ps : List P} {s : σ}, Reachable step init s → run step ps s = some t →
    Reachable step init t
  | [], s, h, hrun => Option.some.inj hrun ▸ h
  | p :: ps, s, h, hrun => by
    obtain ⟨s', hp, hrun'⟩ := Option.bind_eq_some_iff.mp hrun
    exact reachable_run (h.next hp) hrun'

/-- **The rule of invariants** of a run in which only some actions are taken. -/
theorem run_invariant {allowed : P → Prop} (inv : σ → Prop)
    (hstep : ∀ p s t, allowed p → inv s → step p s = some t → inv t) :
    ∀ {ps : List P} {s : σ}, (∀ p ∈ ps, allowed p) → inv s → run step ps s = some t → inv t
  | [], s, _, h, hrun => Option.some.inj hrun ▸ h
  | p :: ps, s, hps, h, hrun => by
    obtain ⟨hp, hps⟩ := List.forall_mem_cons.mp hps
    obtain ⟨s', hs', hrun'⟩ := Option.bind_eq_some_iff.mp hrun
    exact run_invariant inv hstep hps (hstep p s s' hp h hs') hrun'

/-! ### Termination -/

/-- No action can be taken. -/
def Stuck (step : P → σ → Option σ) (s : σ) : Prop := ∀ p, step p s = none

/-- Every run from the state is finite, and is in such a state when no action is left. -/
structure Ends (step : P → σ → Option σ) (final : σ → Prop) (s : σ) : Prop where
  finite : Acc (fun t s => Step step s t) s
  final : ∀ t, Reachable step s t → Stuck step t → final t

/-- **The rule of termination**: an invariant, and a measure that falls with each action. -/
theorem ends {β : Type} [LT β] [WellFoundedLT β] {final : σ → Prop} (measure : σ → β) (inv : σ → Prop)
    (hinv : ∀ p s t, inv s → step p s = some t → inv t)
    (hdec : ∀ p s t, inv s → step p s = some t → measure t < measure s)
    (hfinal : ∀ s, inv s → Stuck step s → final s) (h : inv s) : Ends step final s := by
  constructor
  · obtain ⟨b, hb⟩ : ∃ b, b = measure s := ⟨_, rfl⟩
    induction b using WellFoundedLT.induction generalizing s with
    | ind b ih =>
      refine ⟨_, fun t ht => ?_⟩
      obtain ⟨p, hp⟩ := ht
      exact ih _ (hb ▸ hdec p s t h hp) (hinv p s t h hp) rfl
  · intro t ht hstuck
    exact hfinal t (invariant inv h hinv ht) hstuck

end Eecs678.Lib.Interleaving
