import Mathlib.Data.List.Forall2
import Mathlib.Data.List.Basic
import Eecs678.Lib.Scanner

/-!
# The longest match of a table

A generated scanner has one automaton for all of its rules, and each state of it says which rule has
matched, if any: the verdict of the state. `munch` is the longest prefix that ends in a state with a
verdict; `munch_append` splits it where the input is cut, with the last verdict before the cut kept in
`backup`. `munch_congr` compares two automata along a relation of their states, and `best_eq_munch`
says that the rules side by side are one automaton, their product.
-/

namespace Eecs678.Lib.Automata

open Eecs678.Lib.Scanner

variable {σ ρ α ν τ : Type}

/-- The same match behind a text of this length. -/
def shift (n : ℕ) (m : Option (ℕ × ν)) : Option (ℕ × ν) := m.map fun p => (n + p.1, p.2)

/-- The match that ends here. -/
def here (v : Option ν) : Option (ℕ × ν) := v.map fun a => (0, a)

/-- The length of the longest prefix that has a verdict, and the verdict. -/
def munch (step : σ → α → σ) (verdict : σ → Option ν) : σ → List α → Option (ℕ × ν)
  | q, [] => here (verdict q)
  | q, a :: l => (shift 1 (munch step verdict (step q a) l)).or (here (verdict q))

/-- The same among the prefixes that are shorter than the text. -/
def backup (step : σ → α → σ) (verdict : σ → Option ν) : σ → List α → Option (ℕ × ν)
  | _, [] => none
  | q, a :: l => (shift 1 (backup step verdict (step q a) l)).or (here (verdict q))

variable {step : σ → α → σ} {verdict : σ → Option ν}

/-! ### Cutting the input -/

@[simp] theorem shift_none (n : ℕ) : shift n (none : Option (ℕ × ν)) = none := rfl

@[simp] theorem shift_some (n m : ℕ) (v : ν) : shift n (some (m, v)) = some (n + m, v) := rfl

@[simp] theorem here_none : here (none : Option ν) = none := rfl

@[simp] theorem here_some (v : ν) : here (some v) = some (0, v) := rfl

theorem shift_zero (m : Option (ℕ × ν)) : shift 0 m = m := by
  rcases m with _ | ⟨n, v⟩
  · rfl
  · rw [shift_some, Nat.zero_add]

theorem shift_shift (n k : ℕ) (m : Option (ℕ × ν)) : shift n (shift k m) = shift (n + k) m := by
  rcases m with _ | ⟨n', v⟩
  · rfl
  · rw [shift_some, shift_some, shift_some, Nat.add_assoc]

theorem shift_or (n : ℕ) (m m' : Option (ℕ × ν)) : shift n (m.or m') = (shift n m).or (shift n m') := by
  rcases m with _ | ⟨k, v⟩
  · rfl
  · rfl

/-- **A cut**: what matches past it wins over what was passed before it. -/
theorem munch_append : ∀ (u v : List α) (q : σ), munch step verdict q (u ++ v) =
    (shift u.length (munch step verdict (u.foldl step q) v)).or (backup step verdict q u)
  | [], v, q => by
    rw [List.nil_append, List.foldl_nil, List.length_nil, shift_zero, backup, Option.or_none]
  | a :: u, v, q => by
    rw [List.cons_append, munch, backup, munch_append u v, shift_or, shift_shift, Option.or_assoc,
      List.foldl_cons, List.length_cons, Nat.add_comm u.length 1]

theorem backup_concat : ∀ (u : List α) (a : α) (q : σ), backup step verdict q (u ++ [a]) =
    (shift u.length (here (verdict (u.foldl step q)))).or (backup step verdict q u)
  | [], a, q => by
    rw [List.nil_append, List.foldl_nil, List.length_nil, shift_zero, backup, backup, backup,
      shift_none, Option.none_or, Option.or_none]
  | b :: u, a, q => by
    rw [List.cons_append, backup, backup, backup_concat u a, shift_or, shift_shift, Option.or_assoc,
      List.foldl_cons, List.length_cons, Nat.add_comm u.length 1]

/-- A state that nothing leads out of. -/
structure Jammed (step : σ → α → σ) (verdict : σ → Option ν) (q : σ) : Prop where
  stays : ∀ a, step q a = q
  silent : verdict q = none

theorem munch_jammed {q : σ} (h : Jammed step verdict q) : ∀ l : List α, munch step verdict q l = none
  | [] => by rw [munch, h.silent, here_none]
  | a :: l => by rw [munch, h.stays, munch_jammed h l, h.silent, shift_none, here_none, Option.or_none]

/-- A state from which every letter jams. -/
theorem munch_last {q : σ} (h : ∀ a, Jammed step verdict (step q a)) :
    ∀ l : List α, munch step verdict q l = here (verdict q)
  | [] => rfl
  | a :: l => by rw [munch, munch_jammed (h a), shift_none, Option.none_or]

/-- A match is a prefix that leads to its verdict. -/
theorem munch_sound : ∀ {l : List α} {q : σ} {n : ℕ} {v : ν}, munch step verdict q l = some (n, v) →
    n ≤ l.length ∧ verdict ((l.take n).foldl step q) = some v
  | [], q, n, v, h => by
    obtain ⟨w, hw, hn⟩ := Option.map_eq_some_iff.mp h
    cases hn
    exact ⟨le_rfl, hw⟩
  | a :: l, q, n, v, h => by
    rw [munch, Option.or_eq_some_iff] at h
    rcases h with h | ⟨-, h⟩
    · obtain ⟨p, hp, hpn⟩ := Option.map_eq_some_iff.mp h
      obtain ⟨k, w⟩ := p
      obtain ⟨hle, hv⟩ := munch_sound hp
      cases hpn
      rw [Nat.add_comm]
      exact ⟨Nat.succ_le_succ hle, hv⟩
    · obtain ⟨w, hw, hn⟩ := Option.map_eq_some_iff.mp h
      cases hn
      exact ⟨Nat.zero_le _, hw⟩

/-- A match that is passed ends before the text does. -/
theorem backup_lt : ∀ {l : List α} {q : σ} {n : ℕ} {v : ν}, backup step verdict q l = some (n, v) →
    n < l.length
  | a :: l, q, n, v, h => by
    rw [backup, Option.or_eq_some_iff] at h
    rw [List.length_cons]
    rcases h with h | ⟨-, h⟩
    · obtain ⟨p, hp, hpn⟩ := Option.map_eq_some_iff.mp h
      have hlt : p.1 < l.length := backup_lt hp
      simp only [Prod.mk.injEq] at hpn
      omega
    · obtain ⟨w, -, hw⟩ := Option.map_eq_some_iff.mp h
      simp only [Prod.mk.injEq] at hw
      omega

/-! ### Comparing two automata -/

/-- **A simulation** of automata: related states have the same verdict, and stay related. -/
theorem munch_congr {step' : ρ → α → ρ} {verdict' : ρ → Option ν} (R : σ → ρ → Prop)
    (hv : ∀ q r, R q r → verdict q = verdict' r)
    (hs : ∀ q r a, R q r → R (step q a) (step' r a)) :
    ∀ {l : List α} {q : σ} {r : ρ}, R q r → munch step verdict q l = munch step' verdict' r l
  | [], q, r, h => by rw [munch, munch, hv q r h]
  | a :: l, q, r, h => by rw [munch, munch, hv q r h, munch_congr R hv hs (hs q r a h)]

theorem munch_map {β : Type} (f : β → α) : ∀ (l : List β) (q : σ),
    munch step verdict q (l.map f) = munch (fun q b => step q (f b)) verdict q l
  | [], _ => rfl
  | b :: l, q => by rw [List.map_cons, munch, munch, munch_map f l]

/-! ### The rules side by side -/

section Race

variable (next : σ → α → Option σ) (accept : σ → Bool)

/-- What is left of the rules after a letter. A rule that is stuck drops out. -/
def advance (conf : List (ν × σ)) (a : α) : List (ν × σ) :=
  conf.filterMap fun p => (next p.2 a).map fun q => (p.1, q)

/-- The first rule that accepts. -/
def winner : List (ν × σ) → Option ν
  | [] => none
  | p :: conf => if accept p.2 then some p.1 else winner conf

/-- Of a rule's match and that of the rules after it, the longer one. -/
def longer (v : ν) : Option ℕ → Option (ℕ × ν) → Option (ℕ × ν)
  | none, m => m
  | some n, none => some (n, v)
  | some n, some (k, w) => if k ≤ n then some (n, v) else some (k, w)

/-- Each rule for itself, from the states given. -/
def race : List (ν × σ) → List α → Option (ℕ × ν)
  | [], _ => none
  | p :: conf, l => longer p.1 (longest next accept p.2 l) (race conf l)

theorem longer_here (v : ν) (b : Bool) (w : Option ν) :
    longer v (if b then some 0 else none) (here w) = here (if b then some v else w) := by
  cases b with
  | false => cases w <;> rfl
  | true => cases w <;> rfl

/-- A rule against the rest, one letter further. -/
theorem longer_step (v : ν) (n : Option ℕ) (m : Option (ℕ × ν)) (b : Bool) (w : Option ν) :
    longer v ((n.map (· + 1)).or (if b then some 0 else none)) ((shift 1 m).or (here w)) =
      (shift 1 (longer v n m)).or (here (if b then some v else w)) := by
  rcases n with _ | n
  · rcases m with _ | ⟨k, u⟩
    · exact longer_here v b w
    · cases b with
      | false => rfl
      | true =>
        simp only [Option.map_none, Option.none_or, if_true, shift_some, Option.some_or, longer]
        rw [if_neg (by omega)]
  · rcases m with _ | ⟨k, u⟩
    · cases w with
      | none => simp [longer, Nat.add_comm]
      | some u => simp [longer, Nat.add_comm]
    · simp only [Option.map_some, Option.some_or, shift_some, longer]
      by_cases h : k ≤ n
      · rw [if_pos h, if_pos (by omega), shift_some, Option.some_or, Nat.add_comm]
      · rw [if_neg h, if_neg (by omega), shift_some, Option.some_or]

variable {next accept}

theorem longest_cons (q : σ) (a : α) (l : List α) : longest next accept q (a :: l) =
    (((next q a).bind fun q' => longest next accept q' l).map (· + 1)).or
      (if accept q then some 0 else none) := by
  rw [longest]
  cases (next q a).bind fun q' => longest next accept q' l with
  | none => rfl
  | some n => rfl

/-- A rule that is stuck loses against the rest. -/
theorem race_advance (p : ν × σ) (conf : List (ν × σ)) (a : α) (l : List α) :
    race next accept (advance next (p :: conf) a) l =
      longer p.1 ((next p.2 a).bind fun q => longest next accept q l)
        (race next accept (advance next conf a) l) := by
  unfold advance
  rw [List.filterMap_cons]
  cases next p.2 a with
  | none => rfl
  | some q => rfl

theorem race_nil : ∀ conf : List (ν × σ), race next accept conf [] = here (winner accept conf)
  | [] => rfl
  | p :: conf => by rw [race, race_nil conf, longest, winner, longer_here]

theorem race_step (a : α) (l : List α) : ∀ conf : List (ν × σ), race next accept conf (a :: l) =
    (shift 1 (race next accept (advance next conf a) l)).or (here (winner accept conf))
  | [] => rfl
  | p :: conf => by rw [race, race_step a l conf, longest_cons, longer_step, race_advance, winner]

/-- **The product**: the rules run side by side. -/
theorem munch_product : ∀ (l : List α) (conf : List (ν × σ)),
    munch (advance next) (winner accept) conf l = race next accept conf l
  | [], conf => by rw [munch, race_nil]
  | a :: l, conf => by rw [munch, race_step, munch_product l]

/-- A rule of a scanner with a name for its action, and the state in which it begins. -/
def Named (next : σ → α → Option σ) (accept : σ → Bool) (action : ν → List α → Option τ) (r : Rule α τ)
    (p : ν × σ) : Prop :=
  r.size = longest next accept p.2 ∧ r.action = action p.1

/-- **The rules as one automaton**: the winner of `best` is the verdict of the product. -/
theorem best_eq_munch {action : ν → List α → Option τ} {rules : List (Rule α τ)} {named : List (ν × σ)}
    (h : List.Forall₂ (Named next accept action) rules named) (l : List α) :
    ((best rules l).map fun b => (b.1, b.2.action)) =
      (munch (advance next) (winner accept) named l).map fun m => (m.1, action m.2) := by
  rw [munch_product]
  induction h with
  | nil => rfl
  | @cons r p rules named hr h ih =>
    obtain ⟨hsize, haction⟩ := hr
    rw [race, best, ← hsize]
    cases hrest : race next accept named l with
    | none =>
      rw [hrest, Option.map_none, Option.map_eq_none_iff] at ih
      cases r.size l with
      | none => simp [ih, longer]
      | some n => simp [ih, longer, haction]
    | some m =>
      obtain ⟨k, w⟩ := m
      rw [hrest, Option.map_some, Option.map_eq_some_iff] at ih
      obtain ⟨b, hb, hbm⟩ := ih
      obtain ⟨n', r'⟩ := b
      simp only [Prod.mk.injEq] at hbm
      obtain ⟨rfl, hact⟩ := hbm
      cases r.size l with
      | none => simp [hb, longer, hact]
      | some n =>
        by_cases hle : n' ≤ n
        · simp [hb, longer, hle, haction]
        · simp [hb, longer, hle, hact]

end Race

end Eecs678.Lib.Automata
