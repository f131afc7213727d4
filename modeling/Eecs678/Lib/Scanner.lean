import Mathlib.Order.Basic
import Mathlib.Algebra.Order.Ring.Nat
import Mathlib.Data.List.Basic

/-!
# Scanners

A scanner cuts its input into pieces by rules. A rule says how long its longest match at the start of
the input is; of the rules the one with the longest match wins, the first of several (`best`). `longest`
is the longest match of an automaton. `scan` has as many rounds as its input is long, and more rounds
change nothing when no rule matches the empty word (`scan_eq`).
-/

namespace Eecs678.Lib.Scanner

variable {α σ τ : Type}

/-! ### Automata -/

/-- The length of the longest prefix that leads from the state to an accepting one. -/
def longest (step : σ → α → Option σ) (accept : σ → Bool) : σ → List α → Option ℕ
  | q, [] => if accept q then some 0 else none
  | q, a :: l =>
    match (step q a).bind fun q' => longest step accept q' l with
    | some n => some (n + 1)
    | none => if accept q then some 0 else none

/-- The word leads from the state to an accepting one. -/
def Accepts (step : σ → α → Option σ) (accept : σ → Bool) : σ → List α → Prop
  | q, [] => accept q = true
  | q, a :: l => ∃ q', step q a = some q' ∧ Accepts step accept q' l

variable {step : σ → α → Option σ} {accept : σ → Bool}

/-- The longest match is a prefix that is accepted. -/
theorem longest_sound : ∀ {l : List α} {q : σ} {n : ℕ}, longest step accept q l = some n →
    n ≤ l.length ∧ Accepts step accept q (l.take n)
  | [], q, n, h => by
    unfold longest at h
    split at h
    · next ha =>
      cases h
      exact ⟨le_rfl, ha⟩
    · cases h
  | a :: l, q, n, h => by
    unfold longest at h
    split at h
    · next k hk =>
      cases h
      obtain ⟨q', hs, hl⟩ := Option.bind_eq_some_iff.mp hk
      obtain ⟨h1, h2⟩ := longest_sound hl
      exact ⟨Nat.succ_le_succ h1, q', hs, h2⟩
    · split at h
      · next ha =>
        cases h
        exact ⟨Nat.zero_le _, ha⟩
      · cases h

/-- **No longer prefix** is accepted. -/
theorem longest_complete : ∀ {l : List α} {q : σ} {m : ℕ}, m ≤ l.length →
    Accepts step accept q (l.take m) → ∃ n, longest step accept q l = some n ∧ m ≤ n
  | [], q, m, hm, h => by
    rw [List.take_nil] at h
    exact ⟨0, if_pos h, hm⟩
  | a :: l, q, 0, _, h => by
    unfold longest
    split
    · exact ⟨_, rfl, Nat.zero_le _⟩
    · exact ⟨0, if_pos h, le_rfl⟩
  | a :: l, q, m + 1, hm, h => by
    rw [List.take_succ_cons] at h
    obtain ⟨q', hs, h⟩ := h
    obtain ⟨n, hn, hmn⟩ := longest_complete (Nat.le_of_succ_le_succ hm) h
    refine ⟨n + 1, ?_, Nat.succ_le_succ hmn⟩
    unfold longest
    rw [hs, Option.bind_some, hn]

/-! ### Rules -/

/-- A rule: how long its longest match is, and what it makes of the matched text. -/
structure Rule (α τ : Type) where
  size : List α → Option ℕ
  action : List α → Option τ

/-- The longest match; of several the one of the first rule. -/
def best : List (Rule α τ) → List α → Option (ℕ × Rule α τ)
  | [], _ => none
  | r :: rs, input =>
    match r.size input, best rs input with
    | none, b => b
    | some n, none => some (n, r)
    | some n, some (m, r') => if m ≤ n then some (n, r) else some (m, r')

/-- The tokens of the input, for a number of rounds; what no rule matches is passed over. -/
def scan (rules : List (Rule α τ)) : ℕ → List α → List τ
  | 0, _ => []
  | _ + 1, [] => []
  | n + 1, a :: l =>
    match best rules (a :: l) with
    | none => scan rules n l
    | some (m, r) => (r.action ((a :: l).take m)).toList ++ scan rules n ((a :: l).drop m)

/-- No rule matches the empty word. -/
def Positive (rules : List (Rule α τ)) : Prop :=
  ∀ r ∈ rules, ∀ input n, r.size input = some n → 0 < n

theorem best_pos {rules : List (Rule α τ)} (h : Positive rules) {input : List α} {n : ℕ} {r : Rule α τ} :
    best rules input = some (n, r) → 0 < n := by
  induction rules generalizing n r with
  | nil =>
    intro hb
    cases hb
  | cons r' rs ih =>
    have ih' := @ih (fun x hx => h x (List.mem_cons_of_mem _ hx))
    have hpos := h r' List.mem_cons_self input
    intro hb
    unfold best at hb
    cases hsize : r'.size input with
    | none =>
      rw [hsize] at hb
      exact ih' hb
    | some k =>
      rw [hsize] at hb
      cases hbest : best rs input with
      | none =>
        rw [hbest] at hb
        cases hb
        exact hpos _ hsize
      | some p =>
        rw [hbest] at hb
        obtain ⟨m, r''⟩ := p
        simp only at hb
        split at hb
        · cases hb
          exact hpos _ hsize
        · cases hb
          exact ih' hbest

/-- **Enough rounds**: one for each letter. -/
theorem scan_eq {rules : List (Rule α τ)} (h : Positive rules) : ∀ {n m : ℕ} {input : List α},
    input.length ≤ n → input.length ≤ m → scan rules n input = scan rules m input
  | 0, 0, input, _, _ => rfl
  | 0, m + 1, input, hn, _ => by
    rw [List.eq_nil_of_length_eq_zero (Nat.le_zero.mp hn)]
    rfl
  | n + 1, 0, input, _, hm => by
    rw [List.eq_nil_of_length_eq_zero (Nat.le_zero.mp hm)]
    rfl
  | n + 1, m + 1, [], _, _ => rfl
  | n + 1, m + 1, a :: l, hn, hm => by
    rw [List.length_cons] at hn hm
    unfold scan
    cases hb : best rules (a :: l) with
    | none => exact scan_eq h (by omega) (by omega)
    | some p =>
      obtain ⟨k, r⟩ := p
      have hk := best_pos h hb
      have hlen : ((a :: l).drop k).length ≤ l.length := by
        rw [List.length_drop, List.length_cons]
        omega
      simp only
      rw [scan_eq h (n := n) (m := m) (by omega) (by omega)]

/-! ### Tokens -/

theorem best_mem {rules : List (Rule α τ)} {input : List α} {n : ℕ} {r : Rule α τ} :
    best rules input = some (n, r) → r ∈ rules ∧ r.size input = some n := by
  induction rules generalizing n r with
  | nil =>
    intro hb
    cases hb
  | cons r' rs ih =>
    intro hb
    unfold best at hb
    split at hb
    · obtain ⟨hmem, hsize⟩ := ih hb
      exact ⟨List.mem_cons_of_mem _ hmem, hsize⟩
    · next hsize _ =>
      cases hb
      exact ⟨List.mem_cons_self, hsize⟩
    · next hsize hbest =>
      split at hb
      · cases hb
        exact ⟨List.mem_cons_self, hsize⟩
      · cases hb
        obtain ⟨hmem, hsize'⟩ := ih hbest
        exact ⟨List.mem_cons_of_mem _ hmem, hsize'⟩

/-- **Where a token comes from**: a rule made it of its longest match in some place of the input. -/
theorem mem_scan {rules : List (Rule α τ)} {t : τ} : ∀ {n : ℕ} {input : List α},
    t ∈ scan rules n input → ∃ r ∈ rules, ∃ l m, r.size l = some m ∧ r.action (l.take m) = some t
  | 0, input, h => absurd h List.not_mem_nil
  | n + 1, [], h => absurd h List.not_mem_nil
  | n + 1, a :: l, h => by
    unfold scan at h
    split at h
    · exact mem_scan h
    · next m r hb =>
      rcases List.mem_append.mp h with h | h
      · obtain ⟨hmem, hsize⟩ := best_mem hb
        exact ⟨r, hmem, a :: l, m, hsize, Option.mem_toList.mp h⟩
      · exact mem_scan h

/-! ### Where the scanner goes on -/

/-- One match and what is behind it. -/
theorem scan_best {rules : List (Rule α τ)} (h : Positive rules) {input : List α} {n : ℕ} {r : Rule α τ}
    (hb : best rules input = some (n, r)) (hne : input ≠ []) :
    scan rules input.length input =
      (r.action (input.take n)).toList ++ scan rules (input.drop n).length (input.drop n) := by
  obtain ⟨a, l, rfl⟩ := List.exists_cons_of_ne_nil hne
  have hpos := best_pos h hb
  have hlen : ((a :: l).drop n).length ≤ l.length := by
    rw [List.length_drop, List.length_cons]
    omega
  rw [List.length_cons, scan, hb]
  exact congrArg _ (scan_eq h hlen le_rfl)

theorem best_le {rules : List (Rule α τ)} {input : List α} {n : ℕ}
    (hle : ∀ r ∈ rules, ∀ m, r.size input = some m → m ≤ n) {m : ℕ} {r : Rule α τ}
    (hb : best rules input = some (m, r)) : m ≤ n :=
  hle r (best_mem hb).1 m (best_mem hb).2

/-- **The first of the longest matches.** When no match is longer than the one of `r₀`, the best is `r₀` or a
rule in front of it with a match as long. -/
theorem best_of_longest {pre post : List (Rule α τ)} {r₀ : Rule α τ} {input : List α} {n : ℕ}
    (h₀ : r₀.size input = some n)
    (hle : ∀ r ∈ pre ++ r₀ :: post, ∀ m, r.size input = some m → m ≤ n) :
    ∃ r ∈ pre ++ [r₀], r.size input = some n ∧ best (pre ++ r₀ :: post) input = some (n, r) := by
  induction pre with
  | nil =>
    refine ⟨r₀, List.mem_cons_self, h₀, ?_⟩
    rw [List.nil_append] at hle ⊢
    unfold best
    rw [h₀]
    cases hbest : best post input with
    | none => rfl
    | some x =>
      have hm := best_le (fun r hr => hle r (List.mem_cons_of_mem _ hr)) hbest
      exact if_pos hm
  | cons r pre ih =>
    obtain ⟨r', hr', hsize, hbest⟩ := ih fun x hx => hle x (List.mem_cons_of_mem _ hx)
    have hfirst := hle r List.mem_cons_self
    simp only [List.cons_append, best, hbest]
    cases hr : r.size input with
    | none => exact ⟨r', List.mem_cons_of_mem _ hr', hsize, rfl⟩
    | some m =>
      by_cases hn : n ≤ m
      · obtain rfl : m = n := le_antisymm (hfirst m hr) hn
        exact ⟨r, List.mem_cons_self, hr, if_pos hn⟩
      · exact ⟨r', List.mem_cons_of_mem _ hr', hsize, if_neg hn⟩

end Eecs678.Lib.Scanner
