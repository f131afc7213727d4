import Mathlib.Data.List.TakeWhile
import Eecs678.Lib.Machine

/-!
# Parsers with tables

The automaton of a generated LALR parser, with its tables and the actions of the rules as parameters. Its
state is the stack of states and values, the tokens that are left, whether the first of them has been
read already, and how many tokens have still to be shifted before an error is reported again. `advance`
is what is done between two pushes of a state, and `step` gives up when the stack is full.

`Leads` is about runs whatever the flag of the lookahead is. A `Certificate` says which states may stand
on one another; `Inv.advance` keeps the stack along it, so no reduction finds too few values, and bounds
its depth by the number of the tokens up to the first that ends the input (`step_eq`).
-/

namespace Eecs678.Lib.TableParser

open Eecs678.Lib.Machine

/-! ### The automaton -/

structure Tables where
  pact : List ℤ
  defact : List ℕ
  pgoto : List ℤ
  defgoto : List ℤ
  table : List ℤ
  check : List ℤ
  r1 : List ℕ
  r2 : List ℕ
  ninf : ℤ
  last : ℤ
  final : ℕ
  ntokens : ℕ
  terror : ℕ
  maxdepth : ℕ

inductive Decision
  | shift (state : ℕ)
  | reduce (rule : ℕ)
  | error
deriving DecidableEq, Repr

/-- The entry at an index that is not negative. -/
def entry (l : List ℤ) (i : ℤ) : ℤ := l.getD i.toNat 0

namespace Tables

variable (T : Tables)

/-- The default of a state. -/
def default (q : ℕ) : Decision :=
  if T.defact.getD q 0 = 0 then .error else .reduce (T.defact.getD q 0)

/-- The state decides without a token. -/
def blind (q : ℕ) : Bool := T.pact.getD q 0 == T.ninf

/-- What the state does on a token. -/
def action (q token : ℕ) : Decision :=
  let n := T.pact.getD q 0 + token
  if T.blind q then T.default q
  else if n < 0 ∨ T.last < n ∨ entry T.check n ≠ token then T.default q
  else if entry T.table n ≤ 0 then .reduce (-entry T.table n).toNat
  else .shift (entry T.table n).toNat

/-- The state after a reduction by the rule that uncovers the state `p`. -/
def goto (rule p : ℕ) : ℕ :=
  let lhs := T.r1.getD rule 0 - T.ntokens
  let i := T.pgoto.getD lhs 0 + p
  (if 0 ≤ i ∧ i ≤ T.last ∧ entry T.check i = p then entry T.table i else T.defgoto.getD lhs 0).toNat

/-- The state after the error token, where the state can shift it. -/
def errorShift (q : ℕ) : Option ℕ :=
  let n := T.pact.getD q 0 + T.terror
  if T.blind q then none
  else if 0 ≤ n ∧ n ≤ T.last ∧ entry T.check n = T.terror ∧ 0 < entry T.table n
    then some (entry T.table n).toNat
  else none

end Tables

/-- What the action of a rule does: it gives a value, ends the parse or the process. -/
inductive Effect (ν ρ : Type)
  | value (v : ν)
  | done (accepted : Bool) (result : ρ)
  | crash

/-- The tokens and the rules, `none` for the token at the end of the input. An action finds the values of
its rule on the stack, the last one first. -/
structure Semantics (τ ν ρ : Type) where
  symbol : Option τ → ℕ
  lval : Option τ → ν
  act : ℕ → List ν → Effect ν ρ

structure Config (τ ν : Type) where
  stack : List (ℕ × ν)
  tokens : List τ
  peeked : Bool
  errstatus : ℕ

inductive Status (τ ν ρ : Type)
  | running (c : Config τ ν)
  | returned (accepted : Bool) (result : Option ρ) (unread : List τ)
  | exhausted
  | crashed

variable {τ ν ρ : Type} (T : Tables) (S : Semantics τ ν ρ)

/-- The state on top. -/
def top (stack : List (ℕ × ν)) : ℕ := (stack.head?.map Prod.fst).getD 0

@[simp] theorem top_cons (q : ℕ) (v : ν) (stack : List (ℕ × ν)) : top ((q, v) :: stack) = q := rfl

/-- The tokens that the scanner has not been asked for. -/
def unread (tokens : List τ) (peeked : Bool) : List τ := if peeked then tokens.tail else tokens

/-- States are popped until one can shift the error token. -/
def popToError : List (ℕ × ν) → Option (ℕ × List (ℕ × ν))
  | [] => none
  | e :: stack =>
    match T.errorShift e.1 with
    | some q => some (q, e :: stack)
    | none => popToError stack

/-- A syntax error. After an error without a shift the token is discarded. -/
def syntaxError (c : Config τ ν) : Status τ ν ρ :=
  let discard := c.errstatus = 3 ∧ c.peeked
  let tokens := if discard then c.tokens.tail else c.tokens
  let peeked := if discard then false else c.peeked
  match popToError T c.stack with
  | some (q, stack) => .running ⟨(q, S.lval c.tokens.head?) :: stack, tokens, peeked, 3⟩
  | none => .returned false none (unread tokens peeked)

/-- From one push of a state to the next. -/
def advance (c : Config τ ν) : Status τ ν ρ :=
  let peeked := c.peeked || !T.blind (top c.stack)
  if top c.stack = T.final then .returned true none (unread c.tokens c.peeked)
  else
    match T.action (top c.stack) (S.symbol c.tokens.head?) with
    | .shift q => .running ⟨(q, S.lval c.tokens.head?) :: c.stack, c.tokens.tail, false, c.errstatus - 1⟩
    | .reduce n =>
      match S.act n (c.stack.map Prod.snd) with
      | .value v =>
        let stack := c.stack.drop (T.r2.getD n 0)
        .running ⟨(T.goto n (top stack), v) :: stack, c.tokens, peeked, c.errstatus⟩
      | .done accepted result => .returned accepted (some result) (unread c.tokens peeked)
      | .crash => .crashed
    | .error => syntaxError T S { c with peeked := peeked }

/-- The automaton with a stack that cannot be filled. -/
def next : Status τ ν ρ → Status τ ν ρ
  | .running c => advance T S c
  | s => s

/-- The automaton. -/
def step : Status τ ν ρ → Status τ ν ρ
  | .running c => if T.maxdepth ≤ c.stack.length then .exhausted else advance T S c
  | s => s

def start (tokens : List τ) : Status τ ν ρ := .running ⟨[(0, S.lval none)], tokens, false, 0⟩

/-! ### Runs without an error -/

variable {T S} {stack : List (ℕ × ν)} {tokens : List τ} {P Q : Status τ ν ρ → Prop}

/-- From the stack and the tokens the run gets to a status with the property. -/
def Leads (T : Tables) (S : Semantics τ ν ρ) (stack : List (ℕ × ν)) (tokens : List τ)
    (P : Status τ ν ρ → Prop) : Prop :=
  ∀ peeked, Eventually (next T S) P (.running ⟨stack, tokens, peeked, 0⟩)

/-- The automaton runs on, with this stack and these tokens. -/
def At (stack : List (ℕ × ν)) (tokens : List τ) (s : Status τ ν ρ) : Prop :=
  ∃ peeked, s = .running ⟨stack, tokens, peeked, 0⟩

theorem eventually_bind {σ : Type} {f : σ → σ} {p q : σ → Prop} {s : σ} (h : Eventually f p s)
    (hq : ∀ t, p t → Eventually f q t) : Eventually f q s := by
  obtain ⟨n, hn⟩ := h
  exact eventually_iterate (k := n) (hq _ hn)

theorem leads_refl : Leads T S stack tokens (At stack tokens) :=
  fun peeked => eventually_now ⟨peeked, rfl⟩

theorem leads_trans {stack' : List (ℕ × ν)} {tokens' : List τ} (h : Leads T S stack tokens (At stack' tokens'))
    (h' : Leads T S stack' tokens' P) : Leads T S stack tokens P := by
  intro peeked
  refine eventually_bind (h peeked) ?_
  rintro t ⟨peeked', rfl⟩
  exact h' peeked'

theorem leads_shift {q q' : ℕ} {v : ν} (hq : q ≠ T.final)
    (h : T.action q (S.symbol tokens.head?) = .shift q') :
    Leads T S ((q, v) :: stack) tokens
      (At ((q', S.lval tokens.head?) :: (q, v) :: stack) tokens.tail) := by
  intro peeked
  refine ⟨1, false, ?_⟩
  have htop : top ((q, v) :: stack) = q := rfl
  simp only [Function.iterate_one, next, advance, htop, if_neg hq, h]

theorem leads_reduce {q n : ℕ} {v v' : ν} (hq : q ≠ T.final)
    (h : T.action q (S.symbol tokens.head?) = .reduce n)
    (hact : S.act n (((q, v) :: stack).map Prod.snd) = .value v') :
    Leads T S ((q, v) :: stack) tokens
      (At ((T.goto n (top (((q, v) :: stack).drop (T.r2.getD n 0))), v') ::
        ((q, v) :: stack).drop (T.r2.getD n 0)) tokens) := by
  intro peeked
  refine ⟨1, peeked || !T.blind q, ?_⟩
  have htop : top ((q, v) :: stack) = q := rfl
  simp only [Function.iterate_one, next, advance, htop, if_neg hq, h, hact]

theorem leads_crash {q n : ℕ} {v : ν} (hq : q ≠ T.final)
    (h : T.action q (S.symbol tokens.head?) = .reduce n)
    (hact : S.act n (((q, v) :: stack).map Prod.snd) = .crash) :
    Leads T S ((q, v) :: stack) tokens (· = .crashed) := by
  intro peeked
  refine ⟨1, ?_⟩
  have htop : top ((q, v) :: stack) = q := rfl
  simp only [Function.iterate_one, next, advance, htop, if_neg hq, h, hact]

/-! ### Errors -/

/-- The first error: the tokens are kept. -/
theorem next_error {c : Config τ ν} {q : ℕ} {stack' : List (ℕ × ν)} (hfinal : top c.stack ≠ T.final)
    (ha : T.action (top c.stack) (S.symbol c.tokens.head?) = .error)
    (hpop : popToError T c.stack = some (q, stack')) (herr : c.errstatus ≠ 3) :
    next T S (.running c) =
      .running ⟨(q, S.lval c.tokens.head?) :: stack', c.tokens, c.peeked || !T.blind (top c.stack), 3⟩ := by
  simp only [next, advance, if_neg hfinal, ha, syntaxError, hpop, herr, false_and, if_false]

/-- An error right after an error: the token is discarded. -/
theorem next_discard {c : Config τ ν} {q : ℕ} {stack' : List (ℕ × ν)} (hfinal : top c.stack ≠ T.final)
    (ha : T.action (top c.stack) (S.symbol c.tokens.head?) = .error)
    (hpop : popToError T c.stack = some (q, stack')) (herr : c.errstatus = 3)
    (hblind : T.blind (top c.stack) = false) :
    next T S (.running c) = .running ⟨(q, S.lval c.tokens.head?) :: stack', c.tokens.tail, false, 3⟩ := by
  simp only [next, advance, if_neg hfinal, ha, syntaxError, hpop, herr, hblind, Bool.not_false,
    Bool.or_true, and_self, if_true]

/-! ### Certificates -/

/-- The states that can be uncovered by `k` pops satisfy the test, and there are so many. -/
def popsTo (edges : List (ℕ × ℕ)) (test : ℕ → Bool) : ℕ → ℕ → Bool
  | 0, q => test q
  | k + 1, q => q != 0 && edges.all fun e => e.2 != q || popsTo edges test k e.1

/-- Which state may stand on which (`edges`), where the input ends (`endings`, after the symbols `stops`),
the states after an error (`recovering`), and by how much the stack may be deeper than what has been
shifted, in each state. -/
structure Certificate where
  edges : List (ℕ × ℕ)
  states : List ℕ
  endings : List ℕ
  stops : List ℕ
  recovering : List ℕ
  slack : ℕ → ℕ
  maxSlack : ℕ

namespace Certificate

variable (C : Certificate) (T : Tables)

/-- What a state does on a symbol keeps the stack along the edges, and its depth. -/
def entryOk (q token : ℕ) : Bool :=
  match T.action q token with
  | .shift q' => C.edges.contains (q, q') && !C.endings.contains q &&
      if C.stops.contains token then C.endings.contains q' && decide (C.slack q + 1 ≤ C.maxSlack)
      else !C.recovering.contains q && decide (C.slack q ≤ C.slack q')
  | .reduce n => (C.endings.contains q || !C.recovering.contains q) &&
      popsTo C.edges (fun p => C.endings.contains q || C.edges.contains (p, T.goto n p) &&
        decide (C.slack q + 1 ≤ T.r2.getD n 0 + C.slack (T.goto n p))) (T.r2.getD n 0) q
  | .error => !C.endings.contains q && !(C.recovering.contains q && C.stops.contains token) &&
      C.recovering.all (fun q' => decide (C.slack q ≤ C.slack q')) &&
      (T.errorShift q).all fun q' => decide (C.slack q + 1 ≤ C.slack q')

/-- The error token is shifted along the edges too. -/
def errorOk (q : ℕ) : Bool :=
  (T.errorShift q).all fun q' => C.edges.contains (q, q') && C.recovering.contains q'

/-- The tables follow the certificate. -/
structure Valid : Prop where
  start : 0 ∈ C.states ∧ 0 ∉ C.endings
  edges : ∀ e ∈ C.edges, e.2 ∈ C.states ∧ e.2 ≠ 0
  entries : ∀ q ∈ C.states, ∀ token < T.ntokens, C.entryOk T q token
  errors : ∀ q ∈ C.states, C.errorOk T q
  slack : ∀ q ∈ C.states, C.slack q ≤ C.maxSlack

/-- `Valid`, computed. -/
def check : Bool :=
  C.states.contains 0 && !C.endings.contains 0 && C.edges.all (fun e => C.states.contains e.2 && e.2 != 0) &&
    C.states.all fun q => (List.range T.ntokens).all (C.entryOk T q) && C.errorOk T q &&
      decide (C.slack q ≤ C.maxSlack)

theorem valid_of_check (h : C.check T) : C.Valid T := by
  simp only [check, Bool.and_eq_true, List.all_eq_true, List.contains_iff_mem, Bool.not_eq_true',
    List.mem_range, decide_eq_true_eq, bne_iff_ne, ← Bool.not_eq_true] at h
  obtain ⟨⟨⟨hmem, hending⟩, hedges⟩, hstates⟩ := h
  exact ⟨⟨hmem, hending⟩, hedges, fun q hq => (hstates q hq).1.1, fun q hq => (hstates q hq).1.2,
    fun q hq => (hstates q hq).2⟩

/-- The tokens before the first that ends the input. -/
def budget (symbol : Option τ → ℕ) (tokens : List τ) : ℕ :=
  (tokens.takeWhile fun t => !C.stops.contains (symbol (some t))).length

/-- Each state stands on one that it may stand on, down to the first one. -/
def Path : List (ℕ × ν) → Prop
  | [] => False
  | [e] => e.1 = 0
  | e :: e' :: stack => (e'.1, e.1) ∈ C.edges ∧ Path (e' :: stack)

/-- What the run keeps: `n` is the number of the tokens at its start. -/
structure Inv (S : Semantics τ ν ρ) (n : ℕ) (c : Config τ ν) : Prop where
  path : C.Path c.stack
  error : c.errstatus ≠ 0 → top c.stack ∈ C.recovering ∨ top c.stack ∈ C.endings
  room : top c.stack ∉ C.endings →
    c.stack.length + C.budget S.symbol c.tokens ≤ n + 1 + C.slack (top c.stack)
  depth : c.stack.length ≤ n + 1 + C.maxSlack

end Certificate

variable {C : Certificate}

theorem path_states (h : C.Valid T) : ∀ {stack : List (ℕ × ν)}, C.Path stack →
    top stack ∈ C.states
  | [e], hp => by
    have htop : top [e] = 0 := hp
    rw [htop]
    exact h.start.1
  | e :: e' :: stack, hp => (h.edges _ hp.1).1

/-- **No underflow**: what the certificate says of the pops holds on every path. -/
theorem path_pops (h : C.Valid T) {test : ℕ → Bool} : ∀ {k : ℕ} {stack : List (ℕ × ν)},
    C.Path stack → popsTo C.edges test k (top stack) →
      k < stack.length ∧ C.Path (stack.drop k) ∧ test (top (stack.drop k))
  | 0, e :: stack, hp, ht => ⟨Nat.succ_pos _, hp, ht⟩
  | k + 1, [e], hp, ht => by
    have htop : top [e] = 0 := hp
    rw [htop] at ht
    cases ht
  | k + 1, e :: e' :: stack, hp, ht => by
    rw [popsTo, Bool.and_eq_true, List.all_eq_true] at ht
    have hedge := ht.2 _ hp.1
    have htop : top (e :: e' :: stack) = e.1 := rfl
    rw [htop, bne_self_eq_false, Bool.false_or] at hedge
    obtain ⟨h1, h2, h3⟩ := path_pops h hp.2 hedge
    exact ⟨Nat.succ_lt_succ h1, h2, h3⟩

theorem path_cons {q : ℕ} {v : ν} {stack : List (ℕ × ν)} (h : C.Path stack)
    (hedge : (top stack, q) ∈ C.edges) : C.Path ((q, v) :: stack) := by
  cases stack with
  | nil => exact h.elim
  | cons e stack => exact ⟨hedge, h⟩

/-- Popping for the error token. -/
theorem path_popToError (h : C.Valid T) {q : ℕ} {v : ν} : ∀ {stack stack' : List (ℕ × ν)},
    C.Path stack → popToError T stack = some (q, stack') →
      C.Path ((q, v) :: stack') ∧ q ∈ C.recovering ∧
        (stack'.length < stack.length ∨ stack'.length = stack.length ∧ T.errorShift (top stack) = some q)
  | e :: stack, stack', hp, hpop => by
    unfold popToError at hpop
    have htop : top (e :: stack) = e.1 := rfl
    cases he : T.errorShift e.1 with
    | some q' =>
      simp only [he, Option.some.injEq, Prod.mk.injEq] at hpop
      obtain ⟨rfl, rfl⟩ := hpop
      have hok := h.errors _ (path_states h hp)
      rw [Certificate.errorOk, htop, he, Option.all_some, Bool.and_eq_true, List.contains_iff_mem,
        List.contains_iff_mem] at hok
      exact ⟨path_cons hp hok.1, hok.2, Or.inr ⟨rfl, htop ▸ he⟩⟩
    | none =>
      simp only [he] at hpop
      cases stack with
      | nil => cases hpop
      | cons e' stack =>
        obtain ⟨h1, h2, h3⟩ := path_popToError h hp.2 hpop
        refine ⟨h1, h2, Or.inl ?_⟩
        rw [List.length_cons]
        omega

/-! ### The depth of the stack -/

variable {n : ℕ} {c : Config τ ν}

theorem budget_cons {t : τ} {tokens : List τ} (h : S.symbol (some t) ∉ C.stops) :
    C.budget S.symbol (t :: tokens) = C.budget S.symbol tokens + 1 := by
  have hstop : (!C.stops.contains (S.symbol (some t))) = true := by
    rw [Bool.not_eq_true', ← Bool.not_eq_true, List.contains_iff_mem]
    exact h
  rw [Certificate.budget, List.takeWhile_cons, if_pos hstop, List.length_cons]
  rfl

/-- What the certificate needs of the tokens and the actions: symbols of tokens, an end of the input that
stops, and actions that end the parse in the endings. -/
structure Suits (C : Certificate) (T : Tables) (S : Semantics τ ν ρ) : Prop where
  symbol : ∀ t, S.symbol t < T.ntokens
  stops : S.symbol none ∈ C.stops
  endings : ∀ q ∈ C.endings, ∀ token k, T.action q token = .reduce k → ∀ vs v, S.act k vs ≠ .value v

theorem symbol_cons (hs : Suits C T S) {tokens : List τ} (h : S.symbol tokens.head? ∉ C.stops) :
    ∃ t rest, tokens = t :: rest := by
  cases tokens with
  | nil => exact absurd hs.stops h
  | cons t rest => exact ⟨t, rest, rfl⟩

theorem shift_inv (h : C.Valid T) (hs : Suits C T S) (hc : C.Inv S n c) {q : ℕ}
    (ha : T.action (top c.stack) (S.symbol c.tokens.head?) = .shift q) :
    C.Inv S n ⟨(q, S.lval c.tokens.head?) :: c.stack, c.tokens.tail, false, c.errstatus - 1⟩ := by
  have hok := h.entries _ (path_states h hc.path) _ (hs.symbol c.tokens.head?)
  rw [Certificate.entryOk, ha] at hok
  simp only [Bool.and_eq_true, List.contains_iff_mem, Bool.not_eq_true', ← Bool.not_eq_true] at hok
  obtain ⟨⟨hedge, hending⟩, hrest⟩ := hok
  have hroom := hc.room hending
  have herror : c.errstatus ≠ 0 → top c.stack ∈ C.recovering := fun he =>
    (hc.error he).resolve_right hending
  have hslack := h.slack _ (path_states h hc.path)
  by_cases hstop : S.symbol c.tokens.head? ∈ C.stops
  · rw [if_pos hstop, Bool.and_eq_true, List.contains_iff_mem, decide_eq_true_eq] at hrest
    refine ⟨path_cons hc.path hedge, fun _ => Or.inr hrest.1, fun hne => absurd hrest.1 hne, ?_⟩
    simp only [List.length_cons]
    omega
  · rw [if_neg hstop, Bool.and_eq_true, Bool.not_eq_true', ← Bool.not_eq_true, List.contains_iff_mem,
      decide_eq_true_eq] at hrest
    obtain ⟨t, rest, ht⟩ := symbol_cons hs hstop
    rw [ht, List.head?_cons] at hstop
    rw [ht, budget_cons hstop] at hroom
    have hmax := h.slack _ (h.edges _ hedge).1
    refine ⟨path_cons hc.path hedge, fun he => ?_, fun _ => ?_, ?_⟩
    · exact absurd (herror (by simp only at he; omega)) hrest.1
    · simp only [top_cons, List.length_cons, ht, List.tail_cons]
      omega
    · simp only [List.length_cons]
      simp only at hmax
      omega

theorem reduce_inv (h : C.Valid T) (hs : Suits C T S) (hc : C.Inv S n c) {k : ℕ} {v : ν} (peeked : Bool)
    (ha : T.action (top c.stack) (S.symbol c.tokens.head?) = .reduce k)
    (hact : S.act k (c.stack.map Prod.snd) = .value v) :
    C.Inv S n ⟨(T.goto k (top (c.stack.drop (T.r2.getD k 0))), v) :: c.stack.drop (T.r2.getD k 0),
      c.tokens, peeked, c.errstatus⟩ := by
  have hok := h.entries _ (path_states h hc.path) _ (hs.symbol c.tokens.head?)
  have hending : top c.stack ∉ C.endings := fun hmem => hs.endings _ hmem _ _ ha _ _ hact
  rw [Certificate.entryOk, ha] at hok
  simp only [Bool.or_eq_true, Bool.and_eq_true, List.contains_iff_mem, Bool.not_eq_true',
    ← Bool.not_eq_true] at hok
  have hrecovering := hok.1.resolve_left hending
  obtain ⟨hlen, hpath, htest⟩ := path_pops h hc.path hok.2
  rw [Bool.or_eq_true, Bool.and_eq_true, List.contains_iff_mem, List.contains_iff_mem,
    decide_eq_true_eq] at htest
  replace htest := htest.resolve_left hending
  have hroom := hc.room hending
  have hmax := h.slack _ (h.edges _ htest.1).1
  simp only at hmax
  refine ⟨path_cons hpath htest.1, fun he => ?_, fun _ => ?_, ?_⟩
  · exact absurd ((hc.error he).resolve_right hending) hrecovering
  · simp only [top_cons, List.length_cons, List.length_drop]
    omega
  · simp only [List.length_cons, List.length_drop]
    omega

theorem error_inv (h : C.Valid T) (hs : Suits C T S) (hc : C.Inv S n c) {peeked : Bool}
    (ha : T.action (top c.stack) (S.symbol c.tokens.head?) = .error) {c' : Config τ ν}
    (hr : syntaxError T S { c with peeked := peeked } = .running c') : C.Inv S n c' := by
  have hok := h.entries _ (path_states h hc.path) _ (hs.symbol c.tokens.head?)
  rw [Certificate.entryOk, ha] at hok
  simp only [Bool.and_eq_true, List.contains_iff_mem, Bool.not_eq_true', ← Bool.not_eq_true,
    List.all_eq_true, decide_eq_true_eq, not_and] at hok
  obtain ⟨⟨⟨hending, hstop⟩, hall⟩, herr⟩ := hok
  have hroom := hc.room hending
  have hbudget : C.budget S.symbol (if c.errstatus = 3 ∧ peeked then c.tokens.tail else c.tokens) ≤
      C.budget S.symbol c.tokens := by
    split
    · next hdiscard =>
      have hne : c.errstatus ≠ 0 := by omega
      have hstop' := hstop ((hc.error hne).resolve_right hending)
      obtain ⟨t, rest, ht⟩ := symbol_cons hs hstop'
      rw [ht, List.head?_cons] at hstop'
      rw [ht, List.tail_cons, budget_cons hstop']
      exact Nat.le_succ _
    · exact le_rfl
  unfold syntaxError at hr
  cases hpop : popToError T c.stack with
  | none => simp only [hpop, reduceCtorEq] at hr
  | some p =>
    obtain ⟨q, stack⟩ := p
    simp only [hpop, Status.running.injEq] at hr
    subst hr
    obtain ⟨hpath, hrecovering, hlen⟩ := path_popToError (v := S.lval c.tokens.head?) h hc.path hpop
    have hroom' : stack.length + 1 + C.budget S.symbol c.tokens ≤ n + 1 + C.slack q := by
      have hle := hall q hrecovering
      rcases hlen with hlt | ⟨heq, hshift⟩
      · omega
      · rw [hshift, Option.all_some, decide_eq_true_eq] at herr
        omega
    have hmax := h.slack _ (path_states h hpath)
    rw [top_cons] at hmax
    refine ⟨hpath, fun _ => Or.inl hrecovering, fun _ => ?_, ?_⟩
    · simp only [top_cons, List.length_cons]
      omega
    · simp only [List.length_cons]
      omega

/-- **One step** keeps the stack on a path, and its depth. -/
theorem inv_advance (h : C.Valid T) (hs : Suits C T S) (hc : C.Inv S n c) {c' : Config τ ν}
    (hstep : advance T S c = .running c') : C.Inv S n c' := by
  unfold advance at hstep
  by_cases hfinal : top c.stack = T.final
  · simp only [if_pos hfinal, reduceCtorEq] at hstep
  · simp only [if_neg hfinal] at hstep
    cases ha : T.action (top c.stack) (S.symbol c.tokens.head?) with
    | shift q =>
      simp only [ha, Status.running.injEq] at hstep
      exact hstep ▸ shift_inv h hs hc ha
    | reduce k =>
      simp only [ha] at hstep
      cases hact : S.act k (c.stack.map Prod.snd) with
      | value v =>
        simp only [hact, Status.running.injEq] at hstep
        exact hstep ▸ reduce_inv h hs hc _ ha hact
      | done accepted result => simp only [hact, reduceCtorEq] at hstep
      | crash => simp only [hact, reduceCtorEq] at hstep
    | error =>
      simp only [ha] at hstep
      exact error_inv h hs hc ha hstep

theorem inv_start (S : Semantics τ ν ρ) (tokens : List τ) :
    C.Inv S (C.budget S.symbol tokens) ⟨[(0, S.lval none)], tokens, false, 0⟩ where
  path := rfl
  error hne := absurd rfl hne
  room _ := by
    simp only [List.length_singleton]
    omega
  depth := by
    simp only [List.length_singleton]
    omega

/-- **The run**: the stack stays on a path, and its depth is bounded by the tokens that are read. -/
theorem inv_run (h : C.Valid T) (hs : Suits C T S) (tokens : List τ) : ∀ (k : ℕ) (c : Config τ ν),
    (next T S)^[k] (start S tokens) = .running c → C.Inv S (C.budget S.symbol tokens) c
  | 0, c, hrun => by
    simp only [Function.iterate_zero, id_eq, start, Status.running.injEq] at hrun
    exact hrun ▸ inv_start S tokens
  | k + 1, c, hrun => by
    rw [Function.iterate_succ_apply'] at hrun
    cases hk : (next T S)^[k] (start S tokens) with
    | running c' =>
      rw [hk] at hrun
      exact inv_advance h hs (inv_run h hs tokens k c' hk) hrun
    | returned accepted result rest =>
      rw [hk] at hrun
      cases hrun
    | exhausted =>
      rw [hk] at hrun
      cases hrun
    | crashed =>
      rw [hk] at hrun
      cases hrun

/-- What runs on has not been stopped by the depth of the stack. -/
theorem next_of_step (s : Status τ ν ρ) : ∀ {k : ℕ} {c : Config τ ν},
    (step T S)^[k] s = .running c → (next T S)^[k] s = .running c
  | 0, c, hrun => hrun
  | k + 1, c, hrun => by
    rw [Function.iterate_succ_apply'] at hrun ⊢
    cases hk : (step T S)^[k] s with
    | running c' =>
      rw [hk, step] at hrun
      split at hrun
      · cases hrun
      · rw [next_of_step s hk]
        exact hrun
    | returned accepted result rest =>
      rw [hk] at hrun
      cases hrun
    | exhausted =>
      rw [hk] at hrun
      cases hrun
    | crashed =>
      rw [hk] at hrun
      cases hrun

/-- **No underflow**: a reduction finds the values of its rule, and a state below them. -/
theorem found_of_reduce (h : C.Valid T) (hs : Suits C T S) (hc : C.Inv S n c) {k : ℕ}
    (ha : T.action (top c.stack) (S.symbol c.tokens.head?) = .reduce k) :
    T.r2.getD k 0 < c.stack.length := by
  have hok := h.entries _ (path_states h hc.path) _ (hs.symbol c.tokens.head?)
  rw [Certificate.entryOk, ha] at hok
  simp only [Bool.and_eq_true] at hok
  exact (path_pops h hc.path hok.2).1

/-- A stack that is too deep is never passed. -/
theorem exhausted_of_deep : ∀ {k : ℕ} {s : Status τ ν ρ} {c : Config τ ν},
    (next T S)^[k] s = .running c → T.maxdepth ≤ c.stack.length → ∃ n, (step T S)^[n] s = .exhausted
  | 0, s, c, hrun, hdeep => by
    have hs : s = .running c := hrun
    rw [hs]
    exact ⟨1, if_pos hdeep⟩
  | k + 1, s, c, hrun, hdeep => by
    rw [Function.iterate_succ_apply] at hrun
    obtain ⟨n, hn⟩ := exhausted_of_deep hrun hdeep
    cases s with
    | running c' =>
      by_cases hfull : T.maxdepth ≤ c'.stack.length
      · exact ⟨1, if_pos hfull⟩
      · have hstep : step T S (.running c') = next T S (.running c') := if_neg hfull
        refine ⟨n + 1, ?_⟩
        rw [Function.iterate_succ_apply, hstep, hn]
    | returned accepted result rest => exact ⟨n, hn⟩
    | exhausted => exact ⟨0, rfl⟩
    | crashed => exact ⟨n, hn⟩

/-- **The stack is large enough** for an input that ends within its depth. -/
theorem step_eq (h : C.Valid T) (hs : Suits C T S) {tokens : List τ}
    (hroom : C.budget S.symbol tokens + 1 + C.maxSlack < T.maxdepth) : ∀ k : ℕ,
    (step T S)^[k] (start S tokens) = (next T S)^[k] (start S tokens)
  | 0 => rfl
  | k + 1 => by
    rw [Function.iterate_succ_apply', Function.iterate_succ_apply', step_eq h hs hroom k]
    cases hk : (next T S)^[k] (start S tokens) with
    | running c =>
      have hdepth := (inv_run h hs tokens k c hk).depth
      exact if_neg (by omega)
    | returned accepted result rest => rfl
    | exhausted => rfl
    | crashed => rfl

end Eecs678.Lib.TableParser
