import Eecs678.Fifo.Model

/-!
# What arrives

No byte is lost or changes its place between the two programs (`Conserved`): the consumer prints what the
producer writes. The producer drops a last line that meets the end of the file, and a `read` of
`MAX_LENGTH` bytes makes the consumer store past the end of `str`; without these two the text arrives
(`delivers_iff`).
-/

namespace Eecs678.Fifo.Delivery

open Eecs678.Lib.Scanf Eecs678.Lib.Stdio Eecs678.Lib.Interleaving Eecs678.Fifo.Model

variable {text : List Char} {s t : State} {a : Action}

/-! ### Strings -/

theorem cString_eq {str : List Char} (h : '\x00' ∉ str) : cString str = str := by
  refine List.takeWhile_eq_self_iff.mpr fun c hc => ?_
  have hne : c ≠ '\x00' := fun heq => h (heq ▸ hc)
  simpa using hne

/-- The string in the array, after the terminator is stored. -/
theorem cString_set {data str : List Char} (h : '\x00' ∉ data) (hlen : data.length < str.length) :
    cString ((data ++ str.drop data.length).set data.length '\x00') = data := by
  obtain ⟨c, rest, hrest⟩ := List.exists_cons_of_length_pos
    (show 0 < (str.drop data.length).length by rw [List.length_drop]; omega)
  rw [hrest, List.set_append_right _ _ le_rfl, Nat.sub_self, List.set_cons_zero, cString,
    List.takeWhile_append_of_pos fun c hc => by simpa using fun heq : c = '\x00' => h (heq ▸ hc)]
  simp

/-! ### What is under way -/

/-- What the producer is still going to write. -/
def pending (p : Producer) : List Char :=
  match p.pc with
  | .fetch => beforeEof p.stdin
  | .test eof => beforeEof ((p.str, eof) :: p.stdin)
  | .closed => []

/-- The producer has no string with a `NUL` that it is going to write. -/
structure Clean (p : Producer) : Prop where
  stdin : ∀ call ∈ p.stdin, '\x00' ∉ call.1
  str : p.pc = .test false → '\x00' ∉ p.str

/-- What is printed, what is in the FIFO and what is still to be written are the text `total`. -/
structure Conserved (total : List Char) (s : State) : Prop where
  clean : Clean s.producer
  fifo : '\x00' ∉ s.fifo
  str : s.consumer.str.length = maxLength
  total : s.consumer.pc ≠ .undefined → s.consumer.text ++ s.fifo ++ pending s.producer = total
  closed : s.consumer.pc = .closed → s.fifo = [] ∧ s.producer.pc = .closed

/-- **A step of the producer** moves what it writes from what it has still to write. -/
theorem next_pending {p p' : Producer} {data : List Char} (hclean : Clean p)
    (hnext : p.next = some (p', data)) :
    Clean p' ∧ '\x00' ∉ data ∧ data ++ pending p' = pending p ∧ p.pc ≠ .closed := by
  obtain ⟨pc, str, stdin⟩ := p
  rcases pc with _ | (_ | _) | _
  · cases stdin with
    | nil =>
      obtain ⟨rfl, rfl⟩ := Prod.mk.inj (Option.some.inj hnext)
      exact ⟨⟨hclean.stdin, nofun⟩, List.not_mem_nil, rfl, nofun⟩
    | cons call stdin =>
      obtain ⟨hcall, hstdin⟩ := List.forall_mem_cons.mp hclean.stdin
      obtain ⟨rfl, rfl⟩ := Prod.mk.inj (Option.some.inj hnext)
      exact ⟨⟨hstdin, fun _ => hcall⟩, List.not_mem_nil, rfl, nofun⟩
  · have hstr := hclean.str rfl
    obtain ⟨rfl, rfl⟩ := Prod.mk.inj (Option.some.inj hnext)
    refine ⟨⟨hclean.stdin, nofun⟩, ?_, ?_, nofun⟩
    · rwa [cString_eq hstr]
    · rw [cString_eq hstr]
      rfl
  · obtain ⟨rfl, rfl⟩ := Prod.mk.inj (Option.some.inj hnext)
    exact ⟨⟨hclean.stdin, nofun⟩, List.not_mem_nil, rfl, nofun⟩
  · cases hnext

theorem conserved_start (hnul : '\x00' ∉ text) (str : List Char) {str' : List Char}
    (hstr : str'.length = maxLength) :
    Conserved (beforeEof (calls maxLength text)) (start text str str') where
  clean := by
    refine ⟨fun call hcall hmem => hnul ?_, nofun⟩
    rw [← flatten_calls (show 2 ≤ maxLength by decide) text]
    exact List.mem_flatten.mpr ⟨call.1, List.mem_map_of_mem hcall, hmem⟩
  fifo := List.not_mem_nil
  str := hstr
  total := fun _ => rfl
  closed := nofun

/-- **A round of the consumer** prints what was read, if there is room for the terminator. -/
theorem receive_cases {data : List Char} {c : Consumer} (hnul : '\x00' ∉ data)
    (hlen : data.length ≤ maxLength) (hstr : c.str.length = maxLength) :
    (c.receive data).str.length = maxLength ∧
      ((data.length < maxLength ∧ (c.receive data).pc = (if data.length > 0 then .read else .closed) ∧
        (c.receive data).text = c.text ++ data) ∨
      (data.length = maxLength ∧ (c.receive data).pc = .undefined)) := by
  have hdata : (data ++ c.str.drop data.length).length = maxLength := by
    rw [List.length_append, List.length_drop]
    omega
  by_cases hlt : data.length < maxLength
  · have hreceive : c.receive data = ⟨if data.length > 0 then .read else .closed,
        (data ++ c.str.drop data.length).set data.length '\x00',
        c.printed ++ [(data.length, data)]⟩ := by
      rw [Consumer.receive, if_pos hlt]
      simp only [cString_set hnul (show data.length < c.str.length by rwa [hstr])]
    rw [hreceive]
    refine ⟨by rw [List.length_set, hdata], .inl ⟨hlt, rfl, ?_⟩⟩
    simp [Consumer.text]
  · rw [Consumer.receive, if_neg hlt]
    exact ⟨hdata, .inr ⟨le_antisymm hlen (not_lt.mp hlt), rfl⟩⟩

theorem readable_le {num : ℕ} (h : Readable num s) : num ≤ maxLength ∧ num ≤ s.fifo.length := by
  unfold Readable at h
  split_ifs at h with h0
  · exact ⟨h0 ▸ Nat.zero_le _, h0 ▸ Nat.zero_le _⟩
  · exact h

/-- What `read` returns is received. -/
theorem read_cases {total : List Char} {num : ℕ} (h : Conserved total s) (hread : Readable num s) :
    (s.consumer.receive (s.fifo.take num)).str.length = maxLength ∧
      ((num < maxLength ∧
        (s.consumer.receive (s.fifo.take num)).pc = (if num > 0 then .read else .closed) ∧
        (s.consumer.receive (s.fifo.take num)).text = s.consumer.text ++ s.fifo.take num) ∨
      (num = maxLength ∧ (s.consumer.receive (s.fifo.take num)).pc = .undefined)) := by
  obtain ⟨hmax, hle⟩ := readable_le hread
  have hnum : (s.fifo.take num).length = num := List.length_take_of_le hle
  have hcases := receive_cases (fun hmem => h.fifo (List.mem_of_mem_take hmem)) (hnum.le.trans hmax) h.str
  rwa [hnum] at hcases

theorem step_producer (hstep : step .producer s = some t) : ∃ producer data,
    s.producer.next = some (producer, data) ∧
      t = { s with producer := producer, fifo := s.fifo ++ data } := by
  obtain ⟨⟨producer, data⟩, hnext, hstep⟩ := Option.bind_eq_some_iff.mp hstep
  exact ⟨producer, data, hnext, (Option.some.inj hstep).symm⟩

theorem step_read {num : ℕ} (hstep : step (.read num) s = some t) :
    s.consumer.pc = .read ∧ Readable num s ∧
      t = { s with fifo := s.fifo.drop num, consumer := s.consumer.receive (s.fifo.take num) } := by
  simp only [step] at hstep
  split_ifs at hstep with hread
  exact ⟨hread.1, hread.2, (Option.some.inj hstep).symm⟩

/-- **A step** conserves the text. -/
theorem conserved_step {total : List Char} (h : Conserved total s) (hstep : step a s = some t) :
    Conserved total t := by
  cases a with
  | producer =>
    obtain ⟨producer, data, hnext, rfl⟩ := step_producer hstep
    obtain ⟨hclean, hdata, hpending, hpc⟩ := next_pending h.clean hnext
    refine ⟨hclean, fun hmem => ?_, h.str, fun hdef => ?_, fun hclosed => ?_⟩
    · exact (List.mem_append.mp hmem).elim h.fifo hdata
    · rw [← h.total hdef, ← hpending]
      simp only [List.append_assoc]
    · exact absurd (h.closed hclosed).2 hpc
  | read num =>
    obtain ⟨hpc, hreadable, rfl⟩ := step_read hstep
    obtain ⟨hstr, hcases⟩ := read_cases h hreadable
    refine ⟨h.clean, fun hmem => h.fifo (List.mem_of_mem_drop hmem), hstr, fun hdef => ?_, fun hclosed => ?_⟩
    · rcases hcases with ⟨-, -, htext⟩ | ⟨-, hundef⟩
      · rw [← h.total (by rw [hpc]; nofun), htext, List.append_assoc s.consumer.text,
          List.take_append_drop]
      · exact absurd hundef hdef
    · -- the loop ends only after a `read` that gives nothing
      rcases hcases with ⟨-, hnext, -⟩ | ⟨-, hundef⟩
      · rw [hnext] at hclosed
        split_ifs at hclosed with hpos
        have h0 : num = 0 := Nat.eq_zero_of_not_pos hpos
        rw [Readable, if_pos h0] at hreadable
        exact ⟨by rw [hreadable.1, List.drop_nil], hreadable.2⟩
      · rw [hundef] at hclosed
        cases hclosed

/-! ### Whole runs -/

/-- After a store outside of `str` the consumer does nothing more. -/
theorem undefined_step (h : s.consumer.pc = .undefined) (hstep : step a s = some t) :
    t.consumer.pc = .undefined := by
  cases a with
  | producer =>
    obtain ⟨_, _, -, rfl⟩ := step_producer hstep
    exact h
  | read num =>
    have hpc := (step_read hstep).1
    rw [h] at hpc
    cases hpc

/-- The `read`s of an action give fewer than `MAX_LENGTH` bytes. -/
def Short : Action → Prop
  | .producer => True
  | .read num => num < maxLength

/-- **A step stays in `str`** exactly if its `read` is short. -/
theorem defined_step {total : List Char} (h : Conserved total s) (hdef : s.consumer.pc ≠ .undefined)
    (hstep : step a s = some t) : t.consumer.pc ≠ .undefined ↔ Short a := by
  cases a with
  | producer =>
    obtain ⟨_, _, -, rfl⟩ := step_producer hstep
    exact ⟨fun _ => trivial, fun _ => hdef⟩
  | read num =>
    obtain ⟨-, hreadable, rfl⟩ := step_read hstep
    rcases (read_cases h hreadable).2 with ⟨hlt, hnext, -⟩ | ⟨heq, hundef⟩
    · refine ⟨fun _ => hlt, fun _ hundef => ?_⟩
      rw [hnext] at hundef
      split_ifs at hundef
    · exact ⟨fun hne => absurd hundef hne, fun hlt => absurd heq (Nat.ne_of_lt hlt)⟩

/-- **A run stays in `str`** exactly if all its `read`s are short. -/
theorem defined_run {total : List Char} : ∀ {actions : List Action} {s : State}, Conserved total s →
    s.consumer.pc ≠ .undefined → run step actions s = some t →
    (t.consumer.pc ≠ .undefined ↔ ∀ a ∈ actions, Short a)
  | [], s, _, hdef, hrun => by
    obtain rfl := Option.some.inj hrun
    exact ⟨fun _ => nofun, fun _ => hdef⟩
  | a :: actions, s, h, hdef, hrun => by
    obtain ⟨s', hstep, hrun'⟩ := Option.bind_eq_some_iff.mp hrun
    have hiff := defined_step h hdef hstep
    rw [List.forall_mem_cons, ← hiff]
    by_cases hdef' : s'.consumer.pc = .undefined
    · have hundef : t.consumer.pc = .undefined :=
        run_invariant (fun s => s.consumer.pc = .undefined) (fun _ _ _ _ => undefined_step)
          (fun _ _ => trivial) hdef' hrun'
      exact ⟨fun hne => absurd hundef hne, fun hall => absurd hdef' hall.1⟩
    · rw [defined_run (conserved_step h hstep) hdef' hrun', and_iff_right hdef']

/-- **The text arrives** exactly if its last line, when it has no newline, fills the producer's buffer
some number of times, and no `read` gives `MAX_LENGTH` bytes. For every text without `NUL`s and every run
of the two programs to the end of the consumer, in any order of their steps and with any sizes of the
`read`s: the stores are in `str` and what is printed is the text, exactly under that condition. -/
theorem delivers_iff (hnul : '\x00' ∉ text) (str : List Char) {str' : List Char}
    (hstr : str'.length = maxLength) {actions : List Action} {s : State}
    (hrun : run step actions (start text str str') = some s) (hend : s.consumer.pc ≠ .read) :
    (s.consumer.pc ≠ .undefined ∧ s.consumer.text = text) ↔
      maxLength - 1 ∣ (lastLine text).length ∧ ∀ num, .read num ∈ actions → num < maxLength := by
  have hstart := conserved_start hnul str hstr
  have hfinal : Conserved (beforeEof (calls maxLength text)) s :=
    run_invariant _ (fun _ _ _ _ => conserved_step) (fun _ _ => trivial) hstart hrun
  have hdefined := defined_run hstart nofun hrun
  have hshort : (∀ a ∈ actions, Short a) ↔ ∀ num, .read num ∈ actions → num < maxLength := by
    constructor
    · exact fun hall num hmem => hall _ hmem
    · rintro hall (_ | num) hmem
      · trivial
      · exact hall num hmem
  rw [← hshort, ← hdefined, ← beforeEof_calls_iff (by decide) text, and_comm]
  refine and_congr_left fun hdef => ?_
  -- the consumer has ended after everything was written and read
  have hclosed : s.consumer.pc = .closed := by
    cases hpc : s.consumer.pc with
    | read => exact absurd hpc hend
    | closed => rfl
    | undefined => exact absurd hpc hdef
  obtain ⟨hfifo, hproducer⟩ := hfinal.closed hclosed
  have htotal := hfinal.total hdef
  rw [hfifo, pending, hproducer, List.append_nil, List.append_nil] at htotal
  rw [htotal]

/-- A text without a newline is lost. -/
theorem delivers_not_last : ∃ s, run step [.producer, .producer, .read 0]
    (start ['a'] [] (List.replicate maxLength 'x')) = some s ∧ s.consumer.pc = .closed ∧
    ¬(s.consumer.pc ≠ .undefined ∧ s.consumer.text = ['a']) := by
  refine ⟨_, rfl, rfl, fun hall => ?_⟩
  exact absurd hall.2 (by decide)

/-- A line of two bytes, in two `read`s. -/
theorem delivers_line : ∃ s, run step [.producer, .producer, .read 1, .producer, .read 1, .producer, .read 0]
    (start ['a', '\n'] [] (List.replicate maxLength 'x')) = some s ∧ s.consumer.text = ['a', '\n'] := by
  obtain ⟨s, hrun, hend⟩ : ∃ s, run step
      [.producer, .producer, .read 1, .producer, .read 1, .producer, .read 0]
      (start ['a', '\n'] [] (List.replicate maxLength 'x')) = some s ∧ s.consumer.pc ≠ .read :=
    ⟨_, rfl, nofun⟩
  have hreads : ∀ num, Action.read num ∈ [Action.producer, .producer, .read 1, .producer, .read 1, .producer,
      .read 0] → num < maxLength := by
    intro num hmem
    simp only [List.mem_cons, List.not_mem_nil, reduceCtorEq, Action.read.injEq, false_or, or_false] at hmem
    unfold maxLength
    omega
  exact ⟨s, hrun, ((delivers_iff (by decide) [] List.length_replicate hrun hend).mpr
    ⟨by decide, hreads⟩).2⟩

end Eecs678.Fifo.Delivery
