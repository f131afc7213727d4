import Eecs678.Copy.Model
import Mathlib.Algebra.Order.BigOperators.Group.List
import Mathlib.Algebra.Order.Ring.Nat

/-!
# When the two copies agree

`memmap.c` gives its input (`memmap_eq`). The loop of `read_write.c` writes its whole buffer for each read,
so its output is too long as soon as one read does not fill the buffer (`agree_iff`).
-/

namespace Eecs678.Copy.Agreement

open Eecs678.Copy.Model

/-- The calls of `read` give all bytes of the file, in chunks of 1 to `bufsz` bytes. -/
structure Reads (input : List UInt8) (bufsz : ℕ) (reads : List (List UInt8)) : Prop where
  all : reads.flatten = input
  pos : ∀ data ∈ reads, 0 < data.length
  le : ∀ data ∈ reads, data.length ≤ bufsz

variable {input src data : List UInt8} {reads : List (List UInt8)} {bufsz : ℕ} {file : File}

/-! ### `memmap.c` -/

theorem length_write_last (n : ℕ) : (write ⟨[], n⟩ [0]).bytes.length = n + 1 := by
  simp [write]

/-- **`memmap.c` copies its input**, unless it is empty. -/
theorem memmap_eq (hinput : input ≠ []) : ∃ fdout, memmap input = some fdout ∧ fdout.bytes = input := by
  have hpos : 0 < input.length := List.length_pos_of_ne_nil hinput
  have hseek : lseek truncated (input.length - 1) = some ⟨[], input.length - 1⟩ := by
    rw [lseek, if_pos (by omega)]
    congr 2
    omega
  refine ⟨memcpy (write ⟨[], input.length - 1⟩ [0]) input, ?_, ?_⟩
  · rw [memmap, hseek]
    rfl
  · have hlen := length_write_last (input.length - 1)
    rw [memcpy, List.drop_of_length_le (by omega), List.append_nil]

/-! ### `read_write.c` -/

theorem write_append (hend : file.offset = file.bytes.length) :
    write file data = ⟨file.bytes ++ data, (file.bytes ++ data).length⟩ := by
  unfold write
  rw [hend, Nat.sub_self, List.take_length, List.replicate_zero, List.append_nil,
    List.drop_of_length_le (Nat.le_add_right _ _), List.append_nil, List.length_append]

theorem length_readInto (h : data.length ≤ src.length) : (readInto data src).length = src.length := by
  rw [readInto, List.length_append, List.length_drop]
  omega

/-- A read that fills the buffer leaves nothing of what it had. -/
theorem readInto_full (h : data.length = src.length) : readInto data src = data := by
  rw [readInto, List.drop_of_length_le h.ge, List.append_nil]

/-- Each read adds one buffer to the output. -/
theorem length_copyLoop : ∀ {reads : List (List UInt8)} {src : List UInt8} {file : File},
    (∀ data ∈ reads, data.length ≤ src.length) → file.offset = file.bytes.length →
    (copyLoop reads src file).bytes.length = file.bytes.length + reads.length * src.length
  | [], src, file, _, _ => by simp [copyLoop]
  | data :: reads, src, file, hle, hend => by
    obtain ⟨hdata, hreads⟩ := List.forall_mem_cons.mp hle
    have hsrc := length_readInto hdata
    have ih : (copyLoop reads (readInto data src) (write file (readInto data src))).bytes.length = _ :=
      length_copyLoop (by rwa [hsrc]) (by rw [write_append hend])
    rw [copyLoop, ih, write_append hend, List.length_append, hsrc, List.length_cons, Nat.succ_mul]
    omega

theorem copyLoop_full : ∀ {reads : List (List UInt8)} {src : List UInt8} {file : File},
    (∀ data ∈ reads, data.length = src.length) → file.offset = file.bytes.length →
    (copyLoop reads src file).bytes = file.bytes ++ reads.flatten
  | [], src, file, _, _ => by simp [copyLoop]
  | data :: reads, src, file, hfull, hend => by
    obtain ⟨hdata, hreads⟩ := List.forall_mem_cons.mp hfull
    have hsrc := readInto_full hdata
    have ih : (copyLoop reads data (write file data)).bytes = _ :=
      copyLoop_full (by rwa [hdata]) (by rw [write_append hend])
    simp only [copyLoop]
    rw [hsrc, ih, write_append hend, List.flatten_cons, List.append_assoc]

/-- Chunks of at most `k` bytes have `k` bytes each as soon as they have that many together. -/
theorem length_eq_of_sum {k : ℕ} : ∀ {reads : List (List UInt8)}, (∀ data ∈ reads, data.length ≤ k) →
    reads.length * k ≤ reads.flatten.length → ∀ data ∈ reads, data.length = k
  | [], _, _ => nofun
  | data :: reads, hle, hsum => by
    obtain ⟨hdata, hreads⟩ := List.forall_mem_cons.mp hle
    have hrest : reads.flatten.length ≤ reads.length * k := by
      have hsum := List.sum_le_card_nsmul (reads.map List.length) k (by simpa using hreads)
      rwa [← List.length_flatten, List.length_map] at hsum
    rw [List.flatten_cons, List.length_append, List.length_cons, Nat.succ_mul] at hsum
    exact List.forall_mem_cons.mpr ⟨by omega, length_eq_of_sum hreads (by omega)⟩

/-- **The copies agree exactly if each read fills the buffer.** For a file that is not empty, any buffer
and any way in which `read` splits the file, the output of `read_write.c` is the input, and the output of
`memmap.c`, exactly if each read gives as many bytes as the buffer has. -/
theorem agree_iff (hinput : input ≠ []) (hreads : Reads input bufsz reads) (hsrc : src.length = bufsz) :
    ((readWrite reads src).bytes = input ∧
      ∃ fdout, memmap input = some fdout ∧ fdout.bytes = (readWrite reads src).bytes) ↔
      ∀ data ∈ reads, data.length = bufsz := by
  subst hsrc
  have hall := hreads.all
  constructor
  · rintro ⟨hcopy, -⟩
    have hlen := length_copyLoop hreads.le (show truncated.offset = truncated.bytes.length from rfl)
    refine length_eq_of_sum hreads.le ?_
    rw [hall, ← hcopy, readWrite, hlen]
    exact Nat.le_add_left _ _
  · intro hfull
    have hcopy : (readWrite reads src).bytes = input := by
      rw [readWrite, copyLoop_full hfull rfl, hall]
      rfl
    obtain ⟨fdout, hmap, hbytes⟩ := memmap_eq hinput
    exact ⟨hcopy, fdout, hmap, hbytes.trans hcopy.symm⟩

/-- One byte, and a buffer of two. -/
theorem agree_short : Reads [97] 2 [[97]] ∧ ¬((readWrite [[97]] [0, 0]).bytes = [97] ∧
    ∃ fdout, memmap [97] = some fdout ∧ fdout.bytes = (readWrite [[97]] [0, 0]).bytes) :=
  ⟨⟨rfl, by decide, by decide⟩, fun ⟨hcopy, _⟩ => absurd hcopy (by decide)⟩

theorem agree_full : (readWrite [[97, 98], [99, 100]] [0, 0]).bytes = [97, 98, 99, 100] ∧
    ∃ fdout, memmap [97, 98, 99, 100] = some fdout ∧
      fdout.bytes = (readWrite [[97, 98], [99, 100]] [0, 0]).bytes :=
  (agree_iff (by decide) (show Reads _ 2 _ from ⟨rfl, by decide, by decide⟩) rfl).mpr (by decide)

end Eecs678.Copy.Agreement
