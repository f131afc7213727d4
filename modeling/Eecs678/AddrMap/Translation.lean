import Eecs678.AddrMap.Model
import Eecs678.Lib.FirstUse
import Mathlib.Tactic.NormNum
import Mathlib.Tactic.Positivity
import Mathlib.Tactic.Ring

/-!
# The translation is a bijection

While the frames last, the frame of a page is its place in the order in which the pages are first
touched (`Inv`), so a physical address is the frame and the offset of the logical one (`block`), and
`translation` follows.
-/

namespace Eecs678.AddrMap.Translation

open Eecs678.Lib.FirstUse Eecs678.AddrMap.Model

/-! ### Arithmetic -/

theorem shl_eq {x n k : ℕ} (hn : n < 32) (hx : x * 2 ^ n < 2 ^ k) (hk : k ≤ 32) :
    shl x n = some (x * 2 ^ n) := by
  have hle : (2 : ℕ) ^ k ≤ 2 ^ 32 := Nat.pow_le_pow_right (by norm_num) hk
  rw [shl, if_pos hn, Nat.shiftLeft_eq, Nat.mod_eq_of_lt (lt_of_lt_of_le hx hle)]

theorem shl_one {n : ℕ} (hn : n < 32) : shl 1 n = some (2 ^ n) := by
  have hlt : 1 * 2 ^ n < 2 ^ (n + 1) := by
    rw [one_mul]
    exact Nat.pow_lt_pow_right (by norm_num) (Nat.lt_succ_self n)
  rw [shl_eq hn hlt hn, one_mul]

theorem sub_eq {x y : ℕ} (hy : y ≤ x) (hx : x < 2 ^ 32) : sub x y = x - y := by
  unfold sub
  omega

theorem toInt_eq {x : ℕ} (h : x < 2 ^ 31) : toInt x = x :=
  Int.bmod_eq_of_le (by omega) (by omega)

theorem toUnsigned_cast {x : ℕ} (h : x < 2 ^ 32) : toUnsigned x = x := by
  unfold toUnsigned
  omega

theorem firstFree_replicate {k m : ℕ} (hm : 0 < m) : ∀ i,
    firstFree (List.replicate k 1 ++ List.replicate m 0) i = i + k := by
  induction k with
  | zero =>
    intro i
    obtain ⟨m, rfl⟩ := Nat.exists_eq_succ_of_ne_zero hm.ne'
    rw [List.replicate_zero, List.nil_append, List.replicate_succ, firstFree, if_pos rfl, add_zero]
  | succ k ih =>
    intro i
    rw [List.replicate_succ, List.cons_append, firstFree, if_neg one_ne_zero, ih, add_right_comm,
      add_assoc]

theorem set_replicate {k m : ℕ} (hm : 0 < m) :
    (List.replicate k (1 : ℤ) ++ List.replicate m 0).set k 1 =
      List.replicate (k + 1) 1 ++ List.replicate (m - 1) 0 := by
  obtain ⟨m, rfl⟩ := Nat.exists_eq_succ_of_ne_zero hm.ne'
  rw [List.set_append_right _ _ List.length_replicate.le, List.length_replicate, Nat.sub_self,
    List.replicate_succ, List.set_cons_zero, List.replicate_succ', List.append_assoc, Nat.succ_sub_one]
  rfl

/-! ### The invariant -/

/-- The sizes that the program can work with. -/
structure Fits (h : Header) : Prop where
  page_log : h.pageSize ≤ h.logSize
  log : h.logSize ≤ 32
  page_phy : h.pageSize ≤ h.phySize
  phy : h.phySize ≤ 32
  pages : h.logSize - h.pageSize < 32
  frames : h.phySize - h.pageSize < 32
  page : h.pageSize < 32

/-- The sizes with which the tables are set up and the shifts are defined. -/
structure Sizes (h : Header) : Prop where
  page_log : h.pageSize ≤ h.logSize
  page_phy : h.pageSize ≤ h.phySize
  pages : h.logSize - h.pageSize < 32
  frames : h.phySize - h.pageSize < 32
  page : h.pageSize < 32

/-- The number of the page of an address. -/
def page (h : Header) (a : ℕ) : ℕ := a / 2 ^ h.pageSize

def numPages (h : Header) : ℕ := 2 ^ (h.logSize - h.pageSize)

def numFrames (h : Header) : ℕ := 2 ^ (h.phySize - h.pageSize)

/-- The pages touched so far are `l`, in the order of their first access. -/
structure Inv (h : Header) (l : List ℕ) (vm : Vm) : Prop where
  pageSize : vm.pageSize = h.pageSize
  length : vm.pageTable.length = numPages h
  table : ∀ p < numPages h, vm.pageTable[p]? = some (if p ∈ l then (l.idxOf p : ℤ) else -1)
  memMap : vm.memMap = List.replicate l.length 1 ++ List.replicate (numFrames h - l.length) 0

/-- The block of an address, when the pages `l` were touched before. -/
def block (h : Header) (l : List ℕ) (a : ℕ) : Block where
  logicalAddr := a
  pageNum := page h a
  pageFault := page h a ∉ l
  frameNum := (touch l (page h a)).idxOf (page h a)
  physicalAddr := (touch l (page h a)).idxOf (page h a) * 2 ^ h.pageSize + a % 2 ^ h.pageSize

variable {h : Header} {l : List ℕ} {vm : Vm}

theorem Fits.sizes (hf : Fits h) : Sizes h := ⟨hf.page_log, hf.page_phy, hf.pages, hf.frames, hf.page⟩

theorem inv_setUp (hs : Sizes h) : ∃ vm, setUp h = some vm ∧ Inv h [] vm := by
  have hpage := hs.page
  have hlog := hs.pages
  have hphy := hs.frames
  refine ⟨⟨h.pageSize, numFrames h, List.replicate (numPages h) (-1), List.replicate (numFrames h) 0⟩,
    ?_, rfl, List.length_replicate, fun p hp => ?_, rfl⟩
  · unfold setUp
    rw [sub_eq hs.page_log (by omega), sub_eq hs.page_phy (by omega), shl_one hs.pages,
      shl_one hs.frames]
    rfl
  · rw [List.getElem?_replicate, if_pos hp, if_neg List.not_mem_nil]

theorem page_lt (hf : Fits h) {a : ℕ} (ha : a < 2 ^ h.logSize) : page h a < numPages h := by
  unfold page numPages
  rw [Nat.div_lt_iff_lt_mul (by positivity), ← pow_add, Nat.sub_add_cancel hf.page_log]
  exact ha

theorem numFrames_le (hs : Sizes h) : numFrames h ≤ 2 ^ 31 :=
  Nat.pow_le_pow_right (by norm_num) (Nat.le_of_lt_succ hs.frames)

/-- Frame and offset make an address of the physical memory. -/
theorem physical_lt (hf : Fits h) {f a : ℕ} (hfr : f < numFrames h) :
    f * 2 ^ h.pageSize + a % 2 ^ h.pageSize < 2 ^ h.phySize := by
  have hmod : a % 2 ^ h.pageSize < 2 ^ h.pageSize := Nat.mod_lt _ (by positivity)
  have hsplit : (2 : ℕ) ^ h.phySize = numFrames h * 2 ^ h.pageSize := by
    rw [numFrames, ← pow_add, Nat.sub_add_cancel hf.page_phy]
  rw [hsplit]
  calc f * 2 ^ h.pageSize + a % 2 ^ h.pageSize < f * 2 ^ h.pageSize + 2 ^ h.pageSize := by omega
    _ = (f + 1) * 2 ^ h.pageSize := by ring
    _ ≤ numFrames h * 2 ^ h.pageSize := Nat.mul_le_mul_right _ hfr

theorem shr_eq (hpage : h.pageSize < 32) (a : ℕ) : shr a h.pageSize = some (page h a) := by
  rw [shr, if_pos hpage, Nat.shiftRight_eq_div_pow]
  rfl

/-- The shifts and masks of one round. -/
theorem translate_eq (hs : Sizes h) (hinv : Inv h l vm) {a : ℕ} (hp : page h a < numPages h)
    (hlen : l.length ≤ numFrames h) :
    translate a vm = (if page h a ∈ l then some (l.idxOf (page h a), vm)
        else pageFault (page h a) vm).bind fun x => (shl x.1 x.2.pageSize).bind fun base =>
      some (⟨a, page h a, page h a ∉ l, x.1, base ||| a % 2 ^ h.pageSize⟩, x.2) := by
  have hframes := numFrames_le hs
  have hmask : sub (2 ^ h.pageSize) 1 = 2 ^ h.pageSize - 1 :=
    sub_eq Nat.one_le_two_pow (Nat.pow_lt_pow_right (by norm_num) hs.page)
  have hpage : shr a h.pageSize = some (page h a) := shr_eq hs.page a
  have hentry := hinv.table _ hp
  unfold Model.translate
  rw [hinv.pageSize, shl_one hs.page, hpage]
  simp only [bind, Option.bind, hmask, Nat.and_two_pow_sub_one_eq_mod, hentry, pure]
  by_cases hmem : page h a ∈ l
  · have hidx := List.idxOf_lt_length_of_mem hmem
    have hne : ((l.idxOf (page h a) : ℕ) : ℤ) ≠ -1 := by omega
    rw [if_pos hmem, if_neg hne, if_pos hmem]
    simp only [toUnsigned_cast (show l.idxOf (page h a) < 2 ^ 32 by omega), hne, hmem,
      not_true_eq_false]
  · rw [if_neg hmem, if_pos rfl, if_neg hmem]
    simp only [hmem, not_false_eq_true]

theorem store_eq {array : List ℤ} {i : ℕ} (hi : i < array.length) (x : ℤ) :
    store array i x = some (array.set i x) := if_pos hi

/-- The first access to a page takes the next frame. -/
theorem pageFault_eq (hs : Sizes h) (hinv : Inv h l vm) {p : ℕ} (hp : p < numPages h) (hmem : p ∉ l)
    (hlen : l.length < numFrames h) :
    ∃ vm', pageFault p vm = some (l.length, vm') ∧ Inv h (l ++ [p]) vm' := by
  have hframes := numFrames_le hs
  have hfree : firstFree vm.memMap 0 = l.length := by
    rw [hinv.memMap, firstFree_replicate (by omega), zero_add]
  have hmap : vm.memMap.length = numFrames h := by
    rw [hinv.memMap, List.length_append, List.length_replicate, List.length_replicate]
    omega
  have hp' : p < vm.pageTable.length := hinv.length ▸ hp
  have hl : l.length < vm.memMap.length := hmap ▸ hlen
  refine ⟨{ vm with pageTable := vm.pageTable.set p l.length, memMap := vm.memMap.set l.length 1 },
    ?_, hinv.pageSize, ?_, fun q hq => ?_, ?_⟩
  · unfold pageFault
    simp only [hfree, toInt_eq (show l.length < 2 ^ 31 by omega), store_eq hp', store_eq hl]
    rfl
  · rw [List.length_set, hinv.length]
  · by_cases hpq : p = q
    · subst hpq
      rw [List.getElem?_set_self hp', if_pos (by simp), List.idxOf_append, if_neg hmem,
        List.idxOf_cons_self, zero_add]
    · rw [List.getElem?_set_ne hpq, hinv.table q hq]
      have hiff : q ∈ l ++ [p] ↔ q ∈ l := by simp [Ne.symm hpq]
      by_cases hql : q ∈ l
      · rw [if_pos hql, if_pos (hiff.mpr hql), List.idxOf_append_of_mem hql]
      · rw [if_neg hql, if_neg (hiff.not.mpr hql)]
  · rw [hinv.memMap, set_replicate (by omega), List.length_append, List.length_singleton]
    rfl

/-- The frame of a round, from the table or from the search. -/
theorem frame_inv (hs : Sizes h) (hinv : Inv h l vm) {p : ℕ} (hp : p < numPages h)
    (hlen : (touch l p).length ≤ numFrames h) :
    ∃ vm', (if p ∈ l then some (l.idxOf p, vm) else pageFault p vm) =
      some ((touch l p).idxOf p, vm') ∧ Inv h (touch l p) vm' := by
  by_cases hmem : p ∈ l
  · have htouch : touch l p = l := if_pos hmem
    rw [if_pos hmem, htouch]
    exact ⟨vm, rfl, hinv⟩
  · have htouch : touch l p = l ++ [p] := if_neg hmem
    rw [if_neg hmem]
    rw [htouch] at hlen ⊢
    rw [List.length_append, List.length_singleton] at hlen
    rw [List.idxOf_append, if_neg hmem, List.idxOf_cons_self, zero_add]
    exact pageFault_eq hs hinv hp hmem hlen

/-- **One round.** -/
theorem translate_inv (hf : Fits h) (hinv : Inv h l vm) {a : ℕ} (ha : a < 2 ^ h.logSize)
    (hlen : (touch l (page h a)).length ≤ numFrames h) :
    ∃ vm', translate a vm = some (block h l a, vm') ∧ Inv h (touch l (page h a)) vm' := by
  have hp := page_lt hf ha
  -- the frame is known, and the rest is the same for a hit and for a fault
  obtain ⟨vm', hframe, hinv'⟩ := frame_inv hf.sizes hinv hp hlen
  have hlt : (touch l (page h a)).idxOf (page h a) < numFrames h :=
    lt_of_lt_of_le (List.idxOf_lt_length_of_mem (mem_touch.mpr (.inr rfl))) hlen
  have hphys := physical_lt hf (a := a) hlt
  have hmod : a % 2 ^ h.pageSize < 2 ^ h.pageSize := Nat.mod_lt _ (by positivity)
  refine ⟨vm', ?_, hinv'⟩
  rw [translate_eq hf.sizes hinv hp ((prefix_touch l _).length_le.trans hlen), hframe]
  simp only [Option.bind]
  rw [hinv'.pageSize, shl_eq hf.page (lt_of_le_of_lt (Nat.le_add_right _ _) hphys) hf.phy]
  simp only [block]
  rw [← Nat.shiftLeft_eq, Nat.shiftLeft_add_eq_or_of_lt hmod]

/-! ### Runs -/

/-- The blocks of a sequence of addresses, when the pages `l` were touched before. -/
def blocks (h : Header) (l : List ℕ) : List ℕ → List Block
  | [] => []
  | a :: addrs => block h l a :: blocks h (touch l (page h a)) addrs

/-- **All rounds.** -/
theorem translateAll_inv (hf : Fits h) : ∀ {addrs l : List ℕ} {vm : Vm}, Inv h l vm →
    (∀ a ∈ addrs, a < 2 ^ h.logSize) → (touched l (addrs.map (page h))).length ≤ numFrames h →
    ∃ vm', translateAll addrs vm = some (blocks h l addrs, vm')
  | [], l, vm, _, _, _ => ⟨vm, rfl⟩
  | a :: addrs, l, vm, hinv, haddrs, hlen => by
    have hpre := prefix_touched (addrs.map (page h)) (touch l (page h a))
    obtain ⟨vm₁, h1, hinv₁⟩ := translate_inv hf hinv (haddrs a (List.mem_cons_self ..))
      (hpre.length_le.trans hlen)
    obtain ⟨vm₂, h2⟩ := translateAll_inv hf hinv₁
      (fun b hb => haddrs b (List.mem_cons_of_mem _ hb)) hlen
    exact ⟨vm₂, by simp only [translateAll, h1, h2, bind, Option.bind]; rfl⟩

theorem blocks_logicalAddr : ∀ (addrs l : List ℕ), (blocks h l addrs).map Block.logicalAddr = addrs
  | [], _ => rfl
  | a :: addrs, _ => congrArg (a :: ·) (blocks_logicalAddr addrs _)

/-- The frame of a block is the place of its page among all pages that are touched. -/
theorem blocks_frame : ∀ (addrs l : List ℕ), ∀ b ∈ blocks h l addrs,
    page h b.logicalAddr ∈ touched l (addrs.map (page h)) ∧
    b.frameNum = (touched l (addrs.map (page h))).idxOf (page h b.logicalAddr) ∧
    b.physicalAddr = b.frameNum * 2 ^ h.pageSize + b.logicalAddr % 2 ^ h.pageSize ∧
    b.pageNum = page h b.logicalAddr
  | [], l, b, hb => absurd hb List.not_mem_nil
  | a :: addrs, l, b, hb => by
    rcases List.mem_cons.mp hb with rfl | hb
    · have hmem : page h a ∈ touch l (page h a) := mem_touch.mpr (.inr rfl)
      have hpre := prefix_touched (addrs.map (page h)) (touch l (page h a))
      exact ⟨hpre.subset hmem, hpre.idxOf_eq_of_mem hmem, rfl, rfl⟩
    · exact blocks_frame addrs _ b hb

/-- A fault is printed for a page that was not touched before. -/
theorem blocks_fault : ∀ {addrs l : List ℕ} {i : ℕ} {b : Block}, (blocks h l addrs)[i]? = some b →
    (b.pageFault = true ↔ page h b.logicalAddr ∉ l ∧
      page h b.logicalAddr ∉ (addrs.take i).map (page h))
  | [], l, i, b, hb => by cases hb
  | a :: addrs, l, 0, b, hb => by
    obtain rfl := Option.some.inj hb
    simp [block]
  | a :: addrs, l, i + 1, b, hb => by
    have ih := blocks_fault (l := touch l (page h a)) (i := i) (b := b) hb
    rw [ih, mem_touch, not_or, List.take_succ_cons, List.map_cons, List.mem_cons, not_or, and_assoc]

/-- **Translation is a bijection.** When the frames are enough for the pages that are touched, every
access is translated: the physical address is in range and keeps the offset, two accesses have the same
physical address exactly if they have the same logical one, a fault is printed exactly at the first
access to a page, and the pages get the frames 0, 1, … in the order in which they are first touched. -/
theorem translation (hf : Fits h) {addrs : List ℕ} (haddrs : ∀ a ∈ addrs, a < 2 ^ h.logSize)
    (hpages : (addrs.map (page h)).toFinset.card ≤ numFrames h) :
    ∃ bs vm, main h addrs = some (bs, vm) ∧ bs.map Block.logicalAddr = addrs ∧
      (∀ b ∈ bs, b.pageNum = page h b.logicalAddr ∧ b.physicalAddr < 2 ^ h.phySize ∧
        b.physicalAddr % 2 ^ h.pageSize = b.logicalAddr % 2 ^ h.pageSize) ∧
      (∀ b ∈ bs, ∀ c ∈ bs, b.physicalAddr = c.physicalAddr ↔ b.logicalAddr = c.logicalAddr) ∧
      (∀ i b, bs[i]? = some b →
        (b.pageFault = true ↔ page h b.logicalAddr ∉ (addrs.take i).map (page h))) ∧
      ∀ b ∈ bs, b.frameNum = (touched [] (addrs.map (page h))).idxOf (page h b.logicalAddr) := by
  rw [← length_touched] at hpages
  obtain ⟨vm₀, h0, hinv⟩ := inv_setUp hf.sizes
  obtain ⟨vm, hrun⟩ := translateAll_inv hf hinv haddrs hpages
  have hmod : ∀ b ∈ blocks h [] addrs,
      b.physicalAddr % 2 ^ h.pageSize = b.logicalAddr % 2 ^ h.pageSize := fun b hb => by
    rw [(blocks_frame _ _ b hb).2.2.1, mul_comm, Nat.mul_add_mod, Nat.mod_mod]
  have hdiv : ∀ b ∈ blocks h [] addrs, b.physicalAddr / 2 ^ h.pageSize = b.frameNum := fun b hb => by
    rw [(blocks_frame _ _ b hb).2.2.1, mul_comm, Nat.mul_add_div (by positivity),
      Nat.div_eq_of_lt (Nat.mod_lt _ (by positivity)), add_zero]
  refine ⟨blocks h [] addrs, vm, ?_, blocks_logicalAddr addrs [], fun b hb => ?_, fun b hb c hc => ?_,
    fun i b hb => ?_, fun b hb => (blocks_frame _ _ b hb).2.1⟩
  · unfold main
    rw [h0]
    exact hrun
  · obtain ⟨h1, h2, h3, h4⟩ := blocks_frame _ _ b hb
    refine ⟨h4, ?_, hmod b hb⟩
    rw [h3, h2]
    exact physical_lt hf (lt_of_lt_of_le (List.idxOf_lt_length_of_mem h1) hpages)
  · obtain ⟨hb1, hb2, hb3, -⟩ := blocks_frame _ _ b hb
    obtain ⟨-, hc2, hc3, -⟩ := blocks_frame _ _ c hc
    constructor
    · intro heq
      have hoffset : b.logicalAddr % 2 ^ h.pageSize = c.logicalAddr % 2 ^ h.pageSize := by
        rw [← hmod b hb, ← hmod c hc, heq]
      have hfr : b.frameNum = c.frameNum := by rw [← hdiv b hb, ← hdiv c hc, heq]
      have hpage : page h b.logicalAddr = page h c.logicalAddr :=
        (List.idxOf_inj hb1).mp (by rw [← hb2, ← hc2, hfr])
      rw [← Nat.div_add_mod b.logicalAddr (2 ^ h.pageSize), hoffset]
      unfold page at hpage
      rw [hpage, Nat.div_add_mod]
    · intro heq
      rw [hb3, hc3, hb2, hc2, heq]
  · rw [blocks_fault hb, and_iff_right List.not_mem_nil]

/-- Four pages, four frames, and a page that is touched twice. -/
theorem translation_small : ∃ bs vm, main ⟨4, 4, 2⟩ [9, 1, 10] = some (bs, vm) ∧
    bs.map Block.logicalAddr = [9, 1, 10] := by
  have hf : Fits ⟨4, 4, 2⟩ :=
    ⟨by decide, by decide, by decide, by decide, by decide, by decide, by decide⟩
  obtain ⟨bs, vm, h1, h2, -⟩ := translation hf (show ∀ a ∈ [9, 1, 10], a < 2 ^ 4 by decide) (by decide)
  exact ⟨bs, vm, h1, h2⟩

end Eecs678.AddrMap.Translation
