import Eecs678.AddrMap.Translation

/-!
# When the frames run out

The search for a free frame has no branch for a full memory: it ends at `numFrames`, and the store into
`mem_map` is past its end (`translate_full`). A run that touches more pages than there are frames comes
to such an access (`translateAll_isSome_iff`), and no other run leaves the arrays (`in_bounds_iff`).
-/

namespace Eecs678.AddrMap.FullMemory

open Eecs678.Lib.FirstUse Eecs678.AddrMap.Model Eecs678.AddrMap.Translation

variable {h : Header} {l : List ℕ} {vm : Vm}

theorem firstFree_full (hinv : Inv h l vm) (hlen : l.length = numFrames h) :
    firstFree vm.memMap 0 = vm.memMap.length := by
  have hfull : ∀ k i, firstFree (List.replicate k 1) i = i + k := by
    intro k
    induction k with
    | zero => exact fun i => rfl
    | succ k ih =>
      intro i
      rw [List.replicate_succ, firstFree, if_neg one_ne_zero, ih, add_right_comm, add_assoc]
  rw [hinv.memMap, hlen, Nat.sub_self, List.replicate_zero, List.append_nil, hfull, zero_add,
    List.length_replicate]

theorem pageFault_full (hinv : Inv h l vm) (hlen : l.length = numFrames h) (p : ℕ) :
    pageFault p vm = none := by
  have hstore : store vm.memMap vm.memMap.length 1 = none := if_neg (lt_irrefl _)
  unfold pageFault
  rw [firstFree_full hinv hlen]
  simp only [hstore, bind, Option.bind]
  split <;> rfl

/-- **One round too many:** a page that has no frame, when all frames are taken. -/
theorem translate_full (hs : Sizes h) (hinv : Inv h l vm) (hlen : l.length = numFrames h) {a : ℕ}
    (hp : page h a < numPages h) (hmem : page h a ∉ l) : translate a vm = none := by
  rw [translate_eq hs hinv hp hlen.le, if_neg hmem, pageFault_full hinv hlen]
  rfl

theorem translate_outside (hs : Sizes h) (hinv : Inv h l vm) {a : ℕ} (hp : ¬ page h a < numPages h) :
    translate a vm = none := by
  have hentry : vm.pageTable[page h a]? = none := by
    rw [List.getElem?_eq_none_iff, hinv.length]
    exact not_lt.mp hp
  unfold Model.translate
  rw [hinv.pageSize, shl_one hs.page, shr_eq hs.page]
  simp only [bind, Option.bind, hentry]

/-- A page that is in the table, and has a frame or gets one. -/
theorem translate_inside (hs : Sizes h) (hinv : Inv h l vm) {a : ℕ} (hp : page h a < numPages h)
    (hlen : (touch l (page h a)).length ≤ numFrames h) :
    ∃ b vm', translate a vm = some (b, vm') ∧ Inv h (touch l (page h a)) vm' := by
  obtain ⟨vm', hframe, hinv'⟩ := frame_inv hs hinv hp hlen
  rw [translate_eq hs hinv hp ((prefix_touch l _).length_le.trans hlen), hframe]
  simp only [Option.bind, hinv'.pageSize, shl, if_pos hs.page]
  exact ⟨_, _, rfl, hinv'⟩

/-- **A run stays in the arrays** exactly if the pages are in the table and the frames are enough. -/
theorem translateAll_isSome_iff (hs : Sizes h) : ∀ {addrs l : List ℕ} {vm : Vm}, Inv h l vm →
    l.length ≤ numFrames h → ((translateAll addrs vm).isSome ↔
      (∀ a ∈ addrs, page h a < numPages h) ∧
        (touched l (addrs.map (page h))).length ≤ numFrames h)
  | [], l, vm, _, hle => ⟨fun _ => ⟨List.forall_mem_nil _, hle⟩, fun _ => rfl⟩
  | a :: addrs, l, vm, hinv, hle => by
    have hpre := prefix_touched (addrs.map (page h)) (touch l (page h a))
    rw [translateAll, List.forall_mem_cons, List.map_cons, touched]
    by_cases hp : page h a < numPages h
    · by_cases htouch : (touch l (page h a)).length ≤ numFrames h
      · obtain ⟨b, vm₁, h1, hinv₁⟩ := translate_inside hs hinv hp htouch
        have ih : (translateAll addrs vm₁).isSome ↔ _ := translateAll_isSome_iff hs hinv₁ htouch
        rw [and_iff_right hp, ← ih, h1]
        simp only [bind, Option.bind]
        cases translateAll addrs vm₁ <;> simp
      · -- the page is new, and the frames are all in use
        have hmem : page h a ∉ l := fun hmem => htouch (by rw [touch, if_pos hmem]; exact hle)
        have hfull : l.length = numFrames h := by
          rw [touch, if_neg hmem, List.length_append, List.length_singleton] at htouch
          omega
        rw [translate_full hs hinv hfull hp hmem]
        exact ⟨fun hsome => absurd hsome Bool.false_ne_true, fun hall => absurd (hpre.length_le.trans hall.2) htouch⟩
    · rw [translate_outside hs hinv hp]
      exact ⟨fun hsome => absurd hsome Bool.false_ne_true, fun hall => absurd hall.1.1 hp⟩

/-- What a run needs, with the sizes as they come: shifts below 32, pages that are in the table, and
enough frames. -/
structure Defined (h : Header) (addrs : List ℕ) : Prop where
  pages : sub h.logSize h.pageSize < 32
  frames : sub h.phySize h.pageSize < 32
  page : addrs ≠ [] → h.pageSize < 32
  inside : ∀ a ∈ addrs, Translation.page h a < 2 ^ sub h.logSize h.pageSize
  room : (addrs.map (Translation.page h)).toFinset.card ≤ 2 ^ sub h.phySize h.pageSize

theorem setUp_eq (hpages : sub h.logSize h.pageSize < 32) (hframes : sub h.phySize h.pageSize < 32) :
    ∃ vm, setUp h = some vm ∧ vm.pageSize = h.pageSize := by
  unfold setUp
  rw [shl_one hpages, shl_one hframes]
  exact ⟨_, rfl, rfl⟩

theorem setUp_eq_none (h' : ¬(sub h.logSize h.pageSize < 32 ∧ sub h.phySize h.pageSize < 32)) :
    setUp h = none := by
  unfold setUp shl
  split_ifs with h1 h2
  · exact absurd ⟨h1, h2⟩ h'
  · rfl
  · rfl
  · rfl

theorem sizes_of_sub (hlog : h.logSize < 2 ^ 32) (hphy : h.phySize < 2 ^ 32)
    (hpages : sub h.logSize h.pageSize < 32) (hframes : sub h.phySize h.pageSize < 32)
    (hpage : h.pageSize < 32) :
    Sizes h ∧ sub h.logSize h.pageSize = h.logSize - h.pageSize ∧
      sub h.phySize h.pageSize = h.phySize - h.pageSize := by
  unfold sub at *
  exact ⟨⟨by omega, by omega, by omega, by omega, hpage⟩, by omega, by omega⟩

/-- **A run is defined** exactly if it has what it needs. -/
theorem main_isSome_iff (hlog : h.logSize < 2 ^ 32) (hphy : h.phySize < 2 ^ 32) (addrs : List ℕ) :
    (main h addrs).isSome ↔ Defined h addrs := by
  by_cases hshift : sub h.logSize h.pageSize < 32 ∧ sub h.phySize h.pageSize < 32
  · obtain ⟨hpages, hframes⟩ := hshift
    by_cases hpage : h.pageSize < 32
    · obtain ⟨hs, heq, heq'⟩ := sizes_of_sub hlog hphy hpages hframes hpage
      obtain ⟨vm, hvm, hinv⟩ := inv_setUp hs
      rw [main, hvm]
      refine (translateAll_isSome_iff hs hinv (Nat.zero_le _)).trans ?_
      rw [length_touched]
      refine ⟨fun hall => ⟨hpages, hframes, fun _ => hpage, ?_, ?_⟩, fun hd => ⟨?_, ?_⟩⟩
      · rw [heq]
        exact hall.1
      · rw [heq']
        exact hall.2
      · have hinside := hd.inside
        rwa [heq] at hinside
      · have hroom := hd.room
        rwa [heq'] at hroom
    · obtain ⟨vm, hvm, hsize⟩ := setUp_eq hpages hframes
      rw [main, hvm]
      cases addrs with
      | nil =>
        refine ⟨fun _ => ⟨hpages, hframes, fun hne => absurd rfl hne, ?_, Nat.zero_le _⟩, fun _ => rfl⟩
        exact List.forall_mem_nil _
      | cons a addrs =>
        -- the mask of the first round is not defined
        have hmask : shl 1 vm.pageSize = none := if_neg (hsize ▸ hpage)
        refine ⟨fun hsome => ?_, fun hd => absurd (hd.page (List.cons_ne_nil a addrs)) hpage⟩
        rw [Option.bind_eq_bind, Option.bind_some, translateAll, Model.translate, hmask] at hsome
        cases hsome
  · rw [main, setUp_eq_none hshift]
    exact ⟨fun hsome => absurd hsome Bool.false_ne_true, fun hd => absurd ⟨hd.pages, hd.frames⟩ hshift⟩

/-- **In bounds exactly while the frames last.** With the sizes in range and the addresses in the
logical space, the arrays are used within their bounds, and the frames and the physical addresses that
are printed are in range, exactly if there are no more pages among the addresses than frames. -/
theorem in_bounds_iff (hlog : h.pageSize ≤ h.logSize) (hlog' : h.logSize ≤ 31)
    (hphy : h.pageSize ≤ h.phySize) (hphy' : h.phySize ≤ 31) {addrs : List ℕ}
    (haddrs : ∀ a ∈ addrs, a < 2 ^ h.logSize) :
    (∃ bs vm, main h addrs = some (bs, vm) ∧
      ∀ b ∈ bs, b.frameNum < numFrames h ∧ b.physicalAddr < 2 ^ h.phySize) ↔
      (addrs.map (page h)).toFinset.card ≤ numFrames h := by
  have hf : Fits h := ⟨hlog, by omega, hphy, by omega, by omega, by omega, by omega⟩
  constructor
  · rintro ⟨bs, vm, hrun, -⟩
    by_contra hcard
    obtain ⟨vm₀, h0, hinv⟩ := inv_setUp hf.sizes
    rw [main, h0] at hrun
    have hsome : (translateAll addrs vm₀).isSome := Option.isSome_of_eq_some hrun
    rw [translateAll_isSome_iff hf.sizes hinv (Nat.zero_le _), length_touched] at hsome
    exact hcard hsome.2
  · intro hcard
    obtain ⟨bs, vm, hrun, hall, hphys, -, -, hframe⟩ := translation hf haddrs hcard
    refine ⟨bs, vm, hrun, fun b hb => ⟨?_, (hphys b hb).2.1⟩⟩
    have hmem : page h b.logicalAddr ∈ touched [] (addrs.map (page h)) :=
      mem_touched.mpr (.inr (List.mem_map_of_mem (hall ▸ List.mem_map_of_mem hb)))
    rw [hframe b hb]
    exact lt_of_lt_of_le (List.idxOf_lt_length_of_mem hmem) (by rwa [length_touched])

/-- Four pages and two frames: the third page that is touched has no frame. -/
theorem in_bounds_three : ¬∃ bs vm, main ⟨4, 3, 2⟩ [0, 4, 8] = some (bs, vm) ∧
    ∀ b ∈ bs, b.frameNum < 2 ∧ b.physicalAddr < 8 :=
  fun ⟨_, _, hrun, _⟩ => absurd hrun nofun

/-- Two of them are translated. -/
theorem in_bounds_two : (∃ bs vm, main ⟨4, 3, 2⟩ [0, 4] = some (bs, vm) ∧
    ∀ b ∈ bs, b.frameNum < 2 ∧ b.physicalAddr < 8) :=
  (in_bounds_iff (h := ⟨4, 3, 2⟩) (by decide) (by decide) (by decide) (by decide)
    (show ∀ a ∈ [0, 4], a < 2 ^ 4 by decide)).mpr (by decide)

end Eecs678.AddrMap.FullMemory
