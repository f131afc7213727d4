import Eecs678.AddrMap.FullMemory
import Eecs678.AddrMap.Input

/-!
# One translation for each line

The loop of `main` tests `feof` after a call of `fgets`, and the call that reads a last line without a
newline has already met the end of the file: that line is read, and not translated (`mapper_eq`). So each
address is translated exactly if the last line ends in a newline (`lines_iff`).
-/

namespace Eecs678.AddrMap.Lines

open Eecs678.Lib.Scanf Eecs678.Lib.Stdio Eecs678.AddrMap.Model Eecs678.AddrMap.FullMemory
open Eecs678.AddrMap.Input

/-! ### The lines -/

/-- The line of an address. -/
def hexLine (digits : List Char) : List Char := '0' :: 'x' :: digits

/-- The digits of a line of an address. -/
structure Hex (digits : List Char) : Prop where
  ne_nil : digits ≠ []
  digit : ∀ c ∈ digits, isDigit 16 c = true
  length : (hexLine digits).length < 999

/-- What `logical_addr` gets from a line. -/
def address (digits : List Char) : ℕ := toUnsigned (toUnsignedLong 1 (numeral 16 digits))

variable {digits l1 l2 l3 : List Char} {h : Header}

theorem address_lt (digits : List Char) : address digits < 2 ^ 32 := by
  unfold address toUnsigned
  omega

/-- An address of 32 bits is what its line says. -/
theorem address_eq (hlt : numeral 16 digits < 2 ^ 32) : address digits = numeral 16 digits := by
  rw [address, toUnsignedLong, if_pos (lt_trans hlt (by norm_num)), one_mul]
  exact Translation.toUnsigned_cast hlt

theorem isDigit_ne {c d : Char} (hd : isDigit 16 d = false) (hc : isDigit 16 c = true) : c ≠ d := by
  rintro rfl
  exact absurd (hc.symm.trans hd) nofun

theorem Hex.line (hx : Hex digits) : Line maxStr (hexLine digits) where
  ne_nil := List.cons_ne_nil _ _
  newline := by
    intro hmem
    rcases List.mem_cons.mp hmem with hc | hmem
    · cases hc
    · rcases List.mem_cons.mp hmem with hc | hmem
      · cases hc
      · exact isDigit_ne rfl (hx.digit _ hmem) rfl
  length := Nat.add_lt_add_right hx.length 1

theorem scan_hexLine (hx : Hex digits) :
    sscanf "0x%x" (hexLine digits) = [toUnsignedLong 1 (numeral 16 digits)] := by
  have hstring : cString (hexLine digits) = hexLine digits := by
    refine List.takeWhile_eq_self_iff.mpr fun c hc => ?_
    rcases List.mem_cons.mp hc with rfl | hc
    · rfl
    · rcases List.mem_cons.mp hc with rfl | hc
      · rfl
      · simpa using isDigit_ne rfl (hx.digit c hc)
  have hformat : directives "0x%x".toList = [.char '0', .char 'x', .hex] := by decide
  rw [sscanf, hstring, hformat, hexLine]
  simp only [scan, scanDirective, if_true, scanNumeral_digits hx.ne_nil hx.digit, Option.map_some,
    Option.toList_none, Option.toList_some, List.nil_append, List.append_nil]

theorem scanAddr_hexLine (hx : Hex digits) (newline : Bool) (logicalAddr : ℕ) :
    scanAddr (if newline then hexLine digits ++ ['\n'] else hexLine digits) logicalAddr =
      address digits := by
  unfold scanAddr
  cases newline with
  | true =>
    rw [if_pos rfl, sscanf_newline, scan_hexLine hx]
    rfl
  | false =>
    rw [if_neg nofun, scan_hexLine hx]
    rfl

/-! ### The loop -/

/-- The addresses that are translated. -/
def translated (newline : Bool) (lines : List (List Char)) : List ℕ :=
  if newline then lines.map address else (lines.map address).dropLast

theorem translated_cons (newline : Bool) (digits next : List Char) (lines : List (List Char)) :
    translated newline (digits :: next :: lines) =
      address digits :: translated newline (next :: lines) := by
  cases newline with
  | true => rfl
  | false => rfl

/-- **The loop** translates the address of each line, but for a last one without a newline. -/
theorem readLoop_eq {newline : Bool} : ∀ {lines : List (List Char)} {digits line : List Char} {eof : Bool}
    {stdin : Stream} {logicalAddr : ℕ} {vm : Vm}, (∀ d ∈ digits :: lines, Hex d) →
    lineCalls newline ((digits :: lines).map hexLine) = (line, eof) :: stdin →
    readLoop stdin line eof logicalAddr vm = translateAll (translated newline (digits :: lines)) vm
  | [], digits, line, eof, stdin, logicalAddr, vm, hhex, hcalls => by
    have hx := hhex digits (List.mem_singleton_self digits)
    obtain ⟨hcall, rfl⟩ := List.cons.inj hcalls
    obtain ⟨rfl, rfl⟩ := Prod.mk.inj hcall
    cases newline with
    | true =>
      have hscan := scanAddr_hexLine hx true logicalAddr
      rw [if_pos rfl] at hscan
      simp only [readLoop, Bool.not_true, hscan, translated, if_true, List.map_cons, List.map_nil,
        translateAll]
      rfl
    | false => rfl
  | next :: lines, digits, line, eof, stdin, logicalAddr, vm, hhex, hcalls => by
    obtain ⟨hx, hhex'⟩ := List.forall_mem_cons.mp hhex
    obtain ⟨hcall, rfl⟩ := List.cons.inj hcalls
    obtain ⟨rfl, rfl⟩ := Prod.mk.inj hcall
    obtain ⟨⟨line', eof'⟩, stdin', hnext⟩ := exists_lineCalls newline (hexLine next) (lines.map hexLine)
    have hscan := scanAddr_hexLine hx true logicalAddr
    rw [if_pos rfl] at hscan
    have ih : ∀ vm, readLoop stdin' line' eof' (address digits) vm =
        translateAll (translated newline (next :: lines)) vm := fun _ => readLoop_eq hhex' hnext
    rw [hnext, translated_cons, translateAll]
    simp only [readLoop, hscan, ih]
    rfl

/-! ### The file -/

/-- The three lines with the sizes, as the program reads them. -/
structure Accepted (l1 l2 l3 : List Char) (h : Header) : Prop where
  newline : ∀ line ∈ [l1, l2, l3], '\n' ∉ line
  length : ∀ line ∈ [l1, l2, l3], line.length < 999
  log : scanSize "Logical address space size: %d^%d" l1 = some h.logSize
  phy : scanSize "Physical address space size: %d^%d" l2 = some h.phySize
  page : scanSize "Page size: %d^%d" l3 = some h.pageSize

theorem scanSize_newline (format : String) (newline : Bool) (line : List Char) :
    scanSize format (if newline then line ++ ['\n'] else line) = scanSize format line := by
  unfold scanSize
  cases newline with
  | true => rw [if_pos rfl, sscanf_newline]
  | false => rfl

theorem scanSize_lt {format : String} {line : List Char} {size : ℕ} (hs : scanSize format line = some size) :
    size < 2 ^ 32 := by
  unfold scanSize at hs
  split at hs
  · obtain rfl := Option.some.inj hs
    unfold toUnsigned
    omega
  · cases hs

theorem Accepted.line (hacc : Accepted l1 l2 l3 h) : ∀ line ∈ [l1, l2, l3], Line maxStr line := by
  intro line hline
  refine ⟨?_, hacc.newline line hline, Nat.add_lt_add_right (hacc.length line hline) 1⟩
  -- no size is read from an empty line
  rintro rfl
  rcases List.mem_cons.mp hline with rfl | hline
  · exact absurd (show none = some h.logSize from hacc.log) nofun
  · rcases List.mem_cons.mp hline with rfl | hline
    · exact absurd (show none = some h.phySize from hacc.phy) nofun
    · obtain rfl := List.mem_singleton.mp hline
      exact absurd (show none = some h.pageSize from hacc.page) nofun

/-- The input: the lines with the sizes and those with the addresses, the last one with a newline or
not. -/
def file (l1 l2 l3 : List Char) (lines : List (List Char)) (newline : Bool) : Stream :=
  calls maxStr (joined newline (l1 :: l2 :: l3 :: lines.map hexLine))

theorem readSize_eq {n size : ℕ} {format : String} {line : List Char}
    (hs : scanSize format line = some size) : readSize n format line = .ok size := by
  unfold readSize
  rw [hs]

theorem mapper_cons {line1 line2 line3 : List Char} {eof1 eof2 eof3 : Bool} {stdin : Stream}
    (line : List Char) (logicalAddr : ℕ) :
    mapper line logicalAddr ((line1, eof1) :: (line2, eof2) :: (line3, eof3) :: stdin) =
      (readSize 1 "Logical address space size: %d^%d" line1).bind fun logSize =>
        (readSize 2 "Physical address space size: %d^%d" line2).bind fun phySize =>
          (readSize 3 "Page size: %d^%d" line3).bind fun pageSize =>
            (defined (setUp ⟨logSize, phySize, pageSize⟩)).bind fun vm =>
              defined (readLoop (fgets line3 stdin).2 (fgets line3 stdin).1.1 (fgets line3 stdin).1.2
                logicalAddr vm) := rfl

/-- The program after the three lines with the sizes. -/
theorem mapper_sizes {line1 line2 line3 : List Char} {eof1 eof2 eof3 : Bool} {stdin : Stream}
    (hlog : scanSize "Logical address space size: %d^%d" line1 = some h.logSize)
    (hphy : scanSize "Physical address space size: %d^%d" line2 = some h.phySize)
    (hpage : scanSize "Page size: %d^%d" line3 = some h.pageSize) (line : List Char) (logicalAddr : ℕ) :
    mapper line logicalAddr ((line1, eof1) :: (line2, eof2) :: (line3, eof3) :: stdin) =
      (defined (setUp h)).bind fun vm => defined (readLoop (fgets line3 stdin).2
        (fgets line3 stdin).1.1 (fgets line3 stdin).1.2 logicalAddr vm) := by
  rw [mapper_cons, readSize_eq hlog, readSize_eq hphy, readSize_eq hpage, Except.bind, Except.bind,
    Except.bind]

theorem defined_main (h : Header) (addrs : List ℕ) :
    (defined (setUp h)).bind (fun vm => defined (translateAll addrs vm)) = defined (main h addrs) := by
  unfold main
  cases setUp h with
  | none => rfl
  | some vm => rfl

/-- **What the program does with its input.** -/
theorem mapper_eq (hacc : Accepted l1 l2 l3 h) {lines : List (List Char)} (hhex : ∀ d ∈ lines, Hex d)
    (newline : Bool) (line : List Char) (logicalAddr : ℕ) :
    mapper line logicalAddr (file l1 l2 l3 lines newline) =
      defined (main h (translated newline lines)) := by
  have hlines : ∀ line ∈ l1 :: l2 :: l3 :: lines.map hexLine, Line maxStr line := by
    intro line hline
    rcases List.mem_append.mp (show line ∈ [l1, l2, l3] ++ lines.map hexLine from hline) with hl | hl
    · exact hacc.line line hl
    · obtain ⟨d, hd, rfl⟩ := List.mem_map.mp hl
      exact (hhex d hd).line
  have hlog := (scanSize_newline "Logical address space size: %d^%d" true l1).trans hacc.log
  have hphy := (scanSize_newline "Physical address space size: %d^%d" true l2).trans hacc.phy
  rw [if_pos rfl] at hlog hphy
  rw [file, calls_joined hlines, ← defined_main]
  cases lines with
  | nil =>
    have hpage := (scanSize_newline "Page size: %d^%d" newline l3).trans hacc.page
    have htrans : translated newline [] = [] := by cases newline <;> rfl
    rw [htrans]
    exact mapper_sizes hlog hphy hpage line logicalAddr
  | cons digits lines =>
    have hpage := (scanSize_newline "Page size: %d^%d" true l3).trans hacc.page
    rw [if_pos rfl] at hpage
    obtain ⟨⟨line', eof'⟩, stdin', hnext⟩ := exists_lineCalls newline (hexLine digits) (lines.map hexLine)
    have hloop : ∀ vm, readLoop stdin' line' eof' logicalAddr vm =
        translateAll (translated newline (digits :: lines)) vm := fun _ => readLoop_eq hhex hnext
    simp only [List.map_cons, lineCalls, hnext]
    rw [mapper_sizes hlog hphy hpage]
    simp only [fgets, hloop]

theorem translate_logicalAddr {a : ℕ} {vm vm' : Vm} {b : Block}
    (hrun : translate a vm = some (b, vm')) : b.logicalAddr = a := by
  obtain ⟨_, -, hrun⟩ := Option.bind_eq_some_iff.mp hrun
  obtain ⟨_, -, hrun⟩ := Option.bind_eq_some_iff.mp hrun
  obtain ⟨entry, -, hrun⟩ := Option.bind_eq_some_iff.mp hrun
  -- the frame is found or taken from the table, and then the address is put together
  by_cases hentry : entry = -1
  · simp only [if_pos hentry] at hrun
    obtain ⟨_, -, hrun⟩ := Option.bind_eq_some_iff.mp hrun
    obtain ⟨_, -, hrun⟩ := Option.bind_eq_some_iff.mp hrun
    obtain ⟨rfl, -⟩ := Prod.mk.inj (Option.some.inj hrun)
    rfl
  · simp only [if_neg hentry] at hrun
    obtain ⟨_, -, hrun⟩ := Option.bind_eq_some_iff.mp hrun
    obtain ⟨_, -, hrun⟩ := Option.bind_eq_some_iff.mp hrun
    obtain ⟨rfl, -⟩ := Prod.mk.inj (Option.some.inj hrun)
    rfl

theorem translateAll_logicalAddr : ∀ {addrs : List ℕ} {vm vm' : Vm} {bs : List Block},
    translateAll addrs vm = some (bs, vm') → bs.map Block.logicalAddr = addrs
  | [], vm, vm', bs, hrun => by
    obtain ⟨rfl, rfl⟩ := Prod.mk.inj (Option.some.inj hrun)
    rfl
  | a :: addrs, vm, vm', bs, hrun => by
    obtain ⟨⟨block, vm₁⟩, hblock, hrun⟩ := Option.bind_eq_some_iff.mp hrun
    obtain ⟨⟨blocks, vm₂⟩, hrest, hrun⟩ := Option.bind_eq_some_iff.mp hrun
    obtain ⟨rfl, rfl⟩ := Prod.mk.inj (Option.some.inj hrun)
    have haddr : block.logicalAddr = a := translate_logicalAddr hblock
    rw [List.map_cons, haddr, translateAll_logicalAddr hrest]

theorem main_logicalAddr {addrs : List ℕ} {bs : List Block} {vm : Vm} (hrun : main h addrs = some (bs, vm)) :
    bs.map Block.logicalAddr = addrs := by
  obtain ⟨_, -, hrun⟩ := Option.bind_eq_some_iff.mp hrun
  exact translateAll_logicalAddr hrun

theorem defined_eq_ok {α : Type} {r : Option α} {a : α} (hr : defined r = .ok a) : r = some a := by
  cases r with
  | none => cases hr
  | some b => exact congrArg some (Except.ok.inj hr)

theorem translated_eq {newline : Bool} {lines : List (List Char)} (hline : lines = [] ∨ newline = true) :
    translated newline lines = lines.map address := by
  rcases hline with rfl | rfl
  · cases newline <;> rfl
  · rfl

/-- **Each line is translated once, exactly if the last line ends in a newline**, and the translation of
its addresses is defined. -/
theorem lines_iff (hacc : Accepted l1 l2 l3 h) {lines : List (List Char)} (hhex : ∀ d ∈ lines, Hex d)
    (newline : Bool) (line : List Char) (logicalAddr : ℕ) :
    (∃ bs vm, mapper line logicalAddr (file l1 l2 l3 lines newline) = .ok (bs, vm) ∧
      bs.map Block.logicalAddr = lines.map (numeral 16)) ↔
      (lines = [] ∨ newline = true) ∧ (∀ d ∈ lines, numeral 16 d < 2 ^ 32) ∧
        Defined h (lines.map (numeral 16)) := by
  have hsome := main_isSome_iff (scanSize_lt hacc.log) (scanSize_lt hacc.phy)
  rw [mapper_eq hacc hhex]
  constructor
  · rintro ⟨bs, vm, hrun, hbs⟩
    have hmain : main h (translated newline lines) = some (bs, vm) := defined_eq_ok hrun
    have haddrs : translated newline lines = lines.map (numeral 16) :=
      (main_logicalAddr hmain).symm.trans hbs
    have hline : lines = [] ∨ newline = true := by
      by_contra hc
      obtain ⟨hne, hnew⟩ := not_or.mp hc
      -- the last line is missing
      have hlen := congrArg List.length haddrs
      rw [translated, if_neg hnew, List.length_dropLast, List.length_map, List.length_map] at hlen
      have hpos := List.length_pos_of_ne_nil hne
      omega
    rw [translated_eq hline] at haddrs
    rw [translated_eq hline, haddrs] at hmain
    refine ⟨hline, fun d hd => ?_, (hsome _).mp (Option.isSome_of_eq_some hmain)⟩
    rw [← List.map_inj_left.mp haddrs d hd]
    exact address_lt d
  · rintro ⟨hline, hlt, hdef⟩
    have haddrs : translated newline lines = lines.map (numeral 16) :=
      (translated_eq hline).trans (List.map_congr_left fun d hd => address_eq (hlt d hd))
    obtain ⟨⟨bs, vm⟩, hmain⟩ := Option.isSome_iff_exists.mp ((hsome _).mpr hdef)
    refine ⟨bs, vm, ?_, main_logicalAddr hmain⟩
    rw [haddrs, hmain]
    rfl

/-- Sixteen bytes of logical and of physical memory, in pages of four. -/
theorem accepted_small : Accepted "Logical address space size: 2^4".toList
    "Physical address space size: 2^4".toList "Page size: 2^2".toList ⟨4, 4, 2⟩ where
  newline := by decide
  length := by decide
  log := by decide
  phy := by decide
  page := by decide

theorem hex_digit {c : Char} (hc : isDigit 16 c = true) : Hex [c] :=
  ⟨List.cons_ne_nil _ _, List.forall_mem_singleton.mpr hc, show 3 < 999 by decide⟩

/-- One address, without a newline: nothing is printed. -/
theorem lines_iff_last : ¬∃ bs vm, mapper [] 0 (file "Logical address space size: 2^4".toList
    "Physical address space size: 2^4".toList "Page size: 2^2".toList [['9']] false) = .ok (bs, vm) ∧
    bs.map Block.logicalAddr = [9] := by
  rintro ⟨bs, vm, hrun, hbs⟩
  rw [mapper_eq accepted_small (List.forall_mem_singleton.mpr (hex_digit rfl))] at hrun
  exact absurd ((main_logicalAddr (defined_eq_ok hrun)).symm.trans hbs) (by decide)

/-- Two addresses, and a newline. -/
theorem lines_iff_two : ∃ bs vm, mapper [] 0 (file "Logical address space size: 2^4".toList
    "Physical address space size: 2^4".toList "Page size: 2^2".toList [['9'], ['1']] true) =
      .ok (bs, vm) ∧ bs.map Block.logicalAddr = [9, 1] :=
  (lines_iff accepted_small (List.forall_mem_cons.mpr ⟨hex_digit rfl,
    List.forall_mem_singleton.mpr (hex_digit rfl)⟩) true [] 0).mpr
    ⟨.inr rfl, by decide, ⟨by decide, by decide, by decide, by decide, by decide⟩⟩

end Eecs678.AddrMap.Lines
