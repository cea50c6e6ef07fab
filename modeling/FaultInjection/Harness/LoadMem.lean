import FaultInjection.Harness.MagicRuns

/-!
# Loading a memory

`load_mem` fills the memory from a file of hexadecimal lines.  A line lists its bytes from
the last to the first, and the lines follow one another in the memory, around its end.
-/

namespace FaultInjection

/-- `std::getline` until the end of the file. -/
def getlines : List UInt8 → List (List UInt8)
  | [] => []
  | byte :: rest =>
      if byte = 10 then [] :: getlines rest
      else
        match getlines rest with
        | [] => [[byte]]
        | line :: lines => (byte :: line) :: lines

/-- `parse_nibble`; a `char` from 128 on is negative. -/
def parseNibble (c : UInt8) : UInt8 :=
  if 97 ≤ c ∧ c < 128 then c - 97 + 10 else c - 48

/-- The two digits of a byte. -/
def parseByte (high low : UInt8) : UInt8 := parseNibble high <<< 4 ||| parseNibble low

namespace Mm

/-- The loop over a line, from its last two digits on; a digit that is left over is ignored. -/
def loadLine (mm : Mm) (start : Nat) : Nat → List UInt8 → Mm
  | j, low :: high :: rest =>
      let addr := (start + j) % uint64Bound % mm.size
      loadLine (mm.withData (Function.update mm.data addr (parseByte high low))) start (j + 1) rest
  | _, _ => mm

/-- The loop over the lines. -/
def loadLines (mm : Mm) (start fsize : Nat) : List (List UInt8) → Except HarnessError Mm
  | [] => .ok mm
  | line :: lines =>
      let mm := mm.loadLine start 0 line.reverse
      let start := (start + line.length / 2) % uint64Bound
      let fsize := (fsize + line.length / 2) % uint64Bound
      if mm.size < fsize then .error .abort else mm.loadLines start fsize lines

/-- `load_mem`, given the contents of the file if it can be opened. -/
def loadMem (mm : Mm) (start : Nat) : Option (List UInt8) → Except HarnessError Mm
  | none => .error .abort
  | some contents => mm.loadLines start 0 (getlines contents)

end Mm

def hexDigit (value : UInt8) : UInt8 := if value < 10 then value + 48 else value - 10 + 97

/-- The line of some bytes, the last of them first. -/
def hexLine : List UInt8 → List UInt8
  | [] => []
  | byte :: bytes => hexLine bytes ++ [hexDigit (byte >>> 4), hexDigit (byte &&& 15)]

/-- The file of some blocks of bytes, each on a line. -/
def hexFile (blocks : List (List UInt8)) : List UInt8 :=
  blocks.flatMap fun block => hexLine block ++ [10]

theorem parseByte_hexDigit (byte : UInt8) :
    parseByte (hexDigit (byte >>> 4)) (hexDigit (byte &&& 15)) = byte := by
  have hall : ∀ n : Fin 256, parseByte (hexDigit (UInt8.ofNat n >>> 4))
      (hexDigit (UInt8.ofNat n &&& 15)) = UInt8.ofNat n := by decide +kernel
  have hbyte := hall ⟨byte.toNat, byte.toNat_lt⟩
  rwa [UInt8.ofNat_toNat] at hbyte

theorem hexDigit_ne_newline (byte : UInt8) :
    hexDigit (byte >>> 4) ≠ 10 ∧ hexDigit (byte &&& 15) ≠ 10 := by
  have hall : ∀ n : Fin 256, hexDigit (UInt8.ofNat n >>> 4) ≠ 10 ∧
      hexDigit (UInt8.ofNat n &&& 15) ≠ 10 := by decide +kernel
  have hbyte := hall ⟨byte.toNat, byte.toNat_lt⟩
  rwa [UInt8.ofNat_toNat] at hbyte

theorem newline_not_mem_hexLine (block : List UInt8) : 10 ∉ hexLine block := by
  induction block with
  | nil => exact List.not_mem_nil
  | cons byte block ih =>
      have hne := hexDigit_ne_newline byte
      rw [hexLine, List.mem_append]
      rintro (hmem | hmem)
      · exact ih hmem
      · simp only [List.mem_cons, List.not_mem_nil, or_false] at hmem
        rcases hmem with heq | heq
        · exact hne.1 heq.symm
        · exact hne.2 heq.symm

theorem length_hexLine (block : List UInt8) : (hexLine block).length = 2 * block.length := by
  induction block with
  | nil => rfl
  | cons byte block ih =>
      rw [hexLine, List.length_append, ih, List.length_cons]
      exact (Nat.mul_succ 2 _).symm

theorem getlines_append {line : List UInt8} (hline : 10 ∉ line) (rest : List UInt8) :
    getlines (line ++ 10 :: rest) = line :: getlines rest := by
  induction line with
  | nil =>
      rw [List.nil_append, getlines, if_pos rfl]
  | cons byte line ih =>
      have hbyte : byte ≠ 10 := fun heq => hline (heq ▸ .head _)
      rw [List.cons_append, getlines, if_neg hbyte, ih fun hmem => hline (.tail _ hmem)]

theorem getlines_hexFile (blocks : List (List UInt8)) :
    getlines (hexFile blocks) = blocks.map hexLine := by
  induction blocks with
  | nil => rfl
  | cons block blocks ih =>
      rw [hexFile, List.flatMap_cons, List.append_assoc, List.singleton_append,
        getlines_append (newline_not_mem_hexLine block), List.map_cons, ← ih]
      rfl

namespace Mm

/-- Bytes laid one behind the other, around the end of the memory. -/
def filled (mm : Mm) (start : Nat) : List UInt8 → Mm
  | [] => mm
  | byte :: bytes =>
      (mm.withData (Function.update mm.data (start % mm.size) byte)).filled (start + 1) bytes

variable {mm : Mm}

theorem filled_size (mm : Mm) (start : Nat) (bytes : List UInt8) :
    (mm.filled start bytes).size = mm.size := by
  induction bytes generalizing mm start with
  | nil => rfl
  | cons byte bytes ih => exact ih _ _

theorem filled_append (mm : Mm) (start : Nat) (bytes more : List UInt8) :
    mm.filled start (bytes ++ more) = (mm.filled start bytes).filled (start + bytes.length) more := by
  induction bytes generalizing mm start with
  | nil => rfl
  | cons byte bytes ih =>
      rw [List.cons_append, filled, ih, filled, List.length_cons, Nat.add_right_comm, Nat.add_assoc]

theorem filled_data_of_ne {start addr : Nat} {bytes : List UInt8}
    (hne : ∀ k, k < bytes.length → (start + k) % mm.size ≠ addr) :
    (mm.filled start bytes).data addr = mm.data addr := by
  induction bytes generalizing mm start with
  | nil => rfl
  | cons byte bytes ih =>
      have hrest : ∀ k, k < bytes.length → (start + 1 + k) %
          (mm.withData (Function.update mm.data (start % mm.size) byte)).size ≠ addr := by
        intro k hk
        rw [withData_size, Nat.add_assoc, Nat.add_comm 1 k]
        exact hne (k + 1) (Nat.succ_lt_succ hk)
      rw [filled]
      refine (ih hrest).trans ?_
      exact Function.update_of_ne (Ne.symm (hne 0 (Nat.succ_pos _))) _ _

theorem mod_ne_of_lt {start distance size : Nat} (hpos : 0 < distance) (hlt : distance < size) :
    (start + distance) % size ≠ start % size := by
  intro heq
  have hdvd : size ∣ start + distance - start :=
    Nat.dvd_of_mod_eq_zero (Nat.sub_mod_eq_zero_of_mod_eq heq)
  rw [Nat.add_sub_cancel_left] at hdvd
  exact absurd (Nat.le_of_dvd hpos hdvd) (Nat.not_le_of_lt hlt)

/-- Bytes that fit into the memory are found where they were laid. -/
theorem filled_data (mm : Mm) (start : Nat) {k : Nat} {bytes : List UInt8}
    (hfits : bytes.length ≤ mm.size)
    (hk : k < bytes.length) :
    some ((mm.filled start bytes).data ((start + k) % mm.size)) = bytes[k]? := by
  induction bytes generalizing mm start k with
  | nil => cases hk
  | cons byte bytes ih =>
      rw [filled]
      cases k with
      | zero =>
          rw [filled_data_of_ne, List.getElem?_cons_zero]
          · exact congrArg some (Function.update_self ..)
          · intro j hj
            rw [List.length_cons] at hfits
            rw [withData_size, Nat.add_assoc]
            exact mod_ne_of_lt (by omega) (by omega)
      | succ k =>
          have hfound := ih (mm.withData (Function.update mm.data (start % mm.size) byte))
            (start + 1) (Nat.le_of_succ_le hfits) (Nat.lt_of_succ_lt_succ hk)
          rw [List.getElem?_cons_succ, ← hfound, withData_size, Nat.add_right_comm, Nat.add_assoc]

theorem loadLine_hexLine (mm : Mm) {start j : Nat} {block : List UInt8}
    (hbound : start + j + block.length < uint64Bound) :
    mm.loadLine start j (hexLine block).reverse = mm.filled (start + j) block := by
  induction block generalizing mm j with
  | nil => rfl
  | cons byte block ih =>
      rw [List.length_cons] at hbound
      have haddr : (start + j) % uint64Bound = start + j := Nat.mod_eq_of_lt (by omega)
      rw [hexLine, List.reverse_append]
      show loadLine mm start j
        (hexDigit (byte &&& 15) :: hexDigit (byte >>> 4) :: (hexLine block).reverse) = _
      rw [loadLine, parseByte_hexDigit, haddr, ih _ (by omega), filled]
      rfl

/-- The lines fill the memory one behind the other, unless they are too many. -/
theorem loadLines_hexLines (mm : Mm) {start fsize : Nat} {blocks : List (List UInt8)}
    (hbound : start + blocks.flatten.length < uint64Bound)
    (hsum : fsize + blocks.flatten.length < uint64Bound) (hfits : fsize ≤ mm.size) :
    mm.loadLines start fsize (blocks.map hexLine) =
      if fsize + blocks.flatten.length ≤ mm.size then .ok (mm.filled start blocks.flatten)
      else .error .abort := by
  induction blocks generalizing mm start fsize with
  | nil => exact (if_pos hfits).symm
  | cons block blocks ih =>
      rw [List.flatten_cons, List.length_append] at hbound hsum
      have hhalf : (hexLine block).length / 2 = block.length := by
        rw [length_hexLine, Nat.mul_div_cancel_left _ (by decide)]
      have hline : mm.loadLine start 0 (hexLine block).reverse = mm.filled (start + 0) block :=
        mm.loadLine_hexLine (by omega)
      rw [List.map_cons, loadLines, hhalf, hline, Nat.add_zero, filled_size,
        Nat.mod_eq_of_lt (by omega), Nat.mod_eq_of_lt (by omega), List.flatten_cons,
        List.length_append, filled_append]
      by_cases hsize : mm.size < fsize + block.length
      · rw [if_pos hsize, if_neg (by omega)]
      · have hle : fsize + block.length ≤ (mm.filled start block).size := by
          rw [filled_size]
          omega
        rw [if_neg hsize, ih _ (by omega) (by omega) hle, filled_size, Nat.add_assoc]

theorem loadLine_size (mm : Mm) (start j : Nat) (line : List UInt8) :
    (mm.loadLine start j line).size = mm.size := by
  fun_induction loadLine mm start j line with
  | case1 mm j low high rest addr ih => exact ih
  | case2 mm j line hline => rfl

theorem loadLines_refused (mm : Mm) {start fsize : Nat} {blocks : List (List UInt8)}
    (hsum : fsize + blocks.flatten.length < uint64Bound) (hfits : fsize ≤ mm.size)
    (hlarge : mm.size < fsize + blocks.flatten.length) :
    mm.loadLines start fsize (blocks.map hexLine) = .error .abort := by
  induction blocks generalizing mm start fsize with
  | nil => exact absurd hlarge (Nat.not_lt_of_le hfits)
  | cons block blocks ih =>
      rw [List.flatten_cons, List.length_append] at hsum hlarge
      have hhalf : (hexLine block).length / 2 = block.length := by
        rw [length_hexLine, Nat.mul_div_cancel_left _ (by decide)]
      have hcount : (fsize + block.length) % uint64Bound = fsize + block.length :=
        Nat.mod_eq_of_lt (by omega)
      rw [List.map_cons, loadLines, hhalf, hcount, loadLine_size]
      by_cases hsize : mm.size < fsize + block.length
      · rw [if_pos hsize]
      · rw [if_neg hsize]
        refine ih _ (by omega) ?_ ?_
        · rw [loadLine_size]
          omega
        · rw [loadLine_size]
          omega

/--
A file of hexadecimal lines whose bytes fit into the memory, at addresses of 64 bits, is
loaded: the bytes lie one behind the other from the start, around the end of the memory, and
all others are as before.  A larger file is refused, wherever it starts.
-/
theorem loadMem_hexFile (mm : Mm) {start : Nat} {blocks : List (List UInt8)}
    (hbytes : blocks.flatten.length < uint64Bound) :
    (start + blocks.flatten.length < uint64Bound → blocks.flatten.length ≤ mm.size →
      ∃ data, mm.loadMem start (some (hexFile blocks)) = .ok (mm.withData data) ∧
        (∀ k, k < blocks.flatten.length →
          some (data ((start + k) % mm.size)) = blocks.flatten[k]?) ∧
        ∀ addr, (∀ k, k < blocks.flatten.length → (start + k) % mm.size ≠ addr) →
          data addr = mm.data addr) ∧
    (mm.size < blocks.flatten.length →
      mm.loadMem start (some (hexFile blocks)) = .error .abort) := by
  rw [loadMem, getlines_hexFile]
  constructor
  · intro hbound hfits
    have hload : mm.loadLines start 0 (blocks.map hexLine) = _ :=
      mm.loadLines_hexLines hbound (by omega) (Nat.zero_le _)
    have hfilled : ∀ (mm : Mm) (start : Nat) (bytes : List UInt8),
        mm.filled start bytes = mm.withData (mm.filled start bytes).data := by
      intro mm start bytes
      induction bytes generalizing mm start with
      | nil => rfl
      | cons byte bytes ih => exact ih _ _
    refine ⟨(mm.filled start blocks.flatten).data, ?_, fun k hk => mm.filled_data start hfits hk,
      fun addr hne => filled_data_of_ne hne⟩
    rw [hload, Nat.zero_add, if_pos hfits, ← hfilled]
  · intro hlarge
    exact mm.loadLines_refused (by omega) (Nat.zero_le _) (by omega)

def twoBlocks : List (List UInt8) := [[1, 2, 3], [254, 255, 16]]

theorem loadMem_hexFile_twoBlocks : twoBlocks.flatten.length < uint64Bound ∧
    (60 + twoBlocks.flatten.length < uint64Bound →
      twoBlocks.flatten.length ≤ MmMagic.smallMm.size →
      ∃ data, MmMagic.smallMm.loadMem 60 (some (hexFile twoBlocks)) =
          .ok (MmMagic.smallMm.withData data) ∧
        (∀ k, k < twoBlocks.flatten.length →
          some (data ((60 + k) % MmMagic.smallMm.size)) = twoBlocks.flatten[k]?) ∧
        ∀ addr, (∀ k, k < twoBlocks.flatten.length → (60 + k) % MmMagic.smallMm.size ≠ addr) →
          data addr = MmMagic.smallMm.data addr) ∧
    (MmMagic.smallMm.size < twoBlocks.flatten.length →
      MmMagic.smallMm.loadMem 60 (some (hexFile twoBlocks)) = .error .abort) := by
  have hbytes : twoBlocks.flatten.length < uint64Bound := by decide
  exact ⟨hbytes, loadMem_hexFile MmMagic.smallMm hbytes⟩

end Mm

end FaultInjection
