import Mathlib.Data.Nat.Prime.Basic
import FaultInjection.Memory.Store
import FaultInjection.Python.Result

/-!
# The backing memory

`mm_t` is the memory behind the simulated DRAM: bytes in a buffer, read a word at a time
and written under a byte strobe.  What C++ leaves undefined, and an assertion that fails,
is an error of the model.
-/

namespace FaultInjection

/-- How a call of the harness goes wrong. -/
inductive HarnessError where
  | assertion
  | outOfBounds
  | overflow
  | abort
  deriving DecidableEq, Repr

/-- Arithmetic on `uint64_t` is modulo this number. -/
def uint64Bound : Nat := 2 ^ 64

/-- An `int` that is not negative lies below this number. -/
def intBound : Nat := 2 ^ 31

/-- `mm_t` after a call of `init`, with what `init` asserts. -/
structure Mm where
  data : Nat → UInt8
  size : Nat
  wordSize : Nat
  lineSize : Nat
  size_pos : 0 < size
  wordSize_pos : 0 < wordSize
  lineSize_pos : 0 < lineSize
  lineSize_lt : lineSize < intBound
  lineSize_and : lineSize &&& (lineSize - 1) = 0
  lineSize_mod : lineSize % wordSize = 0

namespace Mm

def read (mm : Mm) (addr : Nat) : Except HarnessError (List UInt8) :=
  let addr := addr % mm.size
  if addr + mm.wordSize ≤ mm.size then
    .ok ((List.range mm.wordSize).map fun i => mm.data (addr + i))
  else .error .outOfBounds

/-- The same buffer with other contents. -/
def withData (mm : Mm) (data : Nat → UInt8) : Mm := { mm with data := data }

@[simp]
theorem withData_data (mm : Mm) (data : Nat → UInt8) : (mm.withData data).data = data := rfl

@[simp]
theorem withData_size (mm : Mm) (data : Nat → UInt8) : (mm.withData data).size = mm.size := rfl

@[simp]
theorem withData_withData (mm : Mm) (data data' : Nat → UInt8) :
    (mm.withData data).withData data' = mm.withData data' := rfl

/-- Write one byte of the buffer. -/
def poke (mm : Mm) (addr : Nat) (byte : UInt8) : Except HarnessError Mm :=
  if addr < mm.size then .ok (mm.withData (Function.update mm.data addr byte))
  else .error .outOfBounds

/-- The loop of `write`: the lanes from `i` on, whose strobe bits have come to the front. -/
def writeLanes (mm : Mm) (base : Nat) (data : Nat → UInt8) :
    Nat → Nat → Nat → Except HarnessError Mm
  | 0, _, _ => .ok mm
  | lanes + 1, i, strb => do
      let mm ← if strb &&& 1 = 1 then mm.poke (base + i) (data i) else .ok mm
      writeLanes mm base data lanes (i + 1) (strb >>> 1)

/-- `((1 << size) - 1) << offset`, computed on `int`s. -/
def strobeMask (size offset : Nat) : Except HarnessError Nat :=
  let mask := (2 ^ size - 1) <<< offset
  if size < 31 ∧ mask < intBound then .ok mask else .error .overflow

/-- The strobe bits of the bytes written; sixty-four of them are all. -/
def maskStrobe (mm : Mm) (addr strb size : Nat) : Except HarnessError Nat :=
  if size ≠ 64 then (strobeMask size (addr % mm.wordSize)).map (strb &&& ·) else .ok strb

/-- The word of an address in the buffer. -/
def base (mm : Mm) (addr : Nat) : Nat :=
  let addr := addr % mm.size
  addr / mm.wordSize * mm.wordSize

/-- `write`; the data are the bytes of one word. -/
def write (mm : Mm) (addr : Nat) (data : Nat → UInt8) (strb size : Nat) :
    Except HarnessError Mm :=
  if 64 < size then .error .assertion
  else do
    let strb ← mm.maskStrobe addr strb size
    mm.writeLanes (mm.base addr) data mm.wordSize 0 strb

variable {mm : Mm}

theorem exists_wordSize (mm : Mm) : ∃ exponent, exponent ≤ 30 ∧ mm.wordSize = 2 ^ exponent := by
  obtain ⟨line, hline⟩ := (Nat.and_sub_one_eq_zero_iff_isPowerOfTwo
    (Nat.ne_of_gt mm.lineSize_pos)).mp mm.lineSize_and
  have hdvd : mm.wordSize ∣ 2 ^ line := hline ▸ Nat.dvd_of_mod_eq_zero mm.lineSize_mod
  obtain ⟨exponent, hle, hword⟩ := (Nat.dvd_prime_pow Nat.prime_two).mp hdvd
  have hlt : 2 ^ line < 2 ^ 31 := hline ▸ mm.lineSize_lt
  have hbound := (Nat.pow_lt_pow_iff_right (by decide)).mp hlt
  exact ⟨exponent, by omega, hword⟩

theorem wordSize_dvd_bound (mm : Mm) : mm.wordSize ∣ uint64Bound := by
  obtain ⟨exponent, hle, hword⟩ := mm.exists_wordSize
  rw [hword]
  exact Nat.pow_dvd_pow 2 (by omega)

/-- The buffer holds whole words. -/
def Aligned (mm : Mm) : Prop := mm.wordSize ∣ mm.size

/-- A word at an address that is a multiple of the word size ends inside the buffer. -/
theorem Aligned.word_le (aligned : mm.Aligned) {addr : Nat} (haddr : mm.wordSize ∣ addr) :
    addr % mm.size + mm.wordSize ≤ mm.size := by
  have hmod : mm.wordSize ∣ addr % mm.size := (Nat.dvd_mod_iff aligned).mpr haddr
  have hlt : addr % mm.size < mm.size := Nat.mod_lt _ mm.size_pos
  have hle := Nat.le_of_dvd (Nat.sub_pos_of_lt hlt) (Nat.dvd_sub aligned hmod)
  omega

/-- The word that `read` returns. -/
def word (mm : Mm) (addr : Nat) : List UInt8 :=
  (List.range mm.wordSize).map fun i => mm.data (addr % mm.size + i)

theorem read_eq_ok {addr : Nat} {bytes : List UInt8} :
    mm.read addr = .ok bytes ↔ addr % mm.size + mm.wordSize ≤ mm.size ∧ bytes = mm.word addr := by
  rw [read, word]
  by_cases hinside : addr % mm.size + mm.wordSize ≤ mm.size
  · rw [if_pos hinside, Except.ok.injEq]
    exact ⟨fun heq => ⟨hinside, heq.symm⟩, fun heq => heq.2.symm⟩
  · rw [if_neg hinside]
    exact ⟨fun impossible => (by cases impossible), fun heq => absurd heq.1 hinside⟩

/-- The buffer after the lanes from `i` on have been written. -/
def laid (mm : Mm) (base : Nat) (data : Nat → UInt8) (lanes i strb : Nat) : Mm :=
  mm.withData fun addr =>
    if base + i ≤ addr ∧ addr < base + i + lanes ∧ strb.testBit (addr - (base + i)) = true then
      data (addr - base)
    else mm.data addr

theorem poke_eq_ok {addr : Nat} {byte : UInt8} {mm' : Mm} :
    mm.poke addr byte = .ok mm' ↔
      addr < mm.size ∧ mm' = mm.withData (Function.update mm.data addr byte) := by
  rw [poke]
  by_cases haddr : addr < mm.size
  · rw [if_pos haddr, Except.ok.injEq]
    exact ⟨fun heq => ⟨haddr, heq.symm⟩, fun heq => heq.2.symm⟩
  · rw [if_neg haddr]
    exact ⟨fun impossible => (by cases impossible), fun heq => absurd heq.1 haddr⟩

/-- Every lane whose strobe bit is set lies in the buffer. -/
def Inside (mm : Mm) (base lanes i strb : Nat) : Prop :=
  ∀ lane, lane < lanes → strb.testBit lane = true → base + i + lane < mm.size

theorem inside_succ {base lanes i strb : Nat} :
    mm.Inside base (lanes + 1) i strb ↔
      (strb.testBit 0 = true → base + i < mm.size) ∧
        mm.Inside base lanes (i + 1) (strb >>> 1) := by
  constructor
  · intro inside
    refine ⟨fun hset => inside 0 (Nat.succ_pos _) hset, fun lane hlane hset => ?_⟩
    rw [Nat.testBit_shiftRight, Nat.add_comm] at hset
    have hlt := inside (lane + 1) (Nat.succ_lt_succ hlane) hset
    omega
  · rintro ⟨hfirst, hrest⟩ lane hlane hset
    cases lane with
    | zero => exact hfirst hset
    | succ lane =>
        have hlt := hrest lane (Nat.lt_of_succ_lt_succ hlane)
          (by rwa [Nat.testBit_shiftRight, Nat.add_comm])
        omega

/-- The loop writes the lanes whose strobe bit is set, if they lie in the buffer. -/
theorem writeLanes_eq_ok {base : Nat} {data : Nat → UInt8} {lanes i strb : Nat} {mm' : Mm} :
    mm.writeLanes base data lanes i strb = .ok mm' ↔
      mm.Inside base lanes i strb ∧ mm' = mm.laid base data lanes i strb := by
  induction lanes generalizing mm i strb with
  | zero =>
      have hnone : ∀ addr, ¬ (base + i ≤ addr ∧ addr < base + i + 0 ∧
          strb.testBit (addr - (base + i)) = true) := fun addr hlane => by omega
      have hlaid : mm.laid base data 0 i strb = mm :=
        congrArg mm.withData (funext fun addr => if_neg (hnone addr))
      rw [writeLanes, hlaid, Except.ok.injEq]
      exact ⟨fun heq => ⟨fun _ hlane => absurd hlane (Nat.not_lt_zero _), heq.symm⟩,
        fun heq => heq.2.symm⟩
  | succ lanes ih =>
      have hbit : strb &&& 1 = 1 ↔ strb.testBit 0 = true := by
        rw [Nat.and_one_is_mod, Nat.testBit_zero, decide_eq_true_eq]
      have hshift : ∀ addr, base + (i + 1) ≤ addr →
          (strb >>> 1).testBit (addr - (base + (i + 1))) = strb.testBit (addr - (base + i)) := by
        intro addr hle
        rw [Nat.testBit_shiftRight]
        congr 1
        omega
      -- the lane at the front is written or left, the others are those of the loop
      have hlanes : ∀ addr, addr ≠ base + i → ((base + i ≤ addr ∧ addr < base + i + (lanes + 1) ∧
          strb.testBit (addr - (base + i)) = true) ↔
          (base + (i + 1) ≤ addr ∧ addr < base + (i + 1) + lanes ∧
            (strb >>> 1).testBit (addr - (base + (i + 1))) = true)) := by
        intro addr hne
        constructor
        · rintro ⟨hle, hlt, hset⟩
          exact ⟨by omega, by omega, (hshift addr (by omega)).trans hset⟩
        · rintro ⟨hle, hlt, hset⟩
          exact ⟨by omega, by omega, (hshift addr hle).symm.trans hset⟩
      rw [writeLanes, inside_succ]
      by_cases hset : strb.testBit 0 = true
      · have hlaid : (mm.withData (Function.update mm.data (base + i) (data i))).laid base data
            lanes (i + 1) (strb >>> 1) = mm.laid base data (lanes + 1) i strb := by
          rw [laid, laid, withData_withData, withData_data]
          congr 1
          funext addr
          by_cases haddr : addr = base + i
          · subst haddr
            rw [if_neg (by omega), if_pos (by simp [hset]), Function.update_self]
            congr 1
            omega
          · rw [Function.update_of_ne haddr]
            simp only [hlanes addr haddr]
        rw [if_pos (hbit.mpr hset), bind_eq_ok, ← hlaid]
        constructor
        · rintro ⟨mm₁, hpoke, hrun⟩
          obtain ⟨haddr, rfl⟩ := poke_eq_ok.mp hpoke
          obtain ⟨inside, heq⟩ := ih.mp hrun
          exact ⟨⟨fun _ => haddr, inside⟩, heq⟩
        · rintro ⟨⟨haddr, inside⟩, heq⟩
          exact ⟨_, poke_eq_ok.mpr ⟨haddr hset, rfl⟩, ih.mpr ⟨inside, heq⟩⟩
      · have hlaid : mm.laid base data lanes (i + 1) (strb >>> 1) =
            mm.laid base data (lanes + 1) i strb := by
          rw [laid, laid]
          congr 1
          funext addr
          by_cases haddr : addr = base + i
          · subst haddr
            rw [if_neg (by omega), if_neg (by simp [hset])]
          · simp only [hlanes addr haddr]
        rw [if_neg (fun hone => hset (hbit.mp hone)), ← hlaid]
        refine ih.trans (and_congr_left fun _ => ?_)
        exact ⟨fun inside => ⟨fun h => absurd h hset, inside⟩, fun inside => inside.2⟩

/-- The lanes that a write of some bytes at an address covers. -/
def covers (mm : Mm) (addr size lane : Nat) : Bool :=
  size == 64 || (decide (addr % mm.wordSize ≤ lane) && decide (lane < addr % mm.wordSize + size))

/-- The memory after a write: bytes change in the word of the address only, where the strobe
is set and the lane lies among the bytes written. -/
def stored (mm : Mm) (addr : Nat) (data : Nat → UInt8) (strb size : Nat) : Mm :=
  mm.withData fun byte =>
    if byte / mm.wordSize = addr % mm.size / mm.wordSize ∧
        strb.testBit (byte % mm.wordSize) = true ∧
        mm.covers addr size (byte % mm.wordSize) = true then
      data (byte % mm.wordSize)
    else mm.data byte

theorem testBit_strobeMask {size offset mask : Nat} (hmask : strobeMask size offset = .ok mask)
    (lane : Nat) :
    mask.testBit lane = (decide (offset ≤ lane) && decide (lane < offset + size)) := by
  rw [strobeMask] at hmask
  split at hmask
  · cases hmask
    rw [Nat.testBit_shiftLeft, Nat.testBit_two_pow_sub_one]
    by_cases hle : offset ≤ lane
    · simp only [ge_iff_le, hle, decide_true, Bool.true_and, decide_eq_decide]
      omega
    · simp [hle]
  · cases hmask

/-- The strobe that a write computes. -/
def Strobe (mm : Mm) (addr strb size strobe : Nat) : Prop :=
  (size = 64 ∧ strobe = strb) ∨
    (size < 64 ∧ ∃ mask, strobeMask size (addr % mm.wordSize) = .ok mask ∧ strobe = strb &&& mask)

theorem strobe_iff {addr strb size strobe : Nat} (hsize : ¬ 64 < size) :
    mm.maskStrobe addr strb size = .ok strobe ↔ mm.Strobe addr strb size strobe := by
  rw [maskStrobe]
  by_cases hfull : size = 64
  · rw [if_neg (not_not.mpr hfull), Except.ok.injEq]
    constructor
    · rintro rfl
      exact Or.inl ⟨hfull, rfl⟩
    · rintro (⟨-, rfl⟩ | ⟨hlt, -⟩)
      · rfl
      · omega
  · rw [if_pos hfull, map_eq_ok]
    constructor
    · rintro ⟨mask, hmask, rfl⟩
      exact Or.inr ⟨by omega, mask, hmask, rfl⟩
    · rintro (⟨hsixty, -⟩ | ⟨-, mask, hmask, rfl⟩)
      · exact absurd hsixty hfull
      · exact ⟨mask, hmask, rfl⟩

theorem Strobe.testBit {addr strb size strobe : Nat} (computed : mm.Strobe addr strb size strobe)
    (lane : Nat) : strobe.testBit lane = (strb.testBit lane && mm.covers addr size lane) := by
  rcases computed with ⟨rfl, rfl⟩ | ⟨hlt, mask, hmask, rfl⟩
  · simp [covers]
  · have hne : (size == 64) = false := beq_eq_false_iff_ne.mpr (Nat.ne_of_lt hlt)
    rw [Nat.testBit_and, testBit_strobeMask hmask, covers, hne, Bool.false_or]

theorem laid_eq_stored {addr strb size strobe : Nat} (computed : mm.Strobe addr strb size strobe)
    (data : Nat → UInt8) :
    mm.laid (mm.base addr) data mm.wordSize 0 strobe = mm.stored addr data strb size := by
  rw [laid, stored, base]
  congr 1
  funext byte
  have hdiv := Nat.div_add_mod byte mm.wordSize
  have hmod := Nat.mod_lt byte mm.wordSize_pos
  by_cases hsame : byte / mm.wordSize = addr % mm.size / mm.wordSize
  · have hlane : byte - addr % mm.size / mm.wordSize * mm.wordSize = byte % mm.wordSize := by
      rw [← hsame, Nat.mul_comm]
      omega
    have hrange : addr % mm.size / mm.wordSize * mm.wordSize ≤ byte ∧
        byte < addr % mm.size / mm.wordSize * mm.wordSize + mm.wordSize := by
      rw [← hsame, Nat.mul_comm]
      omega
    simp only [Nat.add_zero, hlane, hrange, hsame, computed.testBit, Bool.and_eq_true, true_and]
  · have hother : ¬ (addr % mm.size / mm.wordSize * mm.wordSize ≤ byte ∧
        byte < addr % mm.size / mm.wordSize * mm.wordSize + mm.wordSize) := by
      rintro ⟨hle, hlt⟩
      refine hsame (Nat.div_eq_of_lt_le hle ?_)
      rw [Nat.add_mul, Nat.one_mul]
      exact hlt
    rw [if_neg (fun hlane => hother ⟨hlane.1, hlane.2.1⟩), if_neg (fun hlane => hsame hlane.1)]

/-- A write returns exactly when its strobe can be computed and selects bytes of the buffer;
then it stores the bytes that it covers. -/
theorem write_eq_ok {addr strb size : Nat} {data : Nat → UInt8} {mm' : Mm} :
    mm.write addr data strb size = .ok mm' ↔
      (∃ strobe, mm.Strobe addr strb size strobe ∧
        mm.Inside (mm.base addr) mm.wordSize 0 strobe) ∧
      mm' = mm.stored addr data strb size := by
  by_cases hlarge : 64 < size
  · rw [write, if_pos hlarge]
    constructor
    · intro impossible
      cases impossible
    · rintro ⟨⟨strobe, ⟨rfl, -⟩ | ⟨hlt, -⟩, -⟩, -⟩
      · exact absurd hlarge (Nat.lt_irrefl _)
      · omega
  · rw [write, if_neg hlarge, bind_eq_ok]
    constructor
    · rintro ⟨strobe, hstrobe, hrun⟩
      have computed := (strobe_iff hlarge).mp hstrobe
      rw [writeLanes_eq_ok, laid_eq_stored computed] at hrun
      exact ⟨⟨strobe, computed, hrun.1⟩, hrun.2⟩
    · rintro ⟨⟨strobe, computed, inside⟩, heq⟩
      refine ⟨strobe, (strobe_iff hlarge).mpr computed, ?_⟩
      rw [writeLanes_eq_ok, laid_eq_stored computed]
      exact ⟨inside, heq⟩

theorem Aligned.inside (aligned : mm.Aligned) (addr strobe : Nat) :
    mm.Inside (mm.base addr) mm.wordSize 0 strobe := by
  have hdvd : mm.wordSize ∣ mm.base addr := Nat.dvd_mul_left _ _
  have hlt : mm.base addr < mm.size :=
    Nat.lt_of_le_of_lt (Nat.div_mul_le_self _ _) (Nat.mod_lt _ mm.size_pos)
  have hle := aligned.word_le hdvd
  rw [Nat.mod_eq_of_lt hlt] at hle
  intro lane hlane _
  omega

/-- The strobe of a word of at most sixteen bytes can be computed. -/
theorem exists_strobe (mm : Mm) (addr strb : Nat) {size : Nat} (hword : mm.wordSize ≤ 16)
    (hsize : size ≤ mm.wordSize) : ∃ strobe, mm.Strobe addr strb size strobe := by
  have hoffset : addr % mm.wordSize < mm.wordSize := Nat.mod_lt _ mm.wordSize_pos
  have hmask : (2 ^ size - 1) <<< (addr % mm.wordSize) < intBound := by
    rw [Nat.shiftLeft_eq]
    have hfirst : 2 ^ size - 1 < 2 ^ 16 :=
      Nat.lt_of_lt_of_le (Nat.sub_lt (Nat.two_pow_pos _) Nat.one_pos)
        (Nat.pow_le_pow_right (by decide) (by omega))
    have hsecond : 2 ^ (addr % mm.wordSize) ≤ 2 ^ 15 :=
      Nat.pow_le_pow_right (by decide) (by omega)
    calc (2 ^ size - 1) * 2 ^ (addr % mm.wordSize)
        ≤ (2 ^ size - 1) * 2 ^ 15 := Nat.mul_le_mul_left _ hsecond
      _ < 2 ^ 16 * 2 ^ 15 := Nat.mul_lt_mul_of_pos_right hfirst (by decide)
      _ = intBound := rfl
  exact ⟨_, Or.inr ⟨by omega, _, if_pos ⟨by omega, hmask⟩, rfl⟩⟩

end Mm

end FaultInjection
