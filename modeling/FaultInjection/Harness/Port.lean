import FaultInjection.Harness.Mm

/-!
# The port

`tick` takes what an AXI port drives in one cycle, and both memories show the fronts of
their queues of answers at it.  Reads are answered word by word.
-/

namespace FaultInjection

/-- The inputs of `tick`: what the port drives in one cycle. -/
structure TickInputs where
  reset : Bool
  arValid : Bool
  arAddr : Nat
  arId : Nat
  arSize : Nat
  arLen : Nat
  awValid : Bool
  awAddr : Nat
  awId : Nat
  awSize : Nat
  awLen : Nat
  wValid : Bool
  wStrb : Nat
  wData : Nat → UInt8
  wLast : Bool
  rReady : Bool
  bReady : Bool

/-- `mm_rresp_t`: one word of a read burst. -/
structure MmRresp where
  id : Nat
  data : List UInt8
  last : Bool
  deriving DecidableEq, Repr

/-- `b_id`: the burst at the front of the queue, or zero. -/
def frontId (bresp : List Nat) : Nat := bresp.headD 0

/-- `r_id`, `r_data` and `r_last`: the word at the front of the queue, or the dummy word. -/
def frontWord (wordSize : Nat) (rresp : List MmRresp) : MmRresp :=
  rresp.headD ⟨0, List.replicate wordSize 0, false⟩

/-- What a transfer does, if it takes place. -/
def onFire {σ : Type} (fire : Bool) (accept : σ → Except HarnessError σ) (state : σ) :
    Except HarnessError σ :=
  if fire then accept state else .ok state

section Queue

variable {α : Type}

/-- What leaves a queue of answers in a cycle: the front when it is taken, all in a reset. -/
def leaving (reset taken : Bool) (front : α) (queue added : List α) : List α :=
  if reset then queue ++ added else if taken then [front] else []

/-- What stays in a queue of answers. -/
def staying (reset taken : Bool) (queue added : List α) : List α :=
  if reset then [] else if taken then queue.drop 1 ++ added else queue ++ added

theorem leaving_append_staying {reset taken : Bool} {front : α} {queue : List α}
    (hfront : taken = true → queue = front :: queue.drop 1) (added : List α) :
    queue ++ added = leaving reset taken front queue added ++ staying reset taken queue added := by
  cases reset with
  | true => exact (List.append_nil _).symm
  | false =>
      cases taken with
      | true =>
          calc queue ++ added = (front :: queue.drop 1) ++ added := by rw [← hfront rfl]
            _ = [front] ++ (queue.drop 1 ++ added) := rfl
      | false => rfl

/-- What stays when the front leaves before the answers of the cycle come. -/
theorem if_append_eq_staying (reset taken : Bool) (queue added : List α) :
    (if reset then [] else (if taken then queue.drop 1 else queue) ++ added) =
      staying reset taken queue added := by
  cases reset with
  | true => rfl
  | false => cases taken <;> rfl

theorem eq_cons_of_headD {front default : α} {queue : List α} (hqueue : queue.isEmpty = false)
    (hfront : front = queue.headD default) : queue = front :: queue.drop 1 := by
  cases queue with
  | nil => cases hqueue
  | cons first rest =>
      rw [hfront]
      rfl

/-- An answer that comes behind others may come after the front has left. -/
theorem drop_append_of_isEmpty {queue : List α} (hqueue : queue.isEmpty = false)
    (added : List α) : (queue ++ added).drop 1 = queue.drop 1 ++ added := by
  cases queue with
  | nil => cases hqueue
  | cons first rest => rfl

end Queue

namespace Mm

/-- The loop over a read burst: the words from `i` on, of which that at `len` is the last. -/
def readWords (mm : Mm) (startAddr id len : Nat) : Nat → Nat → Except HarnessError (List MmRresp)
  | 0, _ => .ok []
  | words + 1, i => do
      let dat ← mm.read ((startAddr + i * mm.wordSize) % uint64Bound)
      let rest ← readWords mm startAddr id len words (i + 1)
      return ⟨id, dat, i == len⟩ :: rest

/-- The answer to a read burst of some words. -/
def burst (mm : Mm) (addr id words : Nat) : List MmRresp :=
  (List.range words).map fun i =>
    { id := id
      data := mm.word ((addr / mm.wordSize * mm.wordSize + i * mm.wordSize) % uint64Bound)
      last := i + 1 == words }

variable {mm : Mm}

theorem readWords_eq_ok {startAddr id len words i : Nat} {answer : List MmRresp} :
    mm.readWords startAddr id len words i = .ok answer ↔
      (∀ j, i ≤ j → j < i + words → (startAddr + j * mm.wordSize) % uint64Bound % mm.size +
        mm.wordSize ≤ mm.size) ∧
      answer = (List.range' i words).map fun j =>
        ⟨id, mm.word ((startAddr + j * mm.wordSize) % uint64Bound), j == len⟩ := by
  induction words generalizing i answer with
  | zero =>
      rw [readWords, Except.ok.injEq]
      constructor
      · rintro rfl
        exact ⟨fun j hle hlt => by omega, rfl⟩
      · rintro ⟨-, rfl⟩
        rfl
  | succ words ih =>
      rw [readWords, bind_eq_ok, List.range'_succ, List.map_cons]
      constructor
      · rintro ⟨dat, hread, hrun⟩
        obtain ⟨hinside, rfl⟩ := read_eq_ok.mp hread
        obtain ⟨rest, hrest, heq⟩ := bind_eq_ok.mp hrun
        cases heq
        obtain ⟨hlater, rfl⟩ := ih.mp hrest
        refine ⟨fun j hle hlt => ?_, rfl⟩
        rcases Nat.eq_or_lt_of_le hle with rfl | hnext
        · exact hinside
        · exact hlater j hnext (by omega)
      · rintro ⟨hall, rfl⟩
        refine ⟨_, read_eq_ok.mpr ⟨hall i (Nat.le_refl i) (by omega), rfl⟩, bind_eq_ok.mpr
          ⟨_, ih.mpr ⟨fun j hle hlt => hall j (by omega) (by omega), rfl⟩, rfl⟩⟩

theorem burst_of_readWords {addr id words len : Nat} {answer : List MmRresp}
    (hrun : mm.readWords (addr / mm.wordSize * mm.wordSize) id len words 0 = .ok answer)
    (hlen : words = 0 ∨ words = len + 1) : answer = mm.burst addr id words := by
  rw [(readWords_eq_ok.mp hrun).2, burst, List.range_eq_range']
  refine List.map_congr_left fun i hi => ?_
  have hlast : (i == len) = (i + 1 == words) := by
    have hlt := (List.mem_range'_1.mp hi).2
    rw [Bool.eq_iff_iff, beq_iff_eq, beq_iff_eq]
    omega
  rw [hlast]

theorem Aligned.exists_readWords (aligned : mm.Aligned) (addr id words len : Nat) :
    ∃ answer, mm.readWords (addr / mm.wordSize * mm.wordSize) id len words 0 = .ok answer := by
  refine ⟨_, readWords_eq_ok.mpr ⟨fun j _ _ => aligned.word_le ?_, rfl⟩⟩
  rw [Nat.dvd_mod_iff mm.wordSize_dvd_bound]
  exact Nat.dvd_add (Nat.dvd_mul_left _ _) (Nat.dvd_mul_left _ _)

end Mm

end FaultInjection
