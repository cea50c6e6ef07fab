import FaultInjection.Harness.MagicRuns
import FaultInjection.Harness.WriteSafety

/-!
# When a run goes through

The memory without delays is always ready for what the master drives, so what the master
owes follows from what it has driven.
-/

namespace FaultInjection

/-- The words still to come; none outside a burst. -/
def StoreState.remaining (store : StoreState) : Option Nat :=
  if store.inflight then some store.count else none

namespace Master

/-- The words that the master still owes, after one more cycle; none outside a burst. -/
def next : Option Nat → TickInputs → Option Nat
  | none, inputs => if !inputs.reset && inputs.awValid then some (inputs.awLen + 1) else none
  | some words, inputs =>
      if !inputs.reset && inputs.wValid then if words = 1 then none else some (words - 1)
      else some words

/-- The last word of a burst is marked as such when it comes. -/
def Marks (remaining : Option Nat) (inputs : TickInputs) : Prop :=
  inputs.reset = false → inputs.wValid = true → remaining = some 1 → inputs.wLast = true

/-- The master marks the last word of every burst. -/
def MarksAll : Option Nat → List TickInputs → Prop
  | _, [] => True
  | remaining, inputs :: rest => Marks remaining inputs ∧ MarksAll (next remaining inputs) rest

end Master

namespace MmMagic

variable {magic : MmMagic} {inputs : TickInputs}

theorem remaining_idle (hidle : magic.store.inflight = false) :
    magic.store.remaining = none := by
  rw [StoreState.remaining, hidle, if_neg Bool.false_ne_true]

theorem remaining_open (hinflight : magic.store.inflight = true) :
    magic.store.remaining = some magic.store.count := by
  rw [StoreState.remaining, hinflight, if_pos rfl]

theorem remaining_step {result : WriteResult} (steady : Steady magic.mm magic.store)
    (fits : inputs.Fits magic.mm.wordSize) (hrun : magic.writeChannel inputs = .ok result) :
    result.store.remaining = Master.next magic.store.remaining inputs := by
  rw [writeChannel, FaultInjection.writeChannel, fits.accept_eq steady.wordSize] at hrun
  cases hinflight : magic.store.inflight with
  | false =>
      have haddress : magic.awFire inputs = (!inputs.reset && inputs.awValid) := by
        rw [awFire, awReady, hinflight, Bool.not_false, Bool.and_true]
      have hword : magic.wFire inputs = false := by
        rw [wFire, wReady, hinflight, Bool.and_false]
      rw [remaining_idle hinflight, Master.next, ← haddress]
      by_cases hfire : magic.awFire inputs = true
      · rw [if_pos hfire] at hrun
        cases hrun
        rw [if_pos hfire]
        rfl
      · rw [if_neg hfire, hword, if_neg Bool.false_ne_true] at hrun
        cases hrun
        rw [if_neg hfire, remaining_idle hinflight]
  | true =>
      have haddress : magic.awFire inputs = false := by
        rw [awFire, awReady, hinflight, Bool.not_true, Bool.and_false]
      have hword : magic.wFire inputs = (!inputs.reset && inputs.wValid) := by
        rw [wFire, wReady, hinflight, Bool.and_true]
      rw [remaining_open hinflight, Master.next, ← hword]
      rw [haddress, if_neg Bool.false_ne_true] at hrun
      by_cases hfire : magic.wFire inputs = true
      · rw [if_pos hfire, steady.storeWord_eq hinflight] at hrun
        rw [if_pos hfire]
        by_cases hone : magic.store.count = 1
        · rw [if_pos hone] at hrun
          rw [if_pos hone]
          by_cases hlast : inputs.wLast = true
          · rw [if_pos hlast] at hrun
            cases hrun
            rfl
          · rw [if_neg hlast] at hrun
            cases hrun
        · rw [if_neg hone] at hrun
          cases hrun
          rw [if_neg hone, StoreState.remaining, steady.advance_count hinflight]
          exact if_pos hinflight
      · rw [if_neg hfire] at hrun
        cases hrun
        rw [if_neg hfire, remaining_open hinflight]

/-- In a buffer of whole words every burst of the port is answered. -/
theorem exists_readChannel (steady : Steady magic.mm magic.store)
    (fits : inputs.Fits magic.mm.wordSize) :
    ∃ words, magic.readChannel inputs = .ok words := by
  have hproduct : inputs.arLen * magic.mm.wordSize ≤ 255 * 16 :=
    Nat.mul_le_mul (Nat.le_of_lt_succ fits.arLen) steady.wordSize
  have hbound : inputs.arLen + 1 < intBound ∧ inputs.arLen * magic.mm.wordSize < intBound := by
    have hlen := fits.arLen
    have hint : 255 * 16 < intBound := by decide
    omega
  rw [readChannel]
  split
  · rw [Mm.readBurst, if_pos hbound]
    exact steady.aligned.exists_readWords _ _ _ _
  · exact ⟨[], rfl⟩

/-- A cycle returns exactly when the master marks a last word that comes. -/
theorem exists_tick_iff (steady : Steady magic.mm magic.store)
    (fits : inputs.Fits magic.mm.wordSize) :
    (∃ after', magic.tick inputs = .ok after') ↔ Master.Marks magic.store.remaining inputs := by
  obtain ⟨words, hwords⟩ := exists_readChannel steady fits
  have hwrite : (∃ result, magic.writeChannel inputs = .ok result) ↔ _ :=
    steady.exists_writeChannel_iff fits wFire_of_awFire inflight_of_wFire
  have hmarks : (magic.wFire inputs = true → magic.store.count = 1 → inputs.wLast = true) ↔
      Master.Marks magic.store.remaining inputs := by
    rw [Master.Marks, wFire, wReady, StoreState.remaining]
    cases inputs.reset <;> cases inputs.wValid <;> cases magic.store.inflight <;> simp
  rw [← hmarks, ← hwrite, tick_eq, hwords, ok_bind]
  constructor
  · rintro ⟨after', hrun⟩
    obtain ⟨result, hresult, -⟩ := map_eq_ok.mp hrun
    exact ⟨result, hresult⟩
  · rintro ⟨result, hresult⟩
    exact ⟨_, map_eq_ok.mpr ⟨result, hresult, rfl⟩⟩

theorem steady_step {after' : MmMagic} (steady : Steady magic.mm magic.store)
    (fits : inputs.Fits magic.mm.wordSize) (hrun : magic.tick inputs = .ok after') :
    Steady after'.mm after'.store ∧ after'.mm.wordSize = magic.mm.wordSize ∧
      after'.store.remaining = Master.next magic.store.remaining inputs := by
  obtain ⟨words, result, -, hresult, rfl⟩ := tick_eq_ok hrun
  have hstep := steady.step fits inflight_of_wFire hresult
  exact ⟨hstep.1, hstep.2, remaining_step steady fits hresult⟩

/--
A run on an idle memory of whole words returns exactly when the master marks the last word
of every write burst, whatever else it does within the sizes of the port.
-/
theorem run_returns_iff {first : MmMagic} {rows : List TickInputs} (aligned : first.mm.Aligned)
    (hword : first.mm.wordSize ≤ 16) (hidle : first.store.inflight = false)
    (fits : ∀ inputs ∈ rows, inputs.Fits first.mm.wordSize) :
    (∃ last, rows.foldlM tick first = .ok last) ↔ Master.MarksAll none rows := by
  have hrun : ∀ (rows : List TickInputs) (magic : MmMagic), Steady magic.mm magic.store →
      (∀ inputs ∈ rows, inputs.Fits magic.mm.wordSize) →
      ((∃ last, rows.foldlM tick magic = .ok last) ↔
        Master.MarksAll magic.store.remaining rows) := by
    intro rows
    induction rows with
    | nil => exact fun magic _ _ => ⟨fun _ => trivial, fun _ => ⟨magic, rfl⟩⟩
    | cons inputs rows ih =>
        intro magic steady fits
        have hfits := fits inputs (.head _)
        have hrest : ∀ after', magic.tick inputs = .ok after' →
            ((∃ last, rows.foldlM tick after' = .ok last) ↔
              Master.MarksAll (Master.next magic.store.remaining inputs) rows) := by
          intro after' hstep
          obtain ⟨steady', hsame, hremaining⟩ := steady_step steady hfits hstep
          rw [← hremaining]
          refine ih after' steady' fun other hother => ?_
          rw [hsame]
          exact fits other (.tail _ hother)
        rw [List.foldlM_cons, Master.MarksAll]
        constructor
        · rintro ⟨last, hlast⟩
          obtain ⟨after', hstep, hlast⟩ := bind_eq_ok.mp hlast
          exact ⟨(exists_tick_iff steady hfits).mp ⟨after', hstep⟩,
            (hrest after' hstep).mp ⟨last, hlast⟩⟩
        · rintro ⟨hmarks, hlater⟩
          obtain ⟨after', hstep⟩ := (exists_tick_iff steady hfits).mpr hmarks
          obtain ⟨last, hlast⟩ := (hrest after' hstep).mpr hlater
          exact ⟨last, bind_eq_ok.mpr ⟨after', hstep, hlast⟩⟩
  have hrows := hrun rows first (.idle aligned hword hidle) fits
  rwa [remaining_idle hidle] at hrows

theorem run_returns_iff_twoWords :
    smallMm.Aligned ∧ (∀ inputs ∈ twoWords, inputs.Fits smallMm.wordSize) ∧
      ((∃ last, twoWords.foldlM tick smallMagic = .ok last) ↔ Master.MarksAll none twoWords) := by
  have aligned : smallMm.Aligned := ⟨8, rfl⟩
  have fits : ∀ inputs ∈ twoWords, inputs.Fits smallMm.wordSize := by
    intro inputs hinputs
    simp only [twoWords, List.mem_cons, List.not_mem_nil, or_false] at hinputs
    rcases hinputs with rfl | rfl | rfl | rfl | rfl <;> exact ⟨by decide, by decide, by decide⟩
  exact ⟨aligned, fits, run_returns_iff aligned (by decide) rfl fits⟩

end MmMagic

end FaultInjection
