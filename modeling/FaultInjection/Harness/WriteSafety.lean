import FaultInjection.Harness.WriteChannel

/-!
# When the write channel goes through

In a buffer of whole words nothing goes wrong on the side of the memory.  The one assertion
that can fail is that the master marks the last word of a burst.
-/

namespace FaultInjection

/-- The sizes that the port can carry: lengths of eight bits, words of a burst no wider than
those of the memory. -/
structure TickInputs.Fits (wordSize : Nat) (inputs : TickInputs) : Prop where
  arLen : inputs.arLen < 256
  awLen : inputs.awLen < 256
  awSize : 1 <<< inputs.awSize ≤ wordSize

/-- A memory of whole words, and a burst in progress whose words fit. -/
structure Steady (mm : Mm) (store : StoreState) : Prop where
  aligned : mm.Aligned
  wordSize : mm.wordSize ≤ 16
  count_pos : store.inflight = true → 0 < store.count
  count_le : store.inflight = true → store.count ≤ 256
  size : store.inflight = true → store.size ≤ mm.wordSize

theorem Steady.idle {mm : Mm} {store : StoreState} (aligned : mm.Aligned)
    (hword : mm.wordSize ≤ 16) (hidle : store.inflight = false) : Steady mm store where
  aligned := aligned
  wordSize := hword
  count_pos hinflight := by rw [hidle] at hinflight; cases hinflight
  count_le hinflight := by rw [hidle] at hinflight; cases hinflight
  size hinflight := by rw [hidle] at hinflight; cases hinflight

variable {mm : Mm} {store : StoreState} {inputs : TickInputs} {result : WriteResult}
  {awFire wFire : Bool}

theorem TickInputs.Fits.accept_eq (fits : inputs.Fits mm.wordSize) (hword : mm.wordSize ≤ 16) :
    StoreState.accept inputs =
      .ok ⟨true, inputs.awAddr, inputs.awId, 1 <<< inputs.awSize, inputs.awLen + 1⟩ := by
  have hsize : inputs.awSize < 31 := by
    have hpow : 2 ^ inputs.awSize ≤ 2 ^ 4 := by
      have hle := fits.awSize
      rw [Nat.shiftLeft_eq, Nat.one_mul] at hle
      omega
    have hle := (Nat.pow_le_pow_iff_right (by decide)).mp hpow
    omega
  have hcount : (inputs.awLen + 1) % uint64Bound = inputs.awLen + 1 := by
    have hbound : 256 < uint64Bound := by decide
    have hlen := fits.awLen
    exact Nat.mod_eq_of_lt (by omega)
  rw [StoreState.accept, if_pos hsize, hcount]

namespace Steady

theorem advance_count (steady : Steady mm store) (hinflight : store.inflight = true) :
    store.advance.count = store.count - 1 :=
  StoreState.advance_count rfl (steady.count_pos hinflight) (steady.count_le hinflight)

theorem storeWord_eq (steady : Steady mm store) (hinflight : store.inflight = true)
    (inputs : TickInputs) :
    storeWord mm store inputs =
      if store.count = 1 then
        if inputs.wLast then
          .ok ⟨mm.stored store.addr inputs.wData inputs.wStrb store.size,
            { store.advance with inflight := false }, [{ store.advance with inflight := false }]⟩
        else .error .assertion
      else .ok ⟨mm.stored store.addr inputs.wData inputs.wStrb store.size, store.advance, []⟩ := by
  have hpos := steady.count_pos hinflight
  have hcount : store.advance.count = 0 ↔ store.count = 1 := by
    rw [steady.advance_count hinflight]
    omega
  obtain ⟨strobe, computed⟩ :=
    mm.exists_strobe store.addr inputs.wStrb steady.wordSize (steady.size hinflight)
  have hwrite : mm.write store.addr inputs.wData inputs.wStrb store.size =
      .ok (mm.stored store.addr inputs.wData inputs.wStrb store.size) :=
    Mm.write_eq_ok.mpr ⟨⟨strobe, computed, steady.aligned.inside _ _⟩, rfl⟩
  rw [FaultInjection.storeWord, hwrite, ok_bind]
  by_cases hone : store.count = 1
  · rw [if_pos hone, if_pos (hcount.mpr hone)]
    rfl
  · rw [if_neg hone, if_neg (mt hcount.mp hone)]
    rfl

theorem storeWord (steady : Steady mm store) (hinflight : store.inflight = true)
    (hrun : storeWord mm store inputs = .ok result) :
    Steady result.mm result.store ∧ result.mm.wordSize = mm.wordSize := by
  have hpos := steady.count_pos hinflight
  have hle := steady.count_le hinflight
  rw [steady.storeWord_eq hinflight] at hrun
  by_cases hone : store.count = 1
  · rw [if_pos hone] at hrun
    by_cases hlast : inputs.wLast = true
    · rw [if_pos hlast] at hrun
      cases hrun
      exact ⟨.idle steady.aligned steady.wordSize rfl, rfl⟩
    · rw [if_neg hlast] at hrun
      cases hrun
  · rw [if_neg hone] at hrun
    cases hrun
    have hcount := steady.advance_count hinflight
    exact ⟨⟨steady.aligned, steady.wordSize, fun _ => by rw [hcount]; omega,
      fun _ => by rw [hcount]; omega, fun _ => steady.size hinflight⟩, rfl⟩

theorem step (steady : Steady mm store) (fits : inputs.Fits mm.wordSize)
    (hword : wFire = true → store.inflight = true)
    (hrun : writeChannel mm store inputs awFire wFire = .ok result) :
    Steady result.mm result.store ∧ result.mm.wordSize = mm.wordSize := by
  rw [writeChannel] at hrun
  split at hrun
  · obtain ⟨store', haccept, rfl⟩ := map_eq_ok.mp hrun
    rw [fits.accept_eq steady.wordSize] at haccept
    cases haccept
    exact ⟨⟨steady.aligned, steady.wordSize, fun _ => Nat.succ_pos _, fun _ => fits.awLen,
      fun _ => fits.awSize⟩, rfl⟩
  · split at hrun
    · rename_i hfire
      exact steady.storeWord (hword hfire) hrun
    · cases hrun
      exact ⟨steady, rfl⟩

/-- A cycle goes through unless it brings the last word of a burst without its mark. -/
theorem exists_writeChannel_iff (steady : Steady mm store) (fits : inputs.Fits mm.wordSize)
    (haddress : awFire = true → wFire = false) (hword : wFire = true → store.inflight = true) :
    (∃ result, writeChannel mm store inputs awFire wFire = .ok result) ↔
      (wFire = true → store.count = 1 → inputs.wLast = true) := by
  rw [writeChannel, fits.accept_eq steady.wordSize]
  cases awFire with
  | true =>
      rw [haddress rfl, if_pos rfl]
      exact ⟨fun _ hfire => absurd hfire Bool.false_ne_true, fun _ => ⟨_, rfl⟩⟩
  | false =>
      rw [if_neg Bool.false_ne_true]
      cases wFire with
      | false =>
          rw [if_neg Bool.false_ne_true]
          exact ⟨fun _ hfire => absurd hfire Bool.false_ne_true, fun _ => ⟨_, rfl⟩⟩
      | true =>
          rw [if_pos rfl, steady.storeWord_eq (hword rfl)]
          by_cases hone : store.count = 1
          · rw [if_pos hone]
            by_cases hlast : inputs.wLast = true
            · rw [if_pos hlast]
              exact ⟨fun _ _ _ => hlast, fun _ => ⟨_, rfl⟩⟩
            · rw [if_neg hlast]
              constructor
              · rintro ⟨result, impossible⟩
                cases impossible
              · exact fun hmarks => absurd (hmarks rfl hone) hlast
          · rw [if_neg hone]
            exact ⟨fun _ _ heq => absurd heq hone, fun _ => ⟨_, rfl⟩⟩

end Steady

end FaultInjection
