import FaultInjection.Harness.DramsimRuns
import FaultInjection.Harness.WriteSafety

/-!
# No callback fails

The simulator calls back only for transactions that it was given, so a callback always
finds its request.  What a cycle can violate is the same as without a simulator.
-/

namespace FaultInjection

open Machine
open MmMagic (quietInputs)

namespace MmDramsim2

variable {δ : Type} {dram : Dram δ} {outstanding : δ → List Transaction}

/-- The sizes that the port can carry, and the ids that the memory was made for. -/
structure Carries (dramsim : MmDramsim2 δ) (inputs : TickInputs) : Prop where
  fits : inputs.Fits dramsim.mm.wordSize
  arSize : inputs.arSize < 31
  arId : inputs.arId < dramsim.readIdBusy.length
  awId : inputs.awId < dramsim.writeIdBusy.length

/-- Every id that waits is one that the memory was made for. -/
structure InRange (dramsim : MmDramsim2 δ) : Prop where
  steady : Steady dramsim.mm dramsim.store
  store : dramsim.store.inflight = true → dramsim.store.id < dramsim.writeIdBusy.length
  queue : ∀ req ∈ dramsim.rreqQueue, req.id < dramsim.readIdBusy.length
  rreq : ∀ addr, ∀ req ∈ dramsim.rreq addr, req.id < dramsim.readIdBusy.length
  wreq : ∀ addr, ∀ id ∈ dramsim.wreq addr, id < dramsim.writeIdBusy.length

variable {dramsim after : MmDramsim2 δ} {inputs : TickInputs}

/-- The sizes that no cycle changes. -/
def SameSizes (dramsim after : MmDramsim2 δ) : Prop :=
  after.mm.wordSize = dramsim.mm.wordSize ∧
    after.readIdBusy.length = dramsim.readIdBusy.length ∧
      after.writeIdBusy.length = dramsim.writeIdBusy.length

theorem SameSizes.trans {middle : MmDramsim2 δ} (same : dramsim.SameSizes middle)
    (same' : middle.SameSizes after) : dramsim.SameSizes after :=
  ⟨same'.1.trans same.1, same'.2.1.trans same.2.1, same'.2.2.trans same.2.2⟩

theorem Carries.of_sameSizes (same : dramsim.SameSizes after) (carries : dramsim.Carries inputs) :
    after.Carries inputs where
  fits := same.1 ▸ carries.fits
  arSize := carries.arSize
  arId := same.2.1 ▸ carries.arId
  awId := same.2.2 ▸ carries.awId

theorem exists_complete {transaction : Transaction} {pending : List Transaction}
    {accepted done queue row : List MmReq} {closed answered : List Nat} {row' : List StoreState}
    (range : dramsim.InRange)
    (reads : ReadLedger accepted done (transaction :: pending) dramsim.rreq dramsim.readIdBusy
      queue row)
    (writes : WriteLedger closed answered (transaction :: pending) dramsim.wreq row') :
    ∃ after, dramsim.complete transaction = .ok after ∧ after.InRange ∧
      dramsim.SameSizes after ∧
        (∃ done row, ReadLedger accepted done pending after.rreq after.readIdBusy queue row) ∧
          ∃ answered row', WriteLedger closed answered pending after.wreq row' := by
  obtain ⟨isWrite, addr⟩ := transaction
  cases isWrite with
  | true =>
      obtain ⟨id, rest, hfront⟩ := writes.exists_front
      obtain ⟨row'', writes'⟩ := writes.complete hfront
      have hid : id < dramsim.writeIdBusy.length := range.wreq addr id (hfront ▸ .head _)
      have hlength : (dramsim.writeIdBusy.set id false).length = dramsim.writeIdBusy.length :=
        List.length_set ..
      refine ⟨{ dramsim with
        bresp := dramsim.bresp ++ [id]
        writeIdBusy := dramsim.writeIdBusy.set id false
        wreq := pop dramsim.wreq addr }, ?_, ?_, ⟨rfl, rfl, hlength⟩,
        ⟨done, row, ReadLedger.write_iff.mp reads⟩, ⟨_, row'', writes'⟩⟩
      · rw [complete, if_pos rfl, writeComplete, hfront]
        exact if_pos hid
      · exact ⟨range.steady, fun hinflight => hlength ▸ range.store hinflight, range.queue,
          range.rreq, fun addr' other hother => hlength ▸ range.wreq addr' other (mem_pop hother)⟩
  | false =>
      obtain ⟨req, rest, hfront⟩ := reads.exists_front
      obtain ⟨row'', reads'⟩ := reads.complete hfront
      have hid : req.id < dramsim.readIdBusy.length := range.rreq addr req (hfront ▸ .head _)
      have hlength : (dramsim.readIdBusy.set req.id false).length = dramsim.readIdBusy.length :=
        List.length_set ..
      obtain ⟨words, hwords⟩ :=
        range.steady.aligned.exists_readWords req.addr req.id req.len (req.len - 1)
      refine ⟨{ dramsim with
        rresp := dramsim.rresp ++ words
        readIdBusy := dramsim.readIdBusy.set req.id false
        rreq := pop dramsim.rreq addr }, ?_, ?_, ⟨rfl, hlength, rfl⟩, ⟨_, row'', reads'⟩,
        ⟨answered, row', WriteLedger.read_iff.mp writes⟩⟩
      · rw [complete, if_neg Bool.false_ne_true, readComplete, hfront]
        exact bind_eq_ok.mpr ⟨words, hwords, if_pos hid⟩
      · exact ⟨range.steady, range.store, fun other hother => hlength ▸ range.queue other hother,
          fun addr' other hother => hlength ▸ range.rreq addr' other (mem_pop hother),
          range.wreq⟩

theorem exists_foldlM {transactions pending : List Transaction}
    {accepted done queue row : List MmReq} {closed answered : List Nat} {row' : List StoreState}
    (range : dramsim.InRange)
    (reads : ReadLedger accepted done (transactions ++ pending) dramsim.rreq dramsim.readIdBusy
      queue row)
    (writes : WriteLedger closed answered (transactions ++ pending) dramsim.wreq row') :
    ∃ after, transactions.foldlM complete dramsim = .ok after ∧ after.InRange ∧
      dramsim.SameSizes after := by
  induction transactions generalizing dramsim done row answered row' with
  | nil => exact ⟨dramsim, rfl, range, rfl, rfl, rfl⟩
  | cons transaction rest ih =>
      obtain ⟨middle, hstep, range', same, ⟨done', row₁, reads'⟩, ⟨answered', row₂, writes'⟩⟩ :=
        exists_complete range reads writes
      obtain ⟨after, hrest, range'', same'⟩ := ih range' reads' writes'
      refine ⟨after, ?_, range'', same.trans same'⟩
      rw [List.foldlM_cons, hstep]
      exact hrest

theorem exists_issueRead (range : dramsim.InRange) :
    ∃ issued, dramsim.issueRead dram = .ok issued := by
  rw [issueRead]
  split
  · obtain ⟨found, hfound⟩ := exists_findIdle range.queue
    rw [hfound, ok_bind]
    cases found with
    | none => exact ⟨_, rfl⟩
    | some entry => exact ⟨_, rfl⟩
  · exact ⟨_, rfl⟩

theorem InRange.issued (range : dramsim.InRange) {issued : MmDramsim2 δ}
    (hissue : dramsim.issueRead dram = .ok issued) :
    issued.InRange ∧ dramsim.SameSizes issued := by
  rcases issueRead_eq_ok hissue with rfl | ⟨front, req, back, hqueue, -, -, rfl⟩
  · exact ⟨range, rfl, rfl, rfl⟩
  · have hlength : (dramsim.readIdBusy.set req.id true).length = dramsim.readIdBusy.length :=
      List.length_set ..
    have hids : ∀ other ∈ front ++ req :: back, other.id < dramsim.readIdBusy.length :=
      hqueue ▸ range.queue
    refine ⟨⟨range.steady, range.store, fun other hother => ?_, fun addr other hother => ?_,
      range.wreq⟩, rfl, hlength, rfl⟩
    · refine hlength ▸ hids other ?_
      rcases List.mem_append.mp hother with hother | hother
      · exact List.mem_append_left _ hother
      · exact List.mem_append_right _ (.tail _ hother)
    · rcases mem_push hother with hother | rfl
      · exact hlength ▸ range.rreq addr other hother
      · exact hlength ▸ hids _ (List.mem_append_right _ (.head _))

theorem exists_readChannel (carries : dramsim.Carries inputs) :
    ∃ reqs, dramsim.readChannel dram inputs = .ok reqs := by
  rw [readChannel, MmReq.accept, if_pos carries.arSize]
  split <;> exact ⟨_, rfl⟩

/-- The bursts closed in a cycle have the id of the burst in progress. -/
theorem id_of_closed {result : WriteResult}
    (hrun : dramsim.writeChannel dram inputs = .ok result) {store : StoreState}
    (hstore : store ∈ result.closed) :
    dramsim.store.inflight = true ∧ store.id = dramsim.store.id := by
  rw [closed_of_writeChannel wFire_of_awFire hrun, closing] at hstore
  split at hstore
  · rename_i hboth
    rw [List.mem_singleton.mp hstore]
    exact ⟨inflight_of_wFire hboth.1, rfl⟩
  · cases hstore

/-- A burst in progress after a cycle is the one before it, or the one that came. -/
theorem id_of_inflight {result : WriteResult}
    (hrun : dramsim.writeChannel dram inputs = .ok result)
    (hinflight : result.store.inflight = true) :
    result.store.id = inputs.awId ∨
      (dramsim.store.inflight = true ∧ result.store.id = dramsim.store.id) := by
  rw [writeChannel, FaultInjection.writeChannel] at hrun
  split at hrun
  · obtain ⟨store, haccept, rfl⟩ := map_eq_ok.mp hrun
    rw [StoreState.accept] at haccept
    split at haccept
    · cases haccept
      exact Or.inl rfl
    · cases haccept
  · split at hrun
    · rename_i hfire
      exact Or.inr ⟨inflight_of_wFire hfire, id_of_storeWord hrun⟩
    · cases hrun
      exact Or.inr ⟨hinflight, rfl⟩

theorem InRange.served (range : dramsim.InRange) (carries : dramsim.Carries inputs)
    {issued : MmDramsim2 δ} {result : WriteResult}
    (hissue : dramsim.issueRead dram = .ok issued)
    (hwrite : dramsim.writeChannel dram inputs = .ok result) :
    (dramsim.served dram inputs issued (acceptedReads dram (dramsim, inputs)) result).InRange ∧
      dramsim.SameSizes
        (dramsim.served dram inputs issued (acceptedReads dram (dramsim, inputs)) result) := by
  obtain ⟨issuedRange, -, hreads, hwrites⟩ := range.issued hissue
  obtain ⟨-, -, -, -, hwreq, -⟩ := issueRead_keeps hissue
  obtain ⟨steady, hword⟩ := range.steady.step carries.fits inflight_of_wFire hwrite
  have hpushed : ∀ (stores : List StoreState) (wreq : Nat → List Nat),
      (∀ store ∈ stores, store.id < dramsim.writeIdBusy.length) →
      (∀ addr, ∀ id ∈ wreq addr, id < dramsim.writeIdBusy.length) →
      ∀ addr, ∀ id ∈ stores.foldl (fun wreq store => push wreq store.addr store.id) wreq addr,
        id < dramsim.writeIdBusy.length := by
    intro stores
    induction stores with
    | nil => exact fun wreq _ hids => hids
    | cons store stores ih =>
        intro wreq hstores hids
        refine ih _ (fun other hother => hstores other (.tail _ hother)) fun addr id hid => ?_
        rcases mem_push hid with hid | rfl
        · exact hids addr id hid
        · exact hstores store (.head _)
  refine ⟨⟨steady, fun hinflight => ?_, fun req hreq => ?_, issuedRange.rreq, ?_⟩,
    hword, hreads, hwrites⟩
  · show result.store.id < issued.writeIdBusy.length
    rw [hwrites]
    rcases id_of_inflight hwrite hinflight with hid | ⟨hbefore, hid⟩
    · exact hid ▸ carries.awId
    · exact hid ▸ range.store hbefore
  · rcases List.mem_append.mp hreq with hreq | hreq
    · exact issuedRange.queue req hreq
    · rw [acceptedReads] at hreq
      split at hreq
      · rw [List.mem_singleton.mp hreq]
        show inputs.arId < issued.readIdBusy.length
        exact hreads ▸ carries.arId
      · cases hreq
  · show ∀ addr, ∀ id ∈ result.closed.foldl (fun wreq store => push wreq store.addr store.id)
      dramsim.wreq addr, id < issued.writeIdBusy.length
    rw [hwrites]
    refine hpushed result.closed dramsim.wreq (fun store hstore => ?_) range.wreq
    obtain ⟨hinflight, hid⟩ := id_of_closed hwrite hstore
    exact hid ▸ range.store hinflight

/-- What a run of an idle memory leaves behind for the next cycle. -/
structure Sound (outstanding : δ → List Transaction) (dramsim : MmDramsim2 δ) : Prop where
  range : dramsim.InRange
  reads : ∃ accepted done row, ReadLedger accepted done (outstanding dramsim.mem) dramsim.rreq
    dramsim.readIdBusy dramsim.rreqQueue row
  writes : ∃ closed answered row,
    WriteLedger closed answered (outstanding dramsim.mem) dramsim.wreq row

theorem InRange.finish (range : dramsim.InRange) (reset : Bool) :
    (dramsim.finish reset).InRange := by
  cases reset <;> exact ⟨range.steady, range.store, range.queue, range.rreq, range.wreq⟩

theorem SameSizes.finish (same : dramsim.SameSizes after) (reset : Bool) :
    dramsim.SameSizes (after.finish reset) := by
  cases reset <;> exact same

theorem Sound.exists_tick (lawful : dram.Lawful outstanding) (sound : dramsim.Sound outstanding)
    (carries : dramsim.Carries inputs) {result : WriteResult}
    (hwrite : dramsim.writeChannel dram inputs = .ok result) :
    ∃ after, dramsim.tick dram inputs = .ok after ∧ after.Sound outstanding ∧
      dramsim.SameSizes after := by
  obtain ⟨accepted, done, row, reads⟩ := sound.reads
  obtain ⟨closed, answered, row', writes⟩ := sound.writes
  obtain ⟨issued, hissue⟩ : ∃ issued, dramsim.issueRead dram = .ok issued :=
    exists_issueRead sound.range
  obtain ⟨reqs, hread⟩ : ∃ reqs, dramsim.readChannel dram inputs = .ok reqs :=
    exists_readChannel carries
  have hserve : dramsim.serve dram inputs =
      .ok (dramsim.served dram inputs issued reqs result) := by
    rw [serve_eq, hissue, ok_bind, hread, ok_bind, hwrite]
    rfl
  obtain ⟨range, same⟩ := sound.range.served carries hissue hwrite
  rw [← readChannel_eq_ok hread] at range same
  obtain ⟨row₁, servedReads⟩ := read_served lawful reads hissue inputs reqs result
  have servedWrites := write_served lawful writes hissue inputs reqs result
  -- the callbacks are for transactions that were outstanding
  have hupdate := lawful.update (dramsim.served dram inputs issued reqs result).mem
  have updateRange : InRange { dramsim.served dram inputs issued reqs result with
      mem := (dram.update (dramsim.served dram inputs issued reqs result).mem).1 } :=
    ⟨range.steady, range.store, range.queue, range.rreq, range.wreq⟩
  obtain ⟨middle, hcomplete, middleRange, middleSame⟩ := exists_foldlM updateRange
    (servedReads.perm hupdate) (servedWrites.perm_outstanding hupdate)
  have htick : dramsim.tick dram inputs = .ok (middle.finish inputs.reset) := by
    rw [tick, hserve, ok_bind]
    exact bind_eq_ok.mpr ⟨middle, hcomplete, rfl⟩
  obtain ⟨row₂, reads'⟩ := read_tick lawful reads htick
  obtain ⟨row₃, writes'⟩ := write_tick lawful writes htick
  exact ⟨_, htick, ⟨middleRange.finish _, ⟨_, _, row₂, reads'⟩, ⟨_, _, row₃, writes'⟩⟩,
    SameSizes.finish (same.trans middleSame) _⟩

theorem Idle.sound (idle : dramsim.Idle outstanding) (aligned : dramsim.mm.Aligned)
    (hword : dramsim.mm.wordSize ≤ 16) : dramsim.Sound outstanding where
  range := by
    refine ⟨.idle aligned hword idle.store, fun hinflight => ?_, fun req hreq => ?_,
      fun addr req hreq => ?_, fun addr id hid => ?_⟩
    · rw [idle.store] at hinflight
      cases hinflight
    · rw [idle.rreqQueue] at hreq
      cases hreq
    · rw [idle.rreq] at hreq
      cases hreq
    · rw [idle.wreq] at hid
      cases hid
  reads := ⟨[], [], [], idle.readLedger⟩
  writes := ⟨[], [], [], idle.writeLedger⟩

theorem exists_writeChannel_of_tick (hrun : dramsim.tick dram inputs = .ok after) :
    ∃ result, dramsim.writeChannel dram inputs = .ok result := by
  obtain ⟨result, hresult, -⟩ := tick_mm hrun
  exact ⟨result, hresult⟩

/--
In every state that an idle memory of whole words reaches, with any simulator that calls
back once for each transaction, the next cycle returns exactly when it does not bring the
last word of a burst without its mark.  In particular no callback ever fails.
-/
theorem run_ticks_iff (lawful : dram.Lawful outstanding) {first last : MmDramsim2 δ}
    {steps : List (MmDramsim2 δ × TickInputs)} (run : Run (tick dram) first steps last)
    (idle : first.Idle outstanding) (aligned : first.mm.Aligned)
    (hword : first.mm.wordSize ≤ 16) (hsteps : ∀ entry ∈ steps, first.Carries entry.2)
    (carries : first.Carries inputs) :
    (∃ after, last.tick dram inputs = .ok after) ↔
      (last.wFire inputs = true → last.store.count = 1 → inputs.wLast = true) := by
  have hsound : last.Sound outstanding ∧ first.SameSizes last := by
    refine (run.invariant (fun state => state.Sound outstanding ∧ first.SameSizes state)
      ⟨idle.sound aligned hword, rfl, rfl, rfl⟩ ?_).1
    rintro state inputs after hmem ⟨sound, same⟩ hstep
    obtain ⟨result, hwrite⟩ := exists_writeChannel_of_tick hstep
    obtain ⟨after', hstep', sound', same'⟩ :=
      sound.exists_tick lawful (.of_sameSizes same (hsteps _ hmem)) hwrite
    rw [hstep] at hstep'
    cases hstep'
    exact ⟨sound', same.trans same'⟩
  obtain ⟨sound, same⟩ := hsound
  have carriesLast := Carries.of_sameSizes same carries
  have hchannel : (∃ result, last.writeChannel dram inputs = .ok result) ↔ _ :=
    sound.range.steady.exists_writeChannel_iff carriesLast.fits wFire_of_awFire
      inflight_of_wFire
  rw [← hchannel]
  constructor
  · rintro ⟨after, hrun⟩
    exact exists_writeChannel_of_tick hrun
  · rintro ⟨result, hwrite⟩
    obtain ⟨after, hrun, -⟩ := sound.exists_tick lawful carriesLast hwrite
    exact ⟨after, hrun⟩

theorem run_ticks_iff_twoReads : latencyDram.Lawful (List.map Prod.fst) ∧
    latencyDramsim.Idle (List.map Prod.fst) ∧ latencyDramsim.mm.Aligned ∧
      latencyDramsim.mm.wordSize ≤ 16 ∧
        ∃ steps last, Run (tick latencyDram) latencyDramsim steps last ∧
          steps.map Prod.snd = twoReads ∧ (∀ entry ∈ steps, latencyDramsim.Carries entry.2) ∧
            latencyDramsim.Carries quietInputs ∧
              ((∃ after, tick latencyDram last quietInputs = .ok after) ↔
                (last.wFire quietInputs = true → last.store.count = 1 →
                  quietInputs.wLast = true)) := by
  have aligned : latencyDramsim.mm.Aligned := ⟨131072, rfl⟩
  have hword : latencyDramsim.mm.wordSize ≤ 16 := by decide
  have quiet : latencyDramsim.Carries quietInputs :=
    ⟨⟨by decide, by decide, by decide⟩, by decide, by decide, by decide⟩
  have carries : ∀ inputs ∈ twoReads, latencyDramsim.Carries inputs := by
    intro inputs hinputs
    rcases List.mem_append.mp hinputs with hinputs | hinputs
    · simp only [List.mem_cons, List.not_mem_nil, or_false] at hinputs
      rcases hinputs with rfl | rfl | rfl | rfl | rfl <;>
        exact ⟨⟨by decide, by decide, by decide⟩, by decide, by decide, by decide⟩
    · rw [List.eq_of_mem_replicate hinputs]
      exact quiet
  obtain ⟨steps, last, hinputs, run⟩ := twoReads_returns
  have hsteps : ∀ entry ∈ steps, latencyDramsim.Carries entry.2 := fun entry hentry =>
    carries entry.2 (hinputs ▸ List.mem_map_of_mem hentry)
  exact ⟨latencyDram_lawful, latencyDramsim_idle, aligned, hword, steps, last, run, hinputs, hsteps,
    quiet, run_ticks_iff latencyDram_lawful run latencyDramsim_idle aligned hword hsteps quiet⟩

end MmDramsim2

end FaultInjection
