import FaultInjection.Harness.MmDramsim2

/-!
# The parts of a cycle

A cycle hands one read to the simulator, serves the port, and takes the callbacks of the
simulator.
-/

namespace FaultInjection

open Machine

/-- The addresses of the reads among some transactions, or of the writes. -/
def addresses (isWrite : Bool) (transactions : List Transaction) : List Nat :=
  (transactions.filter fun transaction => transaction.isWrite == isWrite).map Transaction.addr

theorem addresses_cons_self (transaction : Transaction) (rest : List Transaction) :
    addresses transaction.isWrite (transaction :: rest) =
      transaction.addr :: addresses transaction.isWrite rest := by
  rw [addresses, List.filter_cons, if_pos (beq_self_eq_true _)]
  rfl

theorem addresses_cons_ne {isWrite : Bool} {transaction : Transaction}
    (hne : transaction.isWrite ≠ isWrite) (rest : List Transaction) :
    addresses isWrite (transaction :: rest) = addresses isWrite rest := by
  rw [addresses, List.filter_cons, if_neg (mt eq_of_beq hne)]
  rfl

/-- The request that is found: those in front of it are busy, and it is not. -/
theorem findIdle_eq_some {readIdBusy : List Bool} {queue others : List MmReq} {req : MmReq}
    (hrun : findIdle readIdBusy queue = .ok (some (req, others))) :
    ∃ before after, queue = before ++ req :: after ∧ others = before ++ after ∧
      (∀ other ∈ before, readIdBusy[other.id]? = some true) ∧
        readIdBusy[req.id]? = some false := by
  induction queue generalizing others with
  | nil => cases hrun
  | cons first rest ih =>
      rw [findIdle] at hrun
      cases hbusy : readIdBusy[first.id]? with
      | none =>
          rw [hbusy] at hrun
          cases hrun
      | some busy =>
          rw [hbusy] at hrun
          cases busy with
          | false =>
              cases hrun
              exact ⟨[], rest, rfl, rfl, fun _ hmem => (by cases hmem), hbusy⟩
          | true =>
              obtain ⟨found, hfound, hrun⟩ := bind_eq_ok.mp hrun
              cases found with
              | none => cases hrun
              | some entry =>
                  cases hrun
                  obtain ⟨before, after, rfl, hothers, hbefore, hidle⟩ := ih hfound
                  refine ⟨first :: before, after, rfl, congrArg (first :: ·) hothers, ?_, hidle⟩
                  intro other hother
                  rcases List.mem_cons.mp hother with rfl | hother
                  · exact hbusy
                  · exact hbefore other hother

theorem exists_findIdle {readIdBusy : List Bool} {queue : List MmReq}
    (hids : ∀ req ∈ queue, req.id < readIdBusy.length) :
    ∃ found, findIdle readIdBusy queue = .ok found := by
  induction queue with
  | nil => exact ⟨none, rfl⟩
  | cons first rest ih =>
      have hfirst := hids first (.head _)
      obtain ⟨busy, hbusy⟩ : ∃ busy, readIdBusy[first.id]? = some busy :=
        ⟨_, List.getElem?_eq_getElem hfirst⟩
      rw [findIdle, hbusy]
      cases busy with
      | false => exact ⟨_, rfl⟩
      | true =>
          obtain ⟨found, hfound⟩ := ih fun req hreq => hids req (.tail _ hreq)
          exact ⟨_, bind_eq_ok.mpr ⟨found, hfound, rfl⟩⟩

namespace MmDramsim2

variable {δ : Type} {dram : Dram δ} {dramsim : MmDramsim2 δ} {inputs : TickInputs}

theorem issueRead_eq_ok {issued : MmDramsim2 δ} (hrun : dramsim.issueRead dram = .ok issued) :
    issued = dramsim ∨ ∃ before req after, dramsim.rreqQueue = before ++ req :: after ∧
      (∀ other ∈ before, dramsim.readIdBusy[other.id]? = some true) ∧
        dramsim.readIdBusy[req.id]? = some false ∧
          issued = dramsim.issue dram req (before ++ after) := by
  rw [issueRead] at hrun
  split at hrun
  · obtain ⟨found, hfound, hrun⟩ := bind_eq_ok.mp hrun
    cases found with
    | none =>
        cases hrun
        exact Or.inl rfl
    | some entry =>
        cases hrun
        obtain ⟨before, after, hqueue, hothers, hbefore, hidle⟩ := findIdle_eq_some hfound
        rw [hothers]
        exact Or.inr ⟨before, entry.1, after, hqueue, hbefore, hidle, rfl⟩
  · cases hrun
    exact Or.inl rfl

theorem issueRead_keeps {issued : MmDramsim2 δ} (hrun : dramsim.issueRead dram = .ok issued) :
    issued.mm = dramsim.mm ∧ issued.store = dramsim.store ∧ issued.bresp = dramsim.bresp ∧
      issued.rresp = dramsim.rresp ∧ issued.wreq = dramsim.wreq ∧
        issued.writeIdBusy = dramsim.writeIdBusy := by
  rcases issueRead_eq_ok hrun with rfl | ⟨before, req, after, -, -, -, rfl⟩
  · exact ⟨rfl, rfl, rfl, rfl, rfl, rfl⟩
  · exact ⟨rfl, rfl, rfl, rfl, rfl, rfl⟩

/-- The reads that enter the list in a cycle. -/
def readChannel (dram : Dram δ) (dramsim : MmDramsim2 δ) (inputs : TickInputs) :
    Except HarnessError (List MmReq) :=
  if dramsim.arFire dram inputs then (MmReq.accept inputs).map fun req => [req] else .ok []

/-- Memory and write burst after a cycle, and the burst that is handed over. -/
def writeChannel (dram : Dram δ) (dramsim : MmDramsim2 δ) (inputs : TickInputs) :
    Except HarnessError WriteResult :=
  FaultInjection.writeChannel dramsim.mm dramsim.store inputs (dramsim.awFire dram inputs)
    (dramsim.wFire inputs)

/-- The state in front of the update, when one read was issued before. -/
def served (dram : Dram δ) (dramsim : MmDramsim2 δ) (inputs : TickInputs)
    (issued : MmDramsim2 δ) (reqs : List MmReq) (result : WriteResult) : MmDramsim2 δ :=
  { issued with
    mm := result.mm
    store := result.store
    bresp := if dramsim.bFire inputs then dramsim.bresp.drop 1 else dramsim.bresp
    rresp := if dramsim.rFire inputs then dramsim.rresp.drop 1 else dramsim.rresp
    wreq := result.closed.foldl (fun wreq store => push wreq store.addr store.id) dramsim.wreq
    rreqQueue := issued.rreqQueue ++ reqs
    mem := result.closed.foldl (fun mem store => dram.addTransaction mem ⟨true, store.addr⟩)
      issued.mem }

theorem foldl_issueWrite (dram : Dram δ) (closed : List StoreState) (dramsim : MmDramsim2 δ) :
    closed.foldl (issueWrite dram) dramsim = { dramsim with
      wreq := closed.foldl (fun wreq store => push wreq store.addr store.id) dramsim.wreq
      mem := closed.foldl (fun mem store => dram.addTransaction mem ⟨true, store.addr⟩)
        dramsim.mem } := by
  induction closed generalizing dramsim with
  | nil => rfl
  | cons store closed ih =>
      rw [List.foldl_cons, ih]
      rfl

theorem inflight_of_awFire (hfire : dramsim.awFire dram inputs = true) :
    dramsim.store.inflight = false := by
  rw [awFire, awReady, Bool.and_eq_true, Bool.and_eq_true, Bool.and_eq_true] at hfire
  exact Bool.not_eq_true' _ ▸ hfire.2.2

theorem inflight_of_wFire (hfire : dramsim.wFire inputs = true) :
    dramsim.store.inflight = true := by
  rw [wFire, wReady, Bool.and_eq_true] at hfire
  exact hfire.2

/-- An address and a word of a write burst never come in one cycle. -/
theorem wFire_of_awFire (hfire : dramsim.awFire dram inputs = true) :
    dramsim.wFire inputs = false := by
  refine Bool.eq_false_iff.mpr fun hword => ?_
  have hinflight := inflight_of_wFire hword
  rw [inflight_of_awFire hfire] at hinflight
  cases hinflight

theorem bresp_of_bFire (hfire : dramsim.bFire inputs = true) : dramsim.bresp.isEmpty = false := by
  rw [bFire, bValid, Bool.and_eq_true, Bool.and_eq_true] at hfire
  exact Bool.not_eq_true' _ ▸ hfire.1.2

theorem rresp_of_rFire (hfire : dramsim.rFire inputs = true) : dramsim.rresp.isEmpty = false := by
  rw [rFire, rValid, Bool.and_eq_true, Bool.and_eq_true] at hfire
  exact Bool.not_eq_true' _ ▸ hfire.1.2

theorem acceptChannel_eq (dram : Dram δ) (dramsim before : MmDramsim2 δ) (inputs : TickInputs)
    (hmm : before.mm = dramsim.mm) (hstore : before.store = dramsim.store) :
    (onFire (dramsim.awFire dram inputs) (acceptAddress inputs) before >>=
        onFire (dramsim.wFire inputs) (acceptWord dram inputs)) =
      (dramsim.writeChannel dram inputs).map fun result =>
        result.closed.foldl (issueWrite dram)
          { before with mm := result.mm, store := result.store } := by
  rw [writeChannel, FaultInjection.writeChannel, ← hmm, ← hstore, onFire]
  by_cases haddress : dramsim.awFire dram inputs = true
  · rw [if_pos haddress, if_pos haddress, wFire_of_awFire haddress, acceptAddress]
    cases StoreState.accept inputs <;> rfl
  · rw [if_neg haddress, if_neg haddress, ok_bind, onFire]
    by_cases hword : dramsim.wFire inputs = true
    · rw [if_pos hword, if_pos hword, acceptWord]
      cases storeWord before.mm before.store inputs <;> rfl
    · rw [if_neg hword, if_neg hword]
      rfl

theorem serve_eq (dram : Dram δ) (dramsim : MmDramsim2 δ) (inputs : TickInputs) :
    dramsim.serve dram inputs = dramsim.issueRead dram >>= fun issued =>
      dramsim.readChannel dram inputs >>= fun reqs =>
        (dramsim.writeChannel dram inputs).map (dramsim.served dram inputs issued reqs) := by
  rw [serve]
  cases hissue : dramsim.issueRead dram with
  | error exception => rfl
  | ok issued =>
      obtain ⟨hmm, hstore, hbresp, hrresp, hwreq, -⟩ := issueRead_keeps hissue
      have hread : onFire (dramsim.arFire dram inputs) (acceptRead inputs) issued =
          (dramsim.readChannel dram inputs).map fun reqs =>
            { issued with rreqQueue := issued.rreqQueue ++ reqs } := by
        rw [readChannel, onFire]
        by_cases hfire : dramsim.arFire dram inputs = true
        · rw [if_pos hfire, if_pos hfire, acceptRead]
          cases MmReq.accept inputs <;> rfl
        · rw [if_neg hfire, if_neg hfire, Except.map, List.append_nil]
      rw [ok_bind, ok_bind, hread, map_bind]
      congr 1
      funext reqs
      have hwrite := acceptChannel_eq dram dramsim
        { issued with rreqQueue := issued.rreqQueue ++ reqs } inputs hmm hstore
      rw [← bind_assoc, hwrite, map_bind]
      cases dramsim.writeChannel dram inputs with
      | error exception => rfl
      | ok result =>
          show Except.ok (takeAnswers _ _ (result.closed.foldl (issueWrite dram) _)) = Except.ok _
          rw [foldl_issueWrite, takeAnswers, served]
          simp only [hbresp, hrresp, hwreq]

/-- The state after the callbacks for some transactions. -/
def completed (dramsim : MmDramsim2 δ) (transactions : List Transaction) : MmDramsim2 δ :=
  let reqs := popped dramsim.rreq (addresses false transactions)
  let ids := popped dramsim.wreq (addresses true transactions)
  { dramsim with
    rresp := dramsim.rresp ++ reqs.flatMap fun req => dramsim.mm.burst req.addr req.id req.len
    bresp := dramsim.bresp ++ ids
    readIdBusy := reqs.foldl (fun busy req => busy.set req.id false) dramsim.readIdBusy
    writeIdBusy := ids.foldl (fun busy id => busy.set id false) dramsim.writeIdBusy
    rreq := (addresses false transactions).foldl pop dramsim.rreq
    wreq := (addresses true transactions).foldl pop dramsim.wreq }

theorem completed_nil (dramsim : MmDramsim2 δ) : dramsim.completed [] = dramsim := by
  rw [completed]
  simp [addresses, popped]

theorem complete_eq_ok {after : MmDramsim2 δ} {transaction : Transaction}
    (hrun : dramsim.complete transaction = .ok after) :
    after = dramsim.completed [transaction] ∧
      (transaction.isWrite = false → ∃ req rest, dramsim.rreq transaction.addr = req :: rest) ∧
        (transaction.isWrite = true → ∃ id rest, dramsim.wreq transaction.addr = id :: rest) := by
  obtain ⟨isWrite, addr⟩ := transaction
  cases isWrite with
  | true =>
      rw [complete, if_pos rfl, writeComplete] at hrun
      split at hrun
      · cases hrun
      · rename_i id rest hqueue
        split at hrun
        · cases hrun
          refine ⟨?_, fun impossible => (by cases impossible), fun _ => ⟨id, rest, hqueue⟩⟩
          simp [completed, addresses, popped, hqueue]
        · cases hrun
  | false =>
      rw [complete, if_neg Bool.false_ne_true, readComplete] at hrun
      split at hrun
      · cases hrun
      · rename_i req rest hqueue
        obtain ⟨words, hwords, hrun⟩ := bind_eq_ok.mp hrun
        have hburst := Mm.burst_of_readWords hwords (by omega)
        split at hrun
        · cases hrun
          refine ⟨?_, fun _ => ⟨req, rest, hqueue⟩, fun impossible => (by cases impossible)⟩
          simp [completed, addresses, popped, hqueue, hburst]
        · cases hrun

theorem completed_cons (dramsim : MmDramsim2 δ) (transaction : Transaction)
    (rest : List Transaction) :
    (dramsim.completed [transaction]).completed rest = dramsim.completed (transaction :: rest) := by
  obtain ⟨isWrite, addr⟩ := transaction
  cases isWrite with
  | true => simp [completed, addresses, popped]
  | false => simp [completed, addresses, popped]

theorem completed_of_foldlM {after : MmDramsim2 δ} {transactions : List Transaction}
    (hrun : transactions.foldlM complete dramsim = .ok after) :
    after = dramsim.completed transactions := by
  induction transactions generalizing dramsim with
  | nil =>
      cases hrun
      exact (completed_nil _).symm
  | cons transaction rest ih =>
      rw [List.foldlM_cons] at hrun
      obtain ⟨middle, hstep, hrun⟩ := bind_eq_ok.mp hrun
      obtain ⟨rfl, -, -⟩ := complete_eq_ok hstep
      rw [ih hrun, completed_cons]

theorem tick_eq_ok {after : MmDramsim2 δ} (hrun : dramsim.tick dram inputs = .ok after) :
    ∃ issued reqs result, dramsim.issueRead dram = .ok issued ∧
      dramsim.readChannel dram inputs = .ok reqs ∧ dramsim.writeChannel dram inputs = .ok result ∧
        dramsim.serve dram inputs = .ok (dramsim.served dram inputs issued reqs result) ∧
          after = (MmDramsim2.completed { dramsim.served dram inputs issued reqs result with
            mem := (dram.update (dramsim.served dram inputs issued reqs result).mem).1 }
            (dram.update (dramsim.served dram inputs issued reqs result).mem).2).finish
              inputs.reset := by
  rw [tick, bind_eq_ok] at hrun
  obtain ⟨before, hserve, hrun⟩ := hrun
  obtain ⟨done, hupdate, hrun⟩ := bind_eq_ok.mp hrun
  cases hrun
  have hserved := hserve
  rw [serve_eq, bind_eq_ok] at hserved
  obtain ⟨issued, hissue, hserved⟩ := hserved
  obtain ⟨reqs, hread, hserved⟩ := bind_eq_ok.mp hserved
  obtain ⟨result, hwrite, rfl⟩ := map_eq_ok.mp hserved
  exact ⟨issued, reqs, result, hissue, hread, hwrite, hserve,
    congrArg (finish inputs.reset) (completed_of_foldlM hupdate)⟩

end MmDramsim2

end FaultInjection
