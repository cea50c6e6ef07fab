import FaultInjection.Harness.DramsimWrites
import FaultInjection.Harness.MagicRuns

/-!
# Runs of the memory with a DRAM simulator

The simulator may call back in any order and at any time, once for each transaction.  The
reads of an id are answered in the order in which their addresses came, each without a gap
and with what the words written so far have made of the memory.  Every write burst is
answered once, after its last word.
-/

namespace FaultInjection

open Machine
open MmMagic (quietInputs)

namespace MmDramsim2

variable {δ : Type} {dram : Dram δ} {outstanding : δ → List Transaction}

/-! ## What a cycle does -/

/-- The read whose address is accepted in a cycle. -/
def acceptedReads (dram : Dram δ) (entry : MmDramsim2 δ × TickInputs) : List MmReq :=
  if entry.1.arFire dram entry.2 then [.ofInputs entry.2] else []

/-- The burst whose address is accepted in a cycle. -/
def acceptedBurst (dram : Dram δ) (entry : MmDramsim2 δ × TickInputs) : List WriteBurst :=
  if entry.1.awFire dram entry.2 then [.ofInputs entry.2] else []

/-- The word that is accepted in a cycle. -/
def acceptedWord (entry : MmDramsim2 δ × TickInputs) : List WriteWord :=
  if entry.1.wFire entry.2 then [.ofInputs entry.2] else []

/-- The bursts that get their last word in a cycle. -/
def writesClosed (entry : MmDramsim2 δ × TickInputs) : List Nat :=
  (closing entry.1.store (entry.1.wFire entry.2)).map StoreState.id

/-- The state in front of the update of the simulator. -/
def before (dram : Dram δ) (entry : MmDramsim2 δ × TickInputs) : MmDramsim2 δ :=
  match entry.1.serve dram entry.2 with
  | .ok dramsim => dramsim
  | .error _ => entry.1

/-- The transactions that the simulator calls back for in a cycle. -/
def callbacks (dram : Dram δ) (entry : MmDramsim2 δ × TickInputs) : List Transaction :=
  (dram.update (before dram entry).mem).2

/-- The state behind the callbacks of a cycle. -/
def called (dram : Dram δ) (entry : MmDramsim2 δ × TickInputs) : MmDramsim2 δ :=
  MmDramsim2.completed
    { before dram entry with mem := (dram.update (before dram entry).mem).1 }
    (callbacks dram entry)

/-- The reads that are answered in a cycle. -/
def readsDone (dram : Dram δ) (entry : MmDramsim2 δ × TickInputs) : List MmReq :=
  popped (before dram entry).rreq (addresses false (callbacks dram entry))

/-- The bursts that are answered in a cycle. -/
def writesDone (dram : Dram δ) (entry : MmDramsim2 δ × TickInputs) : List Nat :=
  popped (before dram entry).wreq (addresses true (callbacks dram entry))

/-- The words that answer reads in a cycle. -/
def readAnswer (dram : Dram δ) (entry : MmDramsim2 δ × TickInputs) : List MmRresp :=
  (readsDone dram entry).flatMap fun req =>
    (before dram entry).mm.burst req.addr req.id req.len

/-- The word that the port shows. -/
def shownWord (dramsim : MmDramsim2 δ) : MmRresp := ⟨dramsim.rId, dramsim.rData, dramsim.rLast⟩

/-- The words that leave the read queue in a cycle: the one taken, or all in a reset. -/
def readGone (dram : Dram δ) (entry : MmDramsim2 δ × TickInputs) : List MmRresp :=
  leaving entry.2.reset (entry.1.rFire entry.2) entry.1.shownWord entry.1.rresp
    (readAnswer dram entry)

/-- The bursts whose answers leave the queue in a cycle. -/
def writeGone (dram : Dram δ) (entry : MmDramsim2 δ × TickInputs) : List Nat :=
  leaving entry.2.reset (entry.1.bFire entry.2) entry.1.bId entry.1.bresp (writesDone dram entry)

variable {dramsim after : MmDramsim2 δ} {inputs : TickInputs}

theorem readChannel_eq_ok {reqs : List MmReq}
    (hrun : dramsim.readChannel dram inputs = .ok reqs) :
    reqs = acceptedReads dram (dramsim, inputs) := by
  rw [readChannel] at hrun
  rw [acceptedReads]
  split at hrun
  · rename_i hfire
    obtain ⟨req, haccept, rfl⟩ := map_eq_ok.mp hrun
    rw [MmReq.accept] at haccept
    split at haccept
    · cases haccept
      rw [if_pos hfire]
    · cases haccept
  · rename_i hfire
    cases hrun
    rw [if_neg hfire]

theorem closed_eq {result : WriteResult} (hrun : dramsim.writeChannel dram inputs = .ok result) :
    result.closed.map StoreState.id = writesClosed (dramsim, inputs) := by
  rw [writesClosed, ← closed_of_writeChannel wFire_of_awFire hrun]

/-- A cycle: what it serves, the callbacks, and the state after them. -/
theorem tick_served (hrun : dramsim.tick dram inputs = .ok after) :
    ∃ issued result, dramsim.issueRead dram = .ok issued ∧
      dramsim.writeChannel dram inputs = .ok result ∧
        before dram (dramsim, inputs) =
          dramsim.served dram inputs issued (acceptedReads dram (dramsim, inputs)) result ∧
          after = (called dram (dramsim, inputs)).finish inputs.reset := by
  obtain ⟨issued, reqs, result, hissue, hread, hwrite, hserve, rfl⟩ := tick_eq_ok hrun
  have hbefore : before dram (dramsim, inputs) = dramsim.served dram inputs issued reqs result := by
    rw [before, hserve]
  rw [called, callbacks, hbefore, ← readChannel_eq_ok hread]
  exact ⟨issued, result, hissue, hwrite, rfl, rfl⟩

theorem finish_keeps (reset : Bool) (dramsim : MmDramsim2 δ) :
    (dramsim.finish reset).mm = dramsim.mm ∧ (dramsim.finish reset).store = dramsim.store ∧
      (dramsim.finish reset).rreq = dramsim.rreq ∧ (dramsim.finish reset).wreq = dramsim.wreq ∧
        (dramsim.finish reset).readIdBusy = dramsim.readIdBusy ∧
          (dramsim.finish reset).rreqQueue = dramsim.rreqQueue ∧
            (dramsim.finish reset).mem = dramsim.mem := by
  cases reset <;> exact ⟨rfl, rfl, rfl, rfl, rfl, rfl, rfl⟩

theorem finish_answers (reset : Bool) (dramsim : MmDramsim2 δ) :
    (dramsim.finish reset).rresp = (if reset then [] else dramsim.rresp) ∧
      (dramsim.finish reset).bresp = if reset then [] else dramsim.bresp := by
  cases reset <;> exact ⟨rfl, rfl⟩

theorem tick_rresp (hrun : dramsim.tick dram inputs = .ok after) :
    dramsim.rresp ++ readAnswer dram (dramsim, inputs) =
      readGone dram (dramsim, inputs) ++ after.rresp := by
  obtain ⟨issued, result, -, -, hbefore, rfl⟩ := tick_served hrun
  have hstays : ((called dram (dramsim, inputs)).finish inputs.reset).rresp =
      staying inputs.reset (dramsim.rFire inputs) dramsim.rresp
        (readAnswer dram (dramsim, inputs)) := by
    rw [(finish_answers _ _).1]
    show (if inputs.reset then [] else (before dram (dramsim, inputs)).rresp ++
      readAnswer dram (dramsim, inputs)) = _
    rw [hbefore]
    exact if_append_eq_staying ..
  rw [hstays]
  exact leaving_append_staying (fun hfire => eq_cons_of_headD (rresp_of_rFire hfire) (by rfl)) _

theorem tick_bresp (hrun : dramsim.tick dram inputs = .ok after) :
    dramsim.bresp ++ writesDone dram (dramsim, inputs) =
      writeGone dram (dramsim, inputs) ++ after.bresp := by
  obtain ⟨issued, result, -, -, hbefore, rfl⟩ := tick_served hrun
  have hstays : ((called dram (dramsim, inputs)).finish inputs.reset).bresp =
      staying inputs.reset (dramsim.bFire inputs) dramsim.bresp
        (writesDone dram (dramsim, inputs)) := by
    rw [(finish_answers _ _).2]
    show (if inputs.reset then [] else (before dram (dramsim, inputs)).bresp ++
      writesDone dram (dramsim, inputs)) = _
    rw [hbefore]
    exact if_append_eq_staying ..
  rw [hstays]
  exact leaving_append_staying (fun hfire => eq_cons_of_headD (bresp_of_bFire hfire) rfl) _

/-! ## Ledgers -/

theorem outstanding_foldl (lawful : dram.Lawful outstanding) (closed : List StoreState)
    (mem : δ) :
    (outstanding (closed.foldl (fun mem store => dram.addTransaction mem ⟨true, store.addr⟩)
      mem)).Perm (closed.reverse.map (fun store => ⟨true, store.addr⟩) ++ outstanding mem) := by
  induction closed generalizing mem with
  | nil => exact .refl _
  | cons store closed ih =>
      rw [List.foldl_cons, List.reverse_cons, List.map_append, List.append_assoc]
      exact (ih _).trans ((lawful.addTransaction mem _).append_left _)

theorem read_issued (lawful : dram.Lawful outstanding) {accepted done row : List MmReq}
    {issued : MmDramsim2 δ} (reads : ReadLedger accepted done (outstanding dramsim.mem)
      dramsim.rreq dramsim.readIdBusy dramsim.rreqQueue row)
    (hissue : dramsim.issueRead dram = .ok issued) :
    ∃ row', ReadLedger accepted done (outstanding issued.mem) issued.rreq issued.readIdBusy
      issued.rreqQueue row' := by
  rcases issueRead_eq_ok hissue with rfl | ⟨front, req, back, hqueue, hfront, hidle, rfl⟩
  · exact ⟨row, reads⟩
  · rw [hqueue] at reads
    exact ⟨_, (reads.issue hfront hidle).perm (lawful.addTransaction _ _)⟩

theorem read_served (lawful : dram.Lawful outstanding) {accepted done row : List MmReq}
    {issued : MmDramsim2 δ} (reads : ReadLedger accepted done (outstanding dramsim.mem)
      dramsim.rreq dramsim.readIdBusy dramsim.rreqQueue row)
    (hissue : dramsim.issueRead dram = .ok issued) (inputs : TickInputs) (reqs : List MmReq)
    (result : WriteResult) :
    ∃ row', ReadLedger (accepted ++ reqs) done
      (outstanding (dramsim.served dram inputs issued reqs result).mem)
      (dramsim.served dram inputs issued reqs result).rreq
      (dramsim.served dram inputs issued reqs result).readIdBusy
      (dramsim.served dram inputs issued reqs result).rreqQueue row' := by
  obtain ⟨row', issuedReads⟩ := read_issued lawful reads hissue
  exact ⟨row', ((issuedReads.accept reqs).of_writes _).perm
    (outstanding_foldl lawful result.closed issued.mem)⟩

theorem read_tick (lawful : dram.Lawful outstanding) {accepted done row : List MmReq}
    (reads : ReadLedger accepted done (outstanding dramsim.mem) dramsim.rreq dramsim.readIdBusy
      dramsim.rreqQueue row) (hrun : dramsim.tick dram inputs = .ok after) :
    ∃ row', ReadLedger (accepted ++ acceptedReads dram (dramsim, inputs))
      (done ++ readsDone dram (dramsim, inputs)) (outstanding after.mem) after.rreq
        after.readIdBusy after.rreqQueue row' := by
  obtain ⟨issued, result, hissue, -, hbefore, rfl⟩ := tick_served hrun
  obtain ⟨row₁, served⟩ := read_served lawful reads hissue inputs
    (acceptedReads dram (dramsim, inputs)) result
  rw [← hbefore] at served
  obtain ⟨row₂, completed⟩ := (served.perm (lawful.update _)).completes
  obtain ⟨-, -, hrreq, -, hbusy, hqueue, hmem⟩ :=
    finish_keeps inputs.reset (called dram (dramsim, inputs))
  rw [hrreq, hbusy, hqueue, hmem]
  exact ⟨row₂, completed⟩

theorem write_issued (lawful : dram.Lawful outstanding) {closed answered : List Nat}
    {row : List StoreState} {mem : δ} {wreq : Nat → List Nat}
    (writes : WriteLedger closed answered (outstanding mem) wreq row) (stores : List StoreState) :
    WriteLedger (closed ++ stores.map StoreState.id) answered
      (outstanding (stores.foldl (fun mem store => dram.addTransaction mem ⟨true, store.addr⟩)
        mem))
      (stores.foldl (fun wreq store => push wreq store.addr store.id) wreq) (row ++ stores) := by
  induction stores generalizing closed row mem wreq with
  | nil =>
      rw [List.map_nil, List.append_nil, List.append_nil]
      exact writes
  | cons store stores ih =>
      have hissued := (writes.issue store).perm_outstanding (lawful.addTransaction mem _)
      have hrest := ih hissued
      rw [List.append_assoc, List.append_assoc] at hrest
      exact hrest

theorem write_served (lawful : dram.Lawful outstanding) {closed answered : List Nat}
    {row : List StoreState} {issued : MmDramsim2 δ}
    (writes : WriteLedger closed answered (outstanding dramsim.mem) dramsim.wreq row)
    (hissue : dramsim.issueRead dram = .ok issued) (inputs : TickInputs) (reqs : List MmReq)
    (result : WriteResult) :
    WriteLedger (closed ++ result.closed.map StoreState.id) answered
      (outstanding (dramsim.served dram inputs issued reqs result).mem)
      (dramsim.served dram inputs issued reqs result).wreq (row ++ result.closed) := by
  have issuedWrites : WriteLedger closed answered (outstanding issued.mem) dramsim.wreq row := by
    rcases issueRead_eq_ok hissue with rfl | ⟨front, req, back, -, -, -, rfl⟩
    · exact writes
    · exact (WriteLedger.read_iff.mpr writes).perm_outstanding (lawful.addTransaction _ _)
  exact write_issued lawful issuedWrites result.closed

theorem write_tick (lawful : dram.Lawful outstanding) {closed answered : List Nat}
    {row : List StoreState}
    (writes : WriteLedger closed answered (outstanding dramsim.mem) dramsim.wreq row)
    (hrun : dramsim.tick dram inputs = .ok after) :
    ∃ row', WriteLedger (closed ++ writesClosed (dramsim, inputs))
      (answered ++ writesDone dram (dramsim, inputs)) (outstanding after.mem) after.wreq row' := by
  obtain ⟨issued, result, hissue, hwrite, hbefore, rfl⟩ := tick_served hrun
  have served := write_served lawful writes hissue inputs
    (acceptedReads dram (dramsim, inputs)) result
  rw [← hbefore, closed_eq hwrite] at served
  obtain ⟨row', completed⟩ := (served.perm_outstanding (lawful.update _)).completes
  obtain ⟨-, -, -, hwreq, -, -, hmem⟩ :=
    finish_keeps inputs.reset (called dram (dramsim, inputs))
  rw [hwreq, hmem]
  exact ⟨row', completed⟩

/-- Callbacks and resets leave the memory and the burst in progress. -/
theorem tick_mm (hrun : dramsim.tick dram inputs = .ok after) :
    ∃ result, dramsim.writeChannel dram inputs = .ok result ∧ after.mm = result.mm ∧
      after.store = result.store ∧ (before dram (dramsim, inputs)).mm = result.mm := by
  obtain ⟨issued, result, -, hwrite, hbefore, rfl⟩ := tick_served hrun
  obtain ⟨hmm, hstore, -⟩ :=
    finish_keeps inputs.reset (called dram (dramsim, inputs))
  have hfields : (before dram (dramsim, inputs)).mm = result.mm ∧
      (before dram (dramsim, inputs)).store = result.store := by
    rw [hbefore]
    exact ⟨rfl, rfl⟩
  exact ⟨result, hwrite, hmm.trans hfields.1, hstore.trans hfields.2, hfields.1⟩

/-! ## Runs -/

/-- What the log of a run says. -/
def Serves (dram : Dram δ) (first : MmDramsim2 δ) (steps : List (MmDramsim2 δ × TickInputs))
    (last : MmDramsim2 δ) (log : List WriteBurst) : Prop :=
  Logged first.mm (steps.flatMap (acceptedBurst dram)) (steps.flatMap acceptedWord)
    (steps.flatMap writesClosed) last.mm last.store log

/-- A memory as it is made, before its first cycle. -/
structure Idle (outstanding : δ → List Transaction) (dramsim : MmDramsim2 δ) : Prop where
  store : dramsim.store.inflight = false
  wreq : dramsim.wreq = fun _ => []
  rreq : dramsim.rreq = fun _ => []
  readIdBusy : ∀ busy ∈ dramsim.readIdBusy, busy = false
  rreqQueue : dramsim.rreqQueue = []
  mem : outstanding dramsim.mem = []

theorem Idle.readLedger (idle : dramsim.Idle outstanding) :
    ReadLedger [] [] (outstanding dramsim.mem) dramsim.rreq dramsim.readIdBusy
      dramsim.rreqQueue [] := by
  rw [idle.mem, idle.rreq, idle.rreqQueue]
  refine ⟨fun _ => rfl, .nil, List.nodup_nil, fun id => ⟨fun hbusy => ?_, fun hmem => ?_⟩,
    fun _ => rfl⟩
  · cases idle.readIdBusy true (List.mem_of_getElem? hbusy)
  · cases hmem

theorem Idle.writeLedger (idle : dramsim.Idle outstanding) :
    WriteLedger [] [] (outstanding dramsim.mem) dramsim.wreq [] := by
  rw [idle.mem, idle.wreq]
  exact ⟨.refl _, .nil, fun _ => rfl⟩

variable {first last : MmDramsim2 δ} {steps : List (MmDramsim2 δ × TickInputs)}

theorem exists_readLedger (lawful : dram.Lawful outstanding)
    (run : Run (tick dram) first steps last) (idle : first.Idle outstanding) :
    ∃ row, ReadLedger (steps.flatMap (acceptedReads dram)) (steps.flatMap (readsDone dram))
      (outstanding last.mem) last.rreq last.readIdBusy last.rreqQueue row := by
  refine run.follows (fun done state => ∃ row, ReadLedger (done.flatMap (acceptedReads dram))
    (done.flatMap (readsDone dram)) (outstanding state.mem) state.rreq state.readIdBusy
      state.rreqQueue row) ⟨[], idle.readLedger⟩ ?_
  rintro done state inputs after ⟨row, reads⟩ hstep
  rw [List.flatMap_append, List.flatMap_append, List.flatMap_singleton, List.flatMap_singleton]
  exact read_tick lawful reads hstep

theorem exists_writeLedger (lawful : dram.Lawful outstanding)
    (run : Run (tick dram) first steps last) (idle : first.Idle outstanding) :
    ∃ row, WriteLedger (steps.flatMap writesClosed) (steps.flatMap (writesDone dram))
      (outstanding last.mem) last.wreq row := by
  refine run.follows (fun done state => ∃ row, WriteLedger (done.flatMap writesClosed)
    (done.flatMap (writesDone dram)) (outstanding state.mem) state.wreq row)
      ⟨[], idle.writeLedger⟩ ?_
  rintro done state inputs after ⟨row, writes⟩ hstep
  rw [List.flatMap_append, List.flatMap_append, List.flatMap_singleton, List.flatMap_singleton]
  exact write_tick lawful writes hstep

theorem exists_log (run : Run (tick dram) first steps last)
    (hidle : first.store.inflight = false) : ∃ log, Serves dram first steps last log := by
  refine run.follows (fun done state => ∃ log, Serves dram first done state log)
    ⟨[], .nil hidle⟩ ?_
  rintro done dramsim inputs after ⟨log, logged⟩ hstep
  obtain ⟨result, hresult, hmm, hstore, -⟩ := tick_mm hstep
  obtain ⟨log', logged'⟩ := logged.step inflight_of_awFire inflight_of_wFire hresult
  refine ⟨log', ?_⟩
  rw [Serves, List.flatMap_append, List.flatMap_append, List.flatMap_append,
    List.flatMap_singleton, List.flatMap_singleton, List.flatMap_singleton, ← closed_eq hresult,
    hmm, hstore]
  exact logged'

/--
A run of an idle memory with any simulator that calls back once for each transaction.  For
each id the reads accepted are those answered, those in flight and those that wait, in this
order, and no two in flight have one id.  A read is answered by its words as the writes so
far have made them, and the words taken at the port, dropped by resets or still queued are
the answers, in order.
-/
theorem run_reads (lawful : dram.Lawful outstanding) (run : Run (tick dram) first steps last)
    (idle : first.Idle outstanding) :
    (∃ row, ReadLedger (steps.flatMap (acceptedReads dram)) (steps.flatMap (readsDone dram))
      (outstanding last.mem) last.rreq last.readIdBusy last.rreqQueue row) ∧
      first.rresp ++ steps.flatMap (readAnswer dram) =
        steps.flatMap (readGone dram) ++ last.rresp ∧
      ∀ front entry back, steps = front ++ entry :: back →
        ∃ middle log, tick dram entry.1 entry.2 = .ok middle ∧
          Serves dram first (front ++ [entry]) middle log ∧
          readAnswer dram entry = (readsDone dram entry).flatMap fun req =>
            (first.mm.replay log).burst req.addr req.id req.len := by
  refine ⟨exists_readLedger lawful run idle, run.conserves rresp (readAnswer dram) (readGone dram)
    fun _ _ _ _ hstep => tick_rresp hstep, ?_⟩
  rintro front entry back rfl
  obtain ⟨state, hfront, hback⟩ := run.exists_cut
  cases hback with
  | @next state middle last inputs back hstep hrest =>
      obtain ⟨log, logged⟩ := exists_log (hfront.append (.next hstep (.done middle))) idle.store
      obtain ⟨result, -, hmm, -, hbefore⟩ := tick_mm hstep
      refine ⟨middle, log, hstep, logged, ?_⟩
      rw [readAnswer, hbefore, ← hmm, logged.mm]

/--
A run of an idle memory with any simulator that calls back once for each transaction.  The
words written have gone to the bursts whose addresses came, in order.  A burst that has all
of its words is in flight or has been answered, and that once, and the answers taken at the
port, dropped by resets or still queued are those given, in order.
-/
theorem run_writes (lawful : dram.Lawful outstanding) (run : Run (tick dram) first steps last)
    (idle : first.Idle outstanding) :
    (∃ log, Serves dram first steps last log) ∧
      (∃ row, WriteLedger (steps.flatMap writesClosed) (steps.flatMap (writesDone dram))
        (outstanding last.mem) last.wreq row) ∧
      first.bresp ++ steps.flatMap (writesDone dram) =
        steps.flatMap (writeGone dram) ++ last.bresp :=
  ⟨exists_log run idle.store, exists_writeLedger lawful run idle,
    run.conserves bresp (writesDone dram) (writeGone dram) fun _ _ _ _ hstep => tick_bresp hstep⟩

/-! ### A simulator with one latency -/

/-- Every transaction takes some cycles more, and no more than eight are taken. -/
def latencyDram : Dram (List (Transaction × Nat)) where
  willAcceptTransaction mem := mem.length < 8
  addTransaction mem transaction := mem ++ [(transaction, 3)]
  update mem :=
    ((mem.filter fun entry => !(entry.2 == 0)).map fun entry => (entry.1, entry.2 - 1),
      (mem.filter fun entry => entry.2 == 0).map Prod.fst)

theorem latencyDram_lawful : latencyDram.Lawful (List.map Prod.fst) where
  addTransaction mem transaction := by
    show ((mem ++ [(transaction, 3)]).map Prod.fst).Perm _
    rw [List.map_append]
    exact List.perm_append_singleton _ _
  update mem := by
    show ((mem.filter fun entry => entry.2 == 0).map Prod.fst ++
      ((mem.filter fun entry => !(entry.2 == 0)).map fun entry => (entry.1, entry.2 - 1)).map
        Prod.fst).Perm (mem.map Prod.fst)
    have hfirst : ((mem.filter fun entry => !(entry.2 == 0)).map fun entry =>
        (entry.1, entry.2 - 1)).map Prod.fst =
          (mem.filter fun entry => !(entry.2 == 0)).map Prod.fst := by
      rw [List.map_map]
      rfl
    rw [hfirst, ← List.map_append]
    exact (List.filter_append_perm _ mem).map Prod.fst

/-- A memory of one mebibyte. -/
def mebibyteMm : Mm where
  data _ := 0
  size := 1048576
  wordSize := 8
  lineSize := 64
  size_pos := by decide
  wordSize_pos := MmMagic.smallMm.wordSize_pos
  lineSize_pos := MmMagic.smallMm.size_pos
  lineSize_lt := by decide
  lineSize_and := by decide
  lineSize_mod := by decide

def latencyDramsim : MmDramsim2 (List (Transaction × Nat)) where
  mm := mebibyteMm
  store := ⟨false, 0, 0, 0, 0⟩
  bresp := []
  rresp := []
  wreq _ := []
  rreq _ := []
  readIdBusy := List.replicate 16 false
  writeIdBusy := List.replicate 16 false
  rreqQueue := []
  mem := []
  cycle := 0

theorem latencyDramsim_idle : latencyDramsim.Idle (List.map Prod.fst) where
  store := rfl
  wreq := rfl
  rreq := rfl
  readIdBusy _ hbusy := List.eq_of_mem_replicate hbusy
  rreqQueue := rfl
  mem := rfl

/-- A burst of two words is written, and two reads of one id follow. -/
def twoReads : List TickInputs :=
  [{ quietInputs with awValid := true, awAddr := 8, awId := 5, awSize := 3, awLen := 1 },
    { quietInputs with wValid := true, wStrb := 255, wData := fun _ => 7 },
    { quietInputs with wValid := true, wStrb := 15, wData := fun _ => 9, wLast := true },
    { quietInputs with arValid := true, arAddr := 8, arId := 2, arSize := 3, arLen := 1 },
    { quietInputs with arValid := true, arAddr := 16, arId := 2, arSize := 3 }] ++
  List.replicate 12 quietInputs

theorem twoReads_returns : ∃ steps last, steps.map Prod.snd = twoReads ∧
    Run (tick latencyDram) latencyDramsim steps last := by
  have hreturns : (twoReads.foldlM (tick latencyDram) latencyDramsim).isOk = true := by
    decide +kernel
  obtain ⟨last, hlast⟩ := isOk_iff.mp hreturns
  obtain ⟨steps, hsteps, run⟩ := Run.exists_of_foldlM hlast
  exact ⟨steps, last, hsteps, run⟩

theorem run_reads_twoReads : latencyDram.Lawful (List.map Prod.fst) ∧
    latencyDramsim.Idle (List.map Prod.fst) ∧
      ∃ steps last, Run (tick latencyDram) latencyDramsim steps last ∧
        steps.map Prod.snd = twoReads ∧ ((∃ row, ReadLedger (steps.flatMap (acceptedReads latencyDram))
          (steps.flatMap (readsDone latencyDram)) (last.mem.map Prod.fst) last.rreq
            last.readIdBusy last.rreqQueue row) ∧
          latencyDramsim.rresp ++ steps.flatMap (readAnswer latencyDram) =
            steps.flatMap (readGone latencyDram) ++ last.rresp ∧
          ∀ front entry back, steps = front ++ entry :: back →
            ∃ middle log, tick latencyDram entry.1 entry.2 = .ok middle ∧
              Serves latencyDram latencyDramsim (front ++ [entry]) middle log ∧
              readAnswer latencyDram entry = (readsDone latencyDram entry).flatMap fun req =>
                (latencyDramsim.mm.replay log).burst req.addr req.id req.len) := by
  obtain ⟨steps, last, hinputs, run⟩ := twoReads_returns
  exact ⟨latencyDram_lawful, latencyDramsim_idle, steps, last, run, hinputs,
    run_reads latencyDram_lawful run latencyDramsim_idle⟩

theorem run_writes_twoReads : latencyDram.Lawful (List.map Prod.fst) ∧
    latencyDramsim.Idle (List.map Prod.fst) ∧
      ∃ steps last, Run (tick latencyDram) latencyDramsim steps last ∧
        steps.map Prod.snd = twoReads ∧ ((∃ log, Serves latencyDram latencyDramsim steps last log) ∧
          (∃ row, WriteLedger (steps.flatMap writesClosed)
            (steps.flatMap (writesDone latencyDram)) (last.mem.map Prod.fst) last.wreq row) ∧
          latencyDramsim.bresp ++ steps.flatMap (writesDone latencyDram) =
            steps.flatMap (writeGone latencyDram) ++ last.bresp) := by
  obtain ⟨steps, last, hinputs, run⟩ := twoReads_returns
  exact ⟨latencyDram_lawful, latencyDramsim_idle, steps, last, run, hinputs,
    run_writes latencyDram_lawful run latencyDramsim_idle⟩

end MmDramsim2

end FaultInjection
