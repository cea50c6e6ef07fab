import Mathlib.Data.List.Nodup
import FaultInjection.Harness.DramsimSteps
import FaultInjection.Machine.Run

/-!
# The reads in flight

Reads wait in the list, then in the queues by address, and never two of one id in the
queues.  So the reads of one id are answered in the order in which their addresses came,
in whatever order the simulator calls back.
-/

namespace FaultInjection

open Machine

/-- The requests of one id. -/
def ofId (id : Nat) (reqs : List MmReq) : List MmReq := reqs.filter fun req => req.id = id

theorem ofId_nil (id : Nat) : ofId id [] = [] := rfl

theorem ofId_append (id : Nat) (reqs more : List MmReq) :
    ofId id (reqs ++ more) = ofId id reqs ++ ofId id more := List.filter_append reqs more

theorem ofId_cons_self (req : MmReq) (rest : List MmReq) :
    ofId req.id (req :: rest) = req :: ofId req.id rest := by
  rw [ofId, List.filter_cons, if_pos (decide_eq_true rfl)]
  rfl

theorem ofId_cons_ne {id : Nat} {req : MmReq} (hne : req.id ≠ id) (rest : List MmReq) :
    ofId id (req :: rest) = ofId id rest := by
  rw [ofId, List.filter_cons, if_neg (fun heq => hne (of_decide_eq_true heq))]
  rfl

theorem ofId_eq_nil {id : Nat} {reqs : List MmReq} (hnone : ∀ req ∈ reqs, req.id ≠ id) :
    ofId id reqs = [] :=
  List.filter_eq_nil_iff.mpr fun req hreq heq => hnone req hreq (of_decide_eq_true heq)

/-- The reads accepted are the ones done, those in flight and those in the list, for each id
in this order.  Those in flight are the ones that the simulator has still to call back for,
their ids are the busy ones, and no id is among them twice. -/
structure ReadLedger (accepted done : List MmReq) (outstanding : List Transaction)
    (rreq : Nat → List MmReq) (readIdBusy : List Bool) (queue row : List MmReq) : Prop where
  order : ∀ id, ofId id accepted = ofId id done ++ (ofId id row ++ ofId id queue)
  queued : Queued MmReq.addr (fun req => req) row rreq
  nodup : (row.map MmReq.id).Nodup
  busy : ∀ id, readIdBusy[id]? = some true ↔ id ∈ row.map MmReq.id
  count : ∀ addr, outstanding.count ⟨false, addr⟩ = (rreq addr).length

theorem count_cons_addr (isWrite : Bool) (addr addr' : Nat) (outstanding : List Transaction) :
    (⟨isWrite, addr⟩ :: outstanding).count ⟨isWrite, addr'⟩ =
      outstanding.count ⟨isWrite, addr'⟩ + if addr' = addr then 1 else 0 := by
  rw [List.count_cons]
  by_cases haddr : addr' = addr
  · rw [if_pos haddr, haddr, beq_self_eq_true, if_pos rfl]
  · rw [if_neg haddr, if_neg]
    intro heq
    cases eq_of_beq heq
    exact haddr rfl

namespace ReadLedger

variable {accepted done : List MmReq} {outstanding outstanding' : List Transaction}
  {rreq : Nat → List MmReq} {readIdBusy : List Bool} {queue row : List MmReq}

theorem perm (reads : ReadLedger accepted done outstanding rreq readIdBusy queue row)
    (hperm : outstanding'.Perm outstanding) :
    ReadLedger accepted done outstanding' rreq readIdBusy queue row :=
  ⟨reads.order, reads.queued, reads.nodup, reads.busy,
    fun addr => (hperm.count_eq _).trans (reads.count addr)⟩

theorem write_iff {addr : Nat} :
    ReadLedger accepted done (⟨true, addr⟩ :: outstanding) rreq readIdBusy queue row ↔
      ReadLedger accepted done outstanding rreq readIdBusy queue row := by
  have hcount : ∀ addr', (⟨true, addr⟩ :: outstanding).count (⟨false, addr'⟩ : Transaction) =
      outstanding.count ⟨false, addr'⟩ := fun addr' => List.count_cons_of_ne (by simp)
  constructor
  · exact fun reads => ⟨reads.order, reads.queued, reads.nodup, reads.busy,
      fun addr' => (hcount addr').symm.trans (reads.count addr')⟩
  · exact fun reads => ⟨reads.order, reads.queued, reads.nodup, reads.busy,
      fun addr' => (hcount addr').trans (reads.count addr')⟩

theorem of_writes (reads : ReadLedger accepted done outstanding rreq readIdBusy queue row)
    (closed : List StoreState) :
    ReadLedger accepted done (closed.map (fun store => ⟨true, store.addr⟩) ++ outstanding) rreq
      readIdBusy queue row := by
  induction closed with
  | nil => exact reads
  | cons store closed ih => exact write_iff.mpr ih

theorem accept (reads : ReadLedger accepted done outstanding rreq readIdBusy queue row)
    (reqs : List MmReq) :
    ReadLedger (accepted ++ reqs) done outstanding rreq readIdBusy (queue ++ reqs) row := by
  refine ⟨fun id => ?_, reads.queued, reads.nodup, reads.busy, reads.count⟩
  rw [ofId_append, reads.order id, ofId_append, List.append_assoc, List.append_assoc]

theorem issue {before after : List MmReq} {req : MmReq}
    (reads : ReadLedger accepted done outstanding rreq readIdBusy (before ++ req :: after) row)
    (hbefore : ∀ other ∈ before, readIdBusy[other.id]? = some true)
    (hidle : readIdBusy[req.id]? = some false) :
    ReadLedger accepted done (⟨false, req.addr⟩ :: outstanding) (push rreq req.addr req)
      (readIdBusy.set req.id true) (before ++ after) (row ++ [req]) := by
  have hnotin : req.id ∉ row.map MmReq.id := fun hmem => by
    have hbusy := (reads.busy req.id).mpr hmem
    rw [hidle] at hbusy
    cases hbusy
  have hlength : req.id < readIdBusy.length := (List.getElem?_eq_some_iff.mp hidle).1
  refine ⟨fun id => ?_, reads.queued.push req, ?_, fun id => ?_, fun addr => ?_⟩
  · rw [reads.order id, ofId_append id row, ofId_append, ofId_append, List.append_assoc]
    by_cases hid : req.id = id
    · -- the reads in front of it have other ids
      have hnone : ofId id before = [] := ofId_eq_nil fun other hother heq => by
        have hbusy := hbefore other hother
        rw [heq, ← hid, hidle] at hbusy
        cases hbusy
      rw [hnone, ← hid, ofId_cons_self, ofId_cons_self]
      rfl
    · rw [ofId_cons_ne hid, ofId_cons_ne hid]
      rfl
  · rw [List.map_append]
    refine List.nodup_append.mpr ⟨reads.nodup, List.nodup_singleton _, ?_⟩
    intro id hid other hother heq
    rw [List.map_singleton, List.mem_singleton] at hother
    exact hnotin (hother ▸ heq ▸ hid)
  · rw [List.map_append, List.mem_append, ← reads.busy id, List.map_singleton, List.mem_singleton,
      List.getElem?_set]
    by_cases hid : req.id = id
    · subst hid
      rw [if_pos rfl, if_pos hlength]
      exact ⟨fun _ => Or.inr rfl, fun _ => rfl⟩
    · rw [if_neg hid]
      exact ⟨Or.inl, fun hcases => hcases.resolve_right (Ne.symm hid)⟩
  · rw [length_push, ← reads.count addr, count_cons_addr]

theorem exists_front {addr : Nat}
    (reads : ReadLedger accepted done (⟨false, addr⟩ :: outstanding) rreq readIdBusy queue row) :
    ∃ req rest, rreq addr = req :: rest := by
  have hcount := reads.count addr
  rw [List.count_cons_self] at hcount
  exact List.exists_cons_of_length_pos (by omega)

theorem complete {addr : Nat} {req : MmReq} {rest : List MmReq}
    (reads : ReadLedger accepted done (⟨false, addr⟩ :: outstanding) rreq readIdBusy queue row)
    (hfront : rreq addr = req :: rest) :
    ∃ row', ReadLedger accepted (done ++ [req]) outstanding (pop rreq addr)
      (readIdBusy.set req.id false) queue row' := by
  obtain ⟨before, item, after, rfl, -, rfl, queued⟩ := reads.queued.exists_front hfront
  have hnodup : (item.id :: (before ++ after).map MmReq.id).Nodup := by
    have hperm : ((before ++ item :: after).map MmReq.id).Perm
        (item.id :: (before ++ after).map MmReq.id) :=
      List.perm_middle.map MmReq.id
    exact hperm.nodup reads.nodup
  have hother : ∀ other ∈ before ++ after, other.id ≠ item.id := fun other hmem heq =>
    (List.nodup_cons.mp hnodup).1 (heq ▸ List.mem_map_of_mem hmem)
  have hbusy : readIdBusy[item.id]? = some true := (reads.busy item.id).mpr
    (List.mem_map_of_mem (List.mem_append_right _ (.head _)))
  have hlength : item.id < readIdBusy.length := (List.getElem?_eq_some_iff.mp hbusy).1
  refine ⟨before ++ after, fun id => ?_, queued, (List.nodup_cons.mp hnodup).2, fun id => ?_,
    fun addr' => ?_⟩
  · rw [reads.order id, ofId_append, ofId_append, ofId_append]
    by_cases hid : item.id = id
    · subst hid
      have hnone : ∀ part, (∀ other ∈ part, other ∈ before ++ after) → ofId item.id part = [] :=
        fun part hpart => ofId_eq_nil fun other hmem => hother other (hpart other hmem)
      rw [ofId_cons_self, ofId_cons_self, hnone before fun _ => List.mem_append_left _,
        hnone after fun _ => List.mem_append_right _, List.append_assoc, List.append_assoc]
      rfl
    · rw [ofId_cons_ne hid, ofId_cons_ne hid, ofId_nil, List.append_nil]
  · rw [List.getElem?_set]
    by_cases hid : item.id = id
    · subst hid
      rw [if_pos rfl, if_pos hlength]
      exact ⟨fun impossible => (by cases impossible),
        fun hmem => absurd hmem (List.nodup_cons.mp hnodup).1⟩
    · rw [if_neg hid, reads.busy id, List.map_append, List.map_append, List.mem_append,
        List.mem_append, List.map_cons, List.mem_cons]
      exact or_congr_right ⟨fun hcases => hcases.resolve_left (Ne.symm hid), Or.inr⟩
  · have hcount := reads.count addr'
    have hpop := length_pop hfront addr'
    rw [count_cons_addr] at hcount
    omega

theorem completes {transactions : List Transaction}
    (reads : ReadLedger accepted done (transactions ++ outstanding) rreq readIdBusy queue row) :
    ∃ row', ReadLedger accepted (done ++ popped rreq (addresses false transactions)) outstanding
      ((addresses false transactions).foldl pop rreq)
      ((popped rreq (addresses false transactions)).foldl
        (fun busy req => busy.set req.id false) readIdBusy) queue row' := by
  induction transactions generalizing done rreq readIdBusy row with
  | nil =>
      rw [addresses, List.filter_nil, List.map_nil, popped, List.append_nil]
      exact ⟨row, reads⟩
  | cons transaction rest ih =>
      obtain ⟨isWrite, addr⟩ := transaction
      cases isWrite with
      | true =>
          rw [addresses_cons_ne (by simp) rest]
          exact ih (write_iff.mp reads)
      | false =>
          obtain ⟨req, others, hfront⟩ := reads.exists_front
          obtain ⟨row', reads'⟩ := reads.complete hfront
          obtain ⟨row'', reads''⟩ := ih reads'
          have haddresses := addresses_cons_self ⟨false, addr⟩ rest
          refine ⟨row'', ?_⟩
          rw [haddresses, popped, hfront]
          rw [List.append_assoc] at reads''
          exact reads''

end ReadLedger

end FaultInjection
