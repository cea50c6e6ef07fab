import FaultInjection.Harness.DramsimReads

/-!
# The writes in flight

A write burst that has all of its words waits in the queue of the address behind it until
the simulator calls back for that address.
-/

namespace FaultInjection

open Machine

/-- The bursts closed are the ones answered and those in flight, and those in flight are the
ones that the simulator has still to call back for. -/
structure WriteLedger (closed answered : List Nat) (outstanding : List Transaction)
    (wreq : Nat → List Nat) (row : List StoreState) : Prop where
  perm : closed.Perm (answered ++ row.map StoreState.id)
  queued : Queued StoreState.addr StoreState.id row wreq
  count : ∀ addr, outstanding.count ⟨true, addr⟩ = (wreq addr).length

namespace WriteLedger

variable {closed answered : List Nat} {outstanding outstanding' : List Transaction}
  {wreq : Nat → List Nat} {row : List StoreState}

theorem perm_outstanding (writes : WriteLedger closed answered outstanding wreq row)
    (hperm : outstanding'.Perm outstanding) : WriteLedger closed answered outstanding' wreq row :=
  ⟨writes.perm, writes.queued, fun addr => (hperm.count_eq _).trans (writes.count addr)⟩

theorem read_iff {addr : Nat} :
    WriteLedger closed answered (⟨false, addr⟩ :: outstanding) wreq row ↔
      WriteLedger closed answered outstanding wreq row := by
  have hcount : ∀ addr', (⟨false, addr⟩ :: outstanding).count (⟨true, addr'⟩ : Transaction) =
      outstanding.count ⟨true, addr'⟩ := fun addr' => List.count_cons_of_ne (by simp)
  constructor
  · exact fun writes => ⟨writes.perm, writes.queued,
      fun addr' => (hcount addr').symm.trans (writes.count addr')⟩
  · exact fun writes => ⟨writes.perm, writes.queued,
      fun addr' => (hcount addr').trans (writes.count addr')⟩

theorem issue (writes : WriteLedger closed answered outstanding wreq row) (store : StoreState) :
    WriteLedger (closed ++ [store.id]) answered (⟨true, store.addr⟩ :: outstanding)
      (push wreq store.addr store.id) (row ++ [store]) := by
  refine ⟨?_, writes.queued.push store, fun addr => ?_⟩
  · rw [List.map_append, ← List.append_assoc]
    exact writes.perm.append_right [store.id]
  · rw [length_push, ← writes.count addr, count_cons_addr]

theorem exists_front {addr : Nat}
    (writes : WriteLedger closed answered (⟨true, addr⟩ :: outstanding) wreq row) :
    ∃ id rest, wreq addr = id :: rest := by
  have hcount := writes.count addr
  rw [List.count_cons_self] at hcount
  exact List.exists_cons_of_length_pos (by omega)

theorem complete {addr id : Nat} {rest : List Nat}
    (writes : WriteLedger closed answered (⟨true, addr⟩ :: outstanding) wreq row)
    (hfront : wreq addr = id :: rest) :
    ∃ row', WriteLedger closed (answered ++ [id]) outstanding (pop wreq addr) row' := by
  obtain ⟨before, store, after, rfl, -, rfl, queued⟩ := writes.queued.exists_front hfront
  refine ⟨before ++ after, ?_, queued, fun addr' => ?_⟩
  · have hmiddle : ((before ++ store :: after).map StoreState.id).Perm
        ([store.id] ++ (before ++ after).map StoreState.id) :=
      List.perm_middle.map StoreState.id
    rw [List.append_assoc]
    exact writes.perm.trans (hmiddle.append_left answered)
  · have hcount := writes.count addr'
    have hpop := length_pop hfront addr'
    rw [count_cons_addr] at hcount
    omega

theorem completes {transactions : List Transaction}
    (writes : WriteLedger closed answered (transactions ++ outstanding) wreq row) :
    ∃ row', WriteLedger closed (answered ++ popped wreq (addresses true transactions)) outstanding
      ((addresses true transactions).foldl pop wreq) row' := by
  induction transactions generalizing answered wreq row with
  | nil =>
      rw [addresses, List.filter_nil, List.map_nil, popped, List.append_nil]
      exact ⟨row, writes⟩
  | cons transaction rest ih =>
      obtain ⟨isWrite, addr⟩ := transaction
      cases isWrite with
      | false =>
          rw [addresses_cons_ne (by simp) rest]
          exact ih (read_iff.mp writes)
      | true =>
          obtain ⟨id, others, hfront⟩ := writes.exists_front
          obtain ⟨row', writes'⟩ := writes.complete hfront
          obtain ⟨row'', writes''⟩ := ih writes'
          have haddresses := addresses_cons_self ⟨true, addr⟩ rest
          refine ⟨row'', ?_⟩
          rw [haddresses, popped, hfront]
          rw [List.append_assoc] at writes''
          exact writes''

end WriteLedger

end FaultInjection
