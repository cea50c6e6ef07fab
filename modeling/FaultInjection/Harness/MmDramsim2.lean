import FaultInjection.Harness.WriteChannel
import FaultInjection.Machine.Queues

/-!
# The memory with a DRAM simulator

`mm_dramsim2_t` keeps the contents in the backing memory and asks a DRAM simulator when a
transfer is over.  The simulator knows addresses only, so the requests in flight wait in
queues by address, and at most one read of each id is in flight.
-/

namespace FaultInjection

open Machine

/-- What the DRAM simulator is told, and what it calls back with. -/
structure Transaction where
  isWrite : Bool
  addr : Nat
  deriving DecidableEq, Repr

/-- `MultiChannelMemorySystem`, as `mm_dramsim2_t` uses it.  An update lists the transactions
whose callbacks it has called. -/
structure Dram (δ : Type) where
  willAcceptTransaction : δ → Bool
  addTransaction : δ → Transaction → δ
  update : δ → δ × List Transaction

/-- The simulator calls back once for each transaction. -/
structure Dram.Lawful {δ : Type} (dram : Dram δ) (outstanding : δ → List Transaction) :
    Prop where
  addTransaction : ∀ mem transaction,
    (outstanding (dram.addTransaction mem transaction)).Perm (transaction :: outstanding mem)
  update : ∀ mem,
    ((dram.update mem).2 ++ outstanding (dram.update mem).1).Perm (outstanding mem)

structure MmReq where
  id : Nat
  size : Nat
  len : Nat
  addr : Nat
  deriving DecidableEq, Repr

/-- The request of a read address. -/
def MmReq.ofInputs (inputs : TickInputs) : MmReq where
  id := inputs.arId
  size := 1 <<< inputs.arSize
  len := (inputs.arLen + 1) % uint64Bound
  addr := inputs.arAddr

/-- `1 << ar_size` is an `int`. -/
def MmReq.accept (inputs : TickInputs) : Except HarnessError MmReq :=
  if inputs.arSize < 31 then .ok (.ofInputs inputs) else .error .overflow

/-- The first request in the list whose id is not busy, and the other requests. -/
def findIdle (readIdBusy : List Bool) :
    List MmReq → Except HarnessError (Option (MmReq × List MmReq))
  | [] => .ok none
  | req :: rest =>
      match readIdBusy[req.id]? with
      | none => .error .outOfBounds
      | some false => .ok (some (req, rest))
      | some true => do
          let found ← findIdle readIdBusy rest
          return found.map fun entry => (entry.1, req :: entry.2)

structure MmDramsim2 (δ : Type) where
  mm : Mm
  store : StoreState
  bresp : List Nat
  rresp : List MmRresp
  wreq : Nat → List Nat
  rreq : Nat → List MmReq
  readIdBusy : List Bool
  writeIdBusy : List Bool
  rreqQueue : List MmReq
  mem : δ
  cycle : Nat

namespace MmDramsim2

variable {δ : Type}

def readComplete (address : Nat) (dramsim : MmDramsim2 δ) :
    Except HarnessError (MmDramsim2 δ) :=
  match dramsim.rreq address with
  | [] => .error .assertion
  | req :: _ => do
      let startAddr := req.addr / dramsim.mm.wordSize * dramsim.mm.wordSize
      let words ← dramsim.mm.readWords startAddr req.id (req.len - 1) req.len 0
      if req.id < dramsim.readIdBusy.length then
        return { dramsim with
          rresp := dramsim.rresp ++ words
          readIdBusy := dramsim.readIdBusy.set req.id false
          rreq := pop dramsim.rreq address }
      else .error .outOfBounds

def writeComplete (address : Nat) (dramsim : MmDramsim2 δ) :
    Except HarnessError (MmDramsim2 δ) :=
  match dramsim.wreq address with
  | [] => .error .assertion
  | id :: _ =>
      if id < dramsim.writeIdBusy.length then
        .ok { dramsim with
          bresp := dramsim.bresp ++ [id]
          writeIdBusy := dramsim.writeIdBusy.set id false
          wreq := pop dramsim.wreq address }
      else .error .outOfBounds

def complete (dramsim : MmDramsim2 δ) (transaction : Transaction) :
    Except HarnessError (MmDramsim2 δ) :=
  if transaction.isWrite then writeComplete transaction.addr dramsim
  else readComplete transaction.addr dramsim

def arReady (dram : Dram δ) (dramsim : MmDramsim2 δ) : Bool :=
  dram.willAcceptTransaction dramsim.mem

def awReady (dram : Dram δ) (dramsim : MmDramsim2 δ) : Bool :=
  dram.willAcceptTransaction dramsim.mem && !dramsim.store.inflight

def wReady (dramsim : MmDramsim2 δ) : Bool := dramsim.store.inflight
def bValid (dramsim : MmDramsim2 δ) : Bool := !dramsim.bresp.isEmpty
def bId (dramsim : MmDramsim2 δ) : Nat := frontId dramsim.bresp
def rValid (dramsim : MmDramsim2 δ) : Bool := !dramsim.rresp.isEmpty

def rId (dramsim : MmDramsim2 δ) : Nat := (frontWord dramsim.mm.wordSize dramsim.rresp).id

def rData (dramsim : MmDramsim2 δ) : List UInt8 :=
  (frontWord dramsim.mm.wordSize dramsim.rresp).data

def rLast (dramsim : MmDramsim2 δ) : Bool := (frontWord dramsim.mm.wordSize dramsim.rresp).last

def arFire (dram : Dram δ) (dramsim : MmDramsim2 δ) (inputs : TickInputs) : Bool :=
  !inputs.reset && inputs.arValid && dramsim.arReady dram

def awFire (dram : Dram δ) (dramsim : MmDramsim2 δ) (inputs : TickInputs) : Bool :=
  !inputs.reset && inputs.awValid && dramsim.awReady dram

def wFire (dramsim : MmDramsim2 δ) (inputs : TickInputs) : Bool :=
  !inputs.reset && inputs.wValid && dramsim.wReady

def rFire (dramsim : MmDramsim2 δ) (inputs : TickInputs) : Bool :=
  !inputs.reset && dramsim.rValid && inputs.rReady

def bFire (dramsim : MmDramsim2 δ) (inputs : TickInputs) : Bool :=
  !inputs.reset && dramsim.bValid && inputs.bReady

/-- Hand a read to the simulator; the others stay in the list. -/
def issue (dram : Dram δ) (dramsim : MmDramsim2 δ) (transaction : MmReq) (others : List MmReq) :
    MmDramsim2 δ :=
  { dramsim with
    readIdBusy := dramsim.readIdBusy.set transaction.id true
    rreq := push dramsim.rreq transaction.addr transaction
    mem := dram.addTransaction dramsim.mem ⟨false, transaction.addr⟩
    rreqQueue := others }

/-- Hand the first read whose id is not busy to the simulator, if it takes one. -/
def issueRead (dram : Dram δ) (dramsim : MmDramsim2 δ) : Except HarnessError (MmDramsim2 δ) :=
  if dram.willAcceptTransaction dramsim.mem then do
    match ← findIdle dramsim.readIdBusy dramsim.rreqQueue with
    | none => return dramsim
    | some (transaction, others) => return dramsim.issue dram transaction others
  else .ok dramsim

def acceptRead (inputs : TickInputs) (dramsim : MmDramsim2 δ) :
    Except HarnessError (MmDramsim2 δ) := do
  let req ← MmReq.accept inputs
  return { dramsim with rreqQueue := dramsim.rreqQueue ++ [req] }

def acceptAddress (inputs : TickInputs) (dramsim : MmDramsim2 δ) :
    Except HarnessError (MmDramsim2 δ) := do
  let store ← StoreState.accept inputs
  return { dramsim with store := store }

/-- Hand a write burst to the simulator. -/
def issueWrite (dram : Dram δ) (dramsim : MmDramsim2 δ) (store : StoreState) : MmDramsim2 δ :=
  { dramsim with
    mem := dram.addTransaction dramsim.mem ⟨true, store.addr⟩
    wreq := push dramsim.wreq store.addr store.id }

/-- Write one word, and hand the burst to the simulator after its last. -/
def acceptWord (dram : Dram δ) (inputs : TickInputs) (dramsim : MmDramsim2 δ) :
    Except HarnessError (MmDramsim2 δ) := do
  let result ← storeWord dramsim.mm dramsim.store inputs
  return result.closed.foldl (issueWrite dram)
    { dramsim with mm := result.mm, store := result.store }

/-- The answers taken leave the queues. -/
def takeAnswers (bFire rFire : Bool) (dramsim : MmDramsim2 δ) : MmDramsim2 δ :=
  { dramsim with
    bresp := if bFire then dramsim.bresp.drop 1 else dramsim.bresp
    rresp := if rFire then dramsim.rresp.drop 1 else dramsim.rresp }

/-- `tick` up to the update of the simulator. -/
def serve (dram : Dram δ) (dramsim : MmDramsim2 δ) (inputs : TickInputs) :
    Except HarnessError (MmDramsim2 δ) := do
  let arFire := dramsim.arFire dram inputs
  let awFire := dramsim.awFire dram inputs
  let wFire := dramsim.wFire inputs
  let rFire := dramsim.rFire inputs
  let bFire := dramsim.bFire inputs
  let dramsim ← dramsim.issueRead dram
  let dramsim ← onFire arFire (acceptRead inputs) dramsim
  let dramsim ← onFire awFire (acceptAddress inputs) dramsim
  let dramsim ← onFire wFire (acceptWord dram inputs) dramsim
  return dramsim.takeAnswers bFire rFire

/-- The update of the simulator, with its callbacks. -/
def update (dram : Dram δ) (dramsim : MmDramsim2 δ) : Except HarnessError (MmDramsim2 δ) :=
  let (mem, completed) := dram.update dramsim.mem
  completed.foldlM complete { dramsim with mem := mem }

/-- The end of `tick`: a reset drops the answers. -/
def finish (reset : Bool) (dramsim : MmDramsim2 δ) : MmDramsim2 δ :=
  if reset then { dramsim with bresp := [], rresp := [], cycle := 0 }
  else { dramsim with cycle := (dramsim.cycle + 1) % uint64Bound }

def tick (dram : Dram δ) (dramsim : MmDramsim2 δ) (inputs : TickInputs) :
    Except HarnessError (MmDramsim2 δ) := do
  let dramsim ← dramsim.serve dram inputs
  let dramsim ← dramsim.update dram
  return dramsim.finish inputs.reset

end MmDramsim2

end FaultInjection
