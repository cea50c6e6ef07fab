import FaultInjection.Harness.WriteChannel

/-!
# The memory without delays

`mm_magic_t` answers the transfers of an AXI port from the backing memory.  A read burst is
answered as soon as its address comes; the words of a write burst are taken one at a time
and answered when the last of them has come.
-/

namespace FaultInjection

/-- The answer to a read burst; the index of the loop is an `int`. -/
def Mm.readBurst (mm : Mm) (inputs : TickInputs) : Except HarnessError (List MmRresp) :=
  if inputs.arLen + 1 < intBound ∧ inputs.arLen * mm.wordSize < intBound then
    mm.readWords (inputs.arAddr / mm.wordSize * mm.wordSize) inputs.arId inputs.arLen
      (inputs.arLen + 1) 0
  else .error .overflow

structure MmMagic where
  mm : Mm
  store : StoreState
  bresp : List Nat
  rresp : List MmRresp
  cycle : Nat

namespace MmMagic

def arReady (_ : MmMagic) : Bool := true
def awReady (magic : MmMagic) : Bool := !magic.store.inflight
def wReady (magic : MmMagic) : Bool := magic.store.inflight
def bValid (magic : MmMagic) : Bool := !magic.bresp.isEmpty
def bId (magic : MmMagic) : Nat := frontId magic.bresp
def rValid (magic : MmMagic) : Bool := !magic.rresp.isEmpty
def rId (magic : MmMagic) : Nat := (frontWord magic.mm.wordSize magic.rresp).id
def rData (magic : MmMagic) : List UInt8 := (frontWord magic.mm.wordSize magic.rresp).data
def rLast (magic : MmMagic) : Bool := (frontWord magic.mm.wordSize magic.rresp).last

def arFire (magic : MmMagic) (inputs : TickInputs) : Bool :=
  !inputs.reset && inputs.arValid && magic.arReady

def awFire (magic : MmMagic) (inputs : TickInputs) : Bool :=
  !inputs.reset && inputs.awValid && magic.awReady

def wFire (magic : MmMagic) (inputs : TickInputs) : Bool :=
  !inputs.reset && inputs.wValid && magic.wReady

def rFire (magic : MmMagic) (inputs : TickInputs) : Bool :=
  !inputs.reset && magic.rValid && inputs.rReady

def bFire (magic : MmMagic) (inputs : TickInputs) : Bool :=
  !inputs.reset && magic.bValid && inputs.bReady

/-- Put the words of a read burst into the queue. -/
def acceptRead (inputs : TickInputs) (magic : MmMagic) : Except HarnessError MmMagic := do
  let words ← magic.mm.readBurst inputs
  return { magic with rresp := magic.rresp ++ words }

def acceptAddress (inputs : TickInputs) (magic : MmMagic) : Except HarnessError MmMagic := do
  let store ← StoreState.accept inputs
  return { magic with store := store }

/-- Write one word, and answer the burst after its last. -/
def acceptWord (inputs : TickInputs) (magic : MmMagic) : Except HarnessError MmMagic := do
  let result ← storeWord magic.mm magic.store inputs
  return { magic with
    mm := result.mm
    store := result.store
    bresp := magic.bresp ++ result.closed.map StoreState.id }

/-- The end of `tick`: the answers taken leave the queues, and a reset empties them. -/
def finish (magic : MmMagic) (reset bFire rFire : Bool) : MmMagic :=
  let bresp := if bFire then magic.bresp.drop 1 else magic.bresp
  let rresp := if rFire then magic.rresp.drop 1 else magic.rresp
  let cycle := (magic.cycle + 1) % uint64Bound
  if reset then { magic with bresp := [], rresp := [], cycle := 0 }
  else { magic with bresp := bresp, rresp := rresp, cycle := cycle }

def tick (magic : MmMagic) (inputs : TickInputs) : Except HarnessError MmMagic := do
  let arFire := magic.arFire inputs
  let awFire := magic.awFire inputs
  let wFire := magic.wFire inputs
  let rFire := magic.rFire inputs
  let bFire := magic.bFire inputs
  let magic ← onFire arFire (acceptRead inputs) magic
  let magic ← onFire awFire (acceptAddress inputs) magic
  let magic ← onFire wFire (acceptWord inputs) magic
  return magic.finish inputs.reset bFire rFire

variable {magic : MmMagic} {inputs : TickInputs}

/-- The words that enter the read queue in a cycle. -/
def readChannel (magic : MmMagic) (inputs : TickInputs) : Except HarnessError (List MmRresp) :=
  if magic.arFire inputs then magic.mm.readBurst inputs else .ok []

/-- Memory and write burst after a cycle, and the burst that is answered. -/
def writeChannel (magic : MmMagic) (inputs : TickInputs) : Except HarnessError WriteResult :=
  FaultInjection.writeChannel magic.mm magic.store inputs (magic.awFire inputs)
    (magic.wFire inputs)

/-- The state after a cycle in which words were read and a burst was answered. -/
def after (magic : MmMagic) (inputs : TickInputs) (words : List MmRresp)
    (result : WriteResult) : MmMagic where
  mm := result.mm
  store := result.store
  bresp := staying inputs.reset (magic.bFire inputs) magic.bresp
    (result.closed.map StoreState.id)
  rresp := staying inputs.reset (magic.rFire inputs) magic.rresp words
  cycle := if inputs.reset then 0 else (magic.cycle + 1) % uint64Bound

theorem inflight_of_awFire (hfire : magic.awFire inputs = true) :
    magic.store.inflight = false := by
  rw [awFire, awReady, Bool.and_eq_true, Bool.not_eq_true'] at hfire
  exact hfire.2

theorem inflight_of_wFire (hfire : magic.wFire inputs = true) : magic.store.inflight = true := by
  rw [wFire, wReady, Bool.and_eq_true] at hfire
  exact hfire.2

/-- An address and a word of a write burst never come in one cycle. -/
theorem wFire_of_awFire (hfire : magic.awFire inputs = true) : magic.wFire inputs = false := by
  refine Bool.eq_false_iff.mpr fun hword => ?_
  have hinflight := inflight_of_wFire hword
  rw [inflight_of_awFire hfire] at hinflight
  cases hinflight

theorem bresp_of_bFire (hfire : magic.bFire inputs = true) : magic.bresp.isEmpty = false := by
  rw [bFire, bValid, Bool.and_eq_true, Bool.and_eq_true] at hfire
  exact Bool.not_eq_true' _ ▸ hfire.1.2

theorem rresp_of_rFire (hfire : magic.rFire inputs = true) : magic.rresp.isEmpty = false := by
  rw [rFire, rValid, Bool.and_eq_true, Bool.and_eq_true] at hfire
  exact Bool.not_eq_true' _ ▸ hfire.1.2

theorem finish_eq (magic : MmMagic) (inputs : TickInputs) (words : List MmRresp)
    (result : WriteResult) :
    MmMagic.finish { magic with
        mm := result.mm
        store := result.store
        rresp := magic.rresp ++ words
        bresp := magic.bresp ++ result.closed.map StoreState.id }
      inputs.reset (magic.bFire inputs) (magic.rFire inputs) = magic.after inputs words result := by
  rw [finish, after, staying, staying]
  cases hreset : inputs.reset with
  | true => rfl
  | false =>
      simp only [if_neg Bool.false_ne_true, MmMagic.mk.injEq, true_and, and_true]
      constructor
      · by_cases hfire : magic.bFire inputs = true
        · rw [if_pos hfire, if_pos hfire, drop_append_of_isEmpty (bresp_of_bFire hfire)]
        · rw [if_neg hfire, if_neg hfire]
      · by_cases hfire : magic.rFire inputs = true
        · rw [if_pos hfire, if_pos hfire, drop_append_of_isEmpty (rresp_of_rFire hfire)]
        · rw [if_neg hfire, if_neg hfire]

theorem acceptChannel_eq (magic before : MmMagic) (inputs : TickInputs)
    (hmm : before.mm = magic.mm) (hstore : before.store = magic.store) :
    (onFire (magic.awFire inputs) (acceptAddress inputs) before >>=
        onFire (magic.wFire inputs) (acceptWord inputs)) =
      (magic.writeChannel inputs).map fun result =>
        { before with
          mm := result.mm
          store := result.store
          bresp := before.bresp ++ result.closed.map StoreState.id } := by
  rw [writeChannel, FaultInjection.writeChannel, ← hmm, ← hstore, onFire]
  by_cases haddress : magic.awFire inputs = true
  · rw [if_pos haddress, if_pos haddress, wFire_of_awFire haddress, acceptAddress]
    cases StoreState.accept inputs with
    | error exception => rfl
    | ok store =>
        show Except.ok { before with store := store } =
          Except.ok { before with store := store, bresp := before.bresp ++ [] }
        rw [List.append_nil]
  · rw [if_neg haddress, if_neg haddress, ok_bind, onFire]
    by_cases hword : magic.wFire inputs = true
    · rw [if_pos hword, if_pos hword, acceptWord]
      cases storeWord before.mm before.store inputs <;> rfl
    · rw [if_neg hword, if_neg hword]
      show Except.ok before = Except.ok { before with bresp := before.bresp ++ [] }
      rw [List.append_nil]

theorem tick_eq (magic : MmMagic) (inputs : TickInputs) :
    magic.tick inputs = magic.readChannel inputs >>= fun words =>
      (magic.writeChannel inputs).map (magic.after inputs words) := by
  have hread : onFire (magic.arFire inputs) (acceptRead inputs) magic =
      (magic.readChannel inputs).map fun words =>
        { magic with rresp := magic.rresp ++ words } := by
    rw [readChannel, onFire]
    by_cases hfire : magic.arFire inputs = true
    · rw [if_pos hfire, if_pos hfire, acceptRead]
      cases magic.mm.readBurst inputs <;> rfl
    · rw [if_neg hfire, if_neg hfire, Except.map, List.append_nil]
  rw [tick, hread, map_bind]
  congr 1
  funext words
  have hwrite := acceptChannel_eq magic { magic with rresp := magic.rresp ++ words } inputs rfl rfl
  rw [← bind_assoc, hwrite, map_bind]
  cases magic.writeChannel inputs with
  | error exception => rfl
  | ok result => exact congrArg Except.ok (magic.finish_eq inputs words result)

theorem tick_eq_ok {after' : MmMagic} (hrun : magic.tick inputs = .ok after') :
    ∃ words result, magic.readChannel inputs = .ok words ∧
      magic.writeChannel inputs = .ok result ∧ after' = magic.after inputs words result := by
  rw [tick_eq, bind_eq_ok] at hrun
  obtain ⟨words, hwords, hrun⟩ := hrun
  obtain ⟨result, hresult, rfl⟩ := map_eq_ok.mp hrun
  exact ⟨words, result, hwords, hresult, rfl⟩

end MmMagic

end FaultInjection
