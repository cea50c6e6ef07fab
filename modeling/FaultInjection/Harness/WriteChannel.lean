import Mathlib.Logic.Function.Iterate
import FaultInjection.Harness.Port

/-!
# The write channel of the port

Both memories take write bursts in the same way: an address opens a burst, the words come
one at a time and are written at once, and the last word closes the burst.  The log of the
bursts and their words says what the channel has done.
-/

namespace FaultInjection

/-- The write burst in progress; `count` words of it are still to come. -/
structure StoreState where
  inflight : Bool
  addr : Nat
  id : Nat
  size : Nat
  count : Nat
  deriving DecidableEq, Repr

namespace StoreState

/-- The branch of `tick` for a write address; `1 << aw_size` is an `int`. -/
def accept (inputs : TickInputs) : Except HarnessError StoreState :=
  if inputs.awSize < 31 then
    .ok {
      inflight := true
      addr := inputs.awAddr
      id := inputs.awId
      size := 1 <<< inputs.awSize
      count := (inputs.awLen + 1) % uint64Bound }
  else .error .overflow

/-- `store_addr += store_size; store_count--` -/
def advance (store : StoreState) : StoreState :=
  { store with
    addr := (store.addr + store.size) % uint64Bound
    count := (store.count + (uint64Bound - 1)) % uint64Bound }

theorem advance_iterate (store : StoreState) (words : Nat) :
    (advance^[words] store).inflight = store.inflight ∧
      (advance^[words] store).id = store.id ∧ (advance^[words] store).size = store.size := by
  induction words with
  | zero => exact ⟨rfl, rfl, rfl⟩
  | succ words ih =>
      rw [Function.iterate_succ_apply']
      exact ih

theorem advance_count {store : StoreState} {words : Nat} (hcount : store.count = words)
    (hpos : 0 < words) (hle : words ≤ 256) : store.advance.count = words - 1 := by
  have hbound : 256 < uint64Bound := by decide
  have hsum : words + (uint64Bound - 1) = words - 1 + uint64Bound := by omega
  show (store.count + (uint64Bound - 1)) % uint64Bound = words - 1
  rw [hcount, hsum, Nat.add_mod_right]
  exact Nat.mod_eq_of_lt (by omega)

end StoreState

/-- Memory and write burst after a cycle, and the burst that has got its last word. -/
structure WriteResult where
  mm : Mm
  store : StoreState
  closed : List StoreState

/-- The branch of `tick` for a word, up to the answer to a burst that it closes. -/
def storeWord (mm : Mm) (store : StoreState) (inputs : TickInputs) :
    Except HarnessError WriteResult := do
  let mm ← mm.write store.addr inputs.wData inputs.wStrb store.size
  let store := store.advance
  if store.count = 0 then
    let store := { store with inflight := false }
    if inputs.wLast then return ⟨mm, store, [store]⟩ else .error .assertion
  else return ⟨mm, store, []⟩

/-- What the write channel does in a cycle. -/
def writeChannel (mm : Mm) (store : StoreState) (inputs : TickInputs) (awFire wFire : Bool) :
    Except HarnessError WriteResult :=
  if awFire then (StoreState.accept inputs).map fun store => ⟨mm, store, []⟩
  else if wFire then storeWord mm store inputs
  else .ok ⟨mm, store, []⟩

/-- The burst that a word closes. -/
def closing (store : StoreState) (wFire : Bool) : List StoreState :=
  if wFire ∧ store.advance.count = 0 then [{ store.advance with inflight := false }] else []

theorem closed_of_storeWord {mm : Mm} {store : StoreState} {inputs : TickInputs}
    {result : WriteResult} (hrun : storeWord mm store inputs = .ok result) :
    result.closed = closing store true := by
  rw [storeWord, bind_eq_ok] at hrun
  obtain ⟨mm', -, hrun⟩ := hrun
  rw [closing]
  by_cases hcount : store.advance.count = 0
  · rw [if_pos hcount] at hrun
    rw [if_pos ⟨rfl, hcount⟩]
    by_cases hlast : inputs.wLast = true
    · rw [if_pos hlast] at hrun
      cases hrun
      rfl
    · rw [if_neg hlast] at hrun
      cases hrun
  · rw [if_neg hcount] at hrun
    cases hrun
    rw [if_neg (fun hboth => hcount hboth.2)]

theorem id_of_storeWord {mm : Mm} {store : StoreState} {inputs : TickInputs}
    {result : WriteResult} (hrun : storeWord mm store inputs = .ok result) :
    result.store.id = store.id := by
  rw [storeWord, bind_eq_ok] at hrun
  obtain ⟨mm', -, hrun⟩ := hrun
  by_cases hcount : store.advance.count = 0
  · rw [if_pos hcount] at hrun
    by_cases hlast : inputs.wLast = true
    · rw [if_pos hlast] at hrun
      cases hrun
      rfl
    · rw [if_neg hlast] at hrun
      cases hrun
  · rw [if_neg hcount] at hrun
    cases hrun
    rfl

theorem closed_of_writeChannel {mm : Mm} {store : StoreState} {inputs : TickInputs}
    {result : WriteResult} {awFire wFire : Bool} (haddress : awFire = true → wFire = false)
    (hrun : writeChannel mm store inputs awFire wFire = .ok result) :
    result.closed = closing store wFire := by
  have hquiet : closing store false = [] := if_neg fun hboth => Bool.false_ne_true hboth.1
  rw [writeChannel] at hrun
  split at hrun
  · rename_i hfire
    obtain ⟨store', -, rfl⟩ := map_eq_ok.mp hrun
    rw [haddress hfire, hquiet]
  · split at hrun
    · rename_i hfire
      rw [hfire, closed_of_storeWord hrun]
    · rename_i hfire
      cases hrun
      rw [Bool.eq_false_iff.mpr hfire, hquiet]

/-! ## Bursts -/

/-- One word of a write burst, as it comes. -/
structure WriteWord where
  strb : Nat
  data : Nat → UInt8
  last : Bool

/-- The word on the write channel. -/
def WriteWord.ofInputs (inputs : TickInputs) : WriteWord :=
  ⟨inputs.wStrb, inputs.wData, inputs.wLast⟩

/-- A write burst and the words of it that have come. -/
structure WriteBurst where
  id : Nat
  addr : Nat
  size : Nat
  len : Nat
  words : List WriteWord

namespace WriteBurst

/-- The burst of an address, without words. -/
def ofInputs (inputs : TickInputs) : WriteBurst where
  id := inputs.awId
  addr := inputs.awAddr
  size := 1 <<< inputs.awSize
  len := inputs.awLen % uint64Bound
  words := []

/-- The address part of a burst. -/
def heading (burst : WriteBurst) : WriteBurst := { burst with words := [] }

/-- A burst of length `len` has one word more. -/
def Complete (burst : WriteBurst) : Prop := burst.words.length = burst.len + 1

instance (burst : WriteBurst) : Decidable burst.Complete :=
  inferInstanceAs (Decidable (_ = _))

/-- The state of the channel in front of the first word. -/
def opening (burst : WriteBurst) : StoreState where
  inflight := true
  addr := burst.addr
  id := burst.id
  size := burst.size
  count := (burst.len + 1) % uint64Bound

/-- The state behind the words that have come. -/
def progress (burst : WriteBurst) : StoreState :=
  StoreState.advance^[burst.words.length] burst.opening

def addWord (burst : WriteBurst) (word : WriteWord) : WriteBurst :=
  { burst with words := burst.words ++ [word] }

@[simp]
theorem length_addWord (burst : WriteBurst) (word : WriteWord) :
    (burst.addWord word).words.length = burst.words.length + 1 := by
  rw [addWord, List.length_append, List.length_singleton]

theorem progress_ofInputs (inputs : TickInputs) {store : StoreState}
    (haccept : StoreState.accept inputs = .ok store) :
    store = (ofInputs inputs).progress := by
  rw [StoreState.accept] at haccept
  split at haccept
  · cases haccept
    rw [progress, ofInputs, opening, Nat.mod_add_mod]
    rfl
  · cases haccept

theorem progress_addWord (burst : WriteBurst) (word : WriteWord) :
    (burst.addWord word).progress = burst.progress.advance := by
  rw [progress, progress, length_addWord, Function.iterate_succ_apply']
  rfl

theorem progress_id (burst : WriteBurst) : burst.progress.id = burst.id :=
  (burst.opening.advance_iterate burst.words.length).2.1

theorem progress_inflight (burst : WriteBurst) : burst.progress.inflight = true :=
  (burst.opening.advance_iterate burst.words.length).1

theorem progress_count {burst : WriteBurst} (hwords : burst.words.length ≤ burst.len + 1) :
    burst.progress.count = (burst.len + 1 - burst.words.length) % uint64Bound := by
  have hcount : ∀ words, words ≤ burst.len + 1 →
      (StoreState.advance^[words] burst.opening).count =
        (burst.len + 1 - words) % uint64Bound := by
    intro words hle
    induction words with
    | zero => rfl
    | succ words ih =>
        rw [Function.iterate_succ_apply', StoreState.advance]
        show ((StoreState.advance^[words] burst.opening).count + (uint64Bound - 1)) %
          uint64Bound = _
        rw [ih (by omega), Nat.mod_add_mod]
        have hsum : burst.len + 1 - words + (uint64Bound - 1) =
            burst.len + 1 - (words + 1) + uint64Bound := by
          have hpos : 0 < uint64Bound := by decide
          omega
        rw [hsum, Nat.add_mod_right]
  exact hcount _ hwords

/-- After one more word the count is zero exactly when the burst is complete. -/
theorem advance_count_iff {burst : WriteBurst} (hlen : burst.len < uint64Bound)
    (hwords : burst.words.length ≤ burst.len) (word : WriteWord) :
    burst.progress.advance.count = 0 ↔ (burst.addWord word).Complete := by
  have hle : (burst.addWord word).words.length ≤ (burst.addWord word).len + 1 := by
    rw [length_addWord]
    exact Nat.succ_le_succ hwords
  rw [← progress_addWord burst word, progress_count hle, Complete, length_addWord]
  show (burst.len + 1 - (burst.words.length + 1)) % uint64Bound = 0 ↔ _ = burst.len + 1
  have hlt : burst.len + 1 - (burst.words.length + 1) < uint64Bound := by omega
  rw [Nat.mod_eq_of_lt hlt]
  omega

end WriteBurst

namespace Mm

/-- Store words one behind the other. -/
def storeWords (mm : Mm) (store : StoreState) : List WriteWord → Mm
  | [] => mm
  | word :: words =>
      (mm.stored store.addr word.data word.strb store.size).storeWords store.advance words

def storeBurst (mm : Mm) (burst : WriteBurst) : Mm := mm.storeWords burst.opening burst.words

/-- The memory after a row of bursts. -/
def replay (mm : Mm) (log : List WriteBurst) : Mm := log.foldl storeBurst mm

theorem storeWords_append (mm : Mm) (store : StoreState) (words more : List WriteWord) :
    mm.storeWords store (words ++ more) =
      (mm.storeWords store words).storeWords (StoreState.advance^[words.length] store) more := by
  induction words generalizing mm store with
  | nil => rfl
  | cons word words ih =>
      rw [List.cons_append, storeWords, ih, storeWords, List.length_cons,
        Function.iterate_succ_apply]

theorem storeBurst_addWord (mm : Mm) (burst : WriteBurst) (word : WriteWord) :
    mm.storeBurst (burst.addWord word) =
      (mm.storeBurst burst).stored burst.progress.addr word.data word.strb burst.progress.size :=
  mm.storeWords_append burst.opening burst.words [word]

theorem replay_concat (mm : Mm) (log : List WriteBurst) (burst : WriteBurst) :
    mm.replay (log ++ [burst]) = (mm.replay log).storeBurst burst := by
  rw [replay, List.foldl_append]
  rfl

end Mm

/-! ## The log -/

/-- The bursts in a log are complete, but for the last one when a burst is in flight. -/
def LogState (log : List WriteBurst) (store : StoreState) : Prop :=
  (store.inflight = false ∧ ∀ burst ∈ log, burst.Complete) ∨
    ∃ earlier burst, log = earlier ++ [burst] ∧ (∀ other ∈ earlier, other.Complete) ∧
      burst.words.length ≤ burst.len ∧ store = burst.progress

namespace LogState

variable {log : List WriteBurst} {store : StoreState}

theorem complete (state : LogState log store) (hidle : store.inflight = false) :
    ∀ burst ∈ log, burst.Complete := by
  rcases state with ⟨-, hall⟩ | ⟨earlier, burst, rfl, -, -, rfl⟩
  · exact hall
  · rw [burst.progress_inflight] at hidle
    cases hidle

theorem exists_open (state : LogState log store) (hinflight : store.inflight = true) :
    ∃ earlier burst, log = earlier ++ [burst] ∧ (∀ other ∈ earlier, other.Complete) ∧
      burst.words.length ≤ burst.len ∧ store = burst.progress := by
  rcases state with ⟨hidle, -⟩ | hopen
  · rw [hidle] at hinflight
    cases hinflight
  · exact hopen

theorem address (state : LogState log store) (hidle : store.inflight = false)
    (inputs : TickInputs) :
    LogState (log ++ [.ofInputs inputs]) (WriteBurst.ofInputs inputs).progress :=
  Or.inr ⟨log, _, rfl, state.complete hidle, Nat.zero_le _, rfl⟩

theorem lastWord {earlier : List WriteBurst} {burst : WriteBurst} {word : WriteWord}
    (hearlier : ∀ other ∈ earlier, other.Complete) (hcomplete : (burst.addWord word).Complete)
    (hidle : store.inflight = false) : LogState (earlier ++ [burst.addWord word]) store := by
  refine Or.inl ⟨hidle, fun other hother => ?_⟩
  rcases List.mem_append.mp hother with hother | hother
  · exact hearlier other hother
  · rw [List.mem_singleton.mp hother]
    exact hcomplete

theorem word {earlier : List WriteBurst} {burst : WriteBurst} {word : WriteWord}
    (hearlier : ∀ other ∈ earlier, other.Complete)
    (hwords : burst.words.length ≤ burst.len) (hopen : ¬ (burst.addWord word).Complete) :
    LogState (earlier ++ [burst.addWord word]) burst.progress.advance := by
  have hne : burst.words.length + 1 ≠ burst.len + 1 := burst.length_addWord word ▸ hopen
  refine Or.inr ⟨earlier, _, rfl, hearlier, ?_, (burst.progress_addWord word).symm⟩
  rw [burst.length_addWord]
  show burst.words.length + 1 ≤ burst.len
  omega

end LogState

/-- The last word of a complete burst was marked as such. -/
def WriteBurst.MarksLast (burst : WriteBurst) : Prop :=
  burst.Complete → ∃ word ∈ burst.words.getLast?, word.last = true

/-- The bursts of a log that have all of their words. -/
def closedIds (log : List WriteBurst) : List Nat :=
  (log.filter WriteBurst.Complete).map WriteBurst.id

theorem closedIds_concat (log : List WriteBurst) (burst : WriteBurst) :
    closedIds (log ++ [burst]) = closedIds log ++ if burst.Complete then [burst.id] else [] := by
  rw [closedIds, List.filter_append, List.map_append, ← closedIds]
  by_cases hcomplete : burst.Complete
  · rw [if_pos hcomplete, List.filter_cons, decide_eq_true hcomplete]
    rfl
  · rw [if_neg hcomplete, List.filter_cons, decide_eq_false hcomplete]
    rfl

/-- What a log says about addresses, words and closed bursts that the channel has seen. -/
structure Logged (first : Mm) (addresses : List WriteBurst) (words : List WriteWord)
    (closed : List Nat) (mm : Mm) (store : StoreState) (log : List WriteBurst) : Prop where
  /-- The bursts are those whose addresses came, in order. -/
  addresses : log.map WriteBurst.heading = addresses
  /-- The words have gone to them one after the other. -/
  words : log.flatMap WriteBurst.words = words
  /-- The bursts that have all of their words have been closed, in order, each once. -/
  closed : closedIds log = closed
  state : LogState log store
  /-- The memory is what the words make of it. -/
  mm : mm = first.replay log
  marks : ∀ burst ∈ log, burst.len < uint64Bound ∧ burst.MarksLast

theorem Logged.nil {mm : Mm} {store : StoreState} (hidle : store.inflight = false) :
    Logged mm [] [] [] mm store [] where
  addresses := rfl
  words := rfl
  closed := rfl
  state := Or.inl ⟨hidle, fun _ hmem => by cases hmem⟩
  mm := rfl
  marks _ hmem := by cases hmem

section Step

variable {first mm : Mm} {addresses : List WriteBurst} {words : List WriteWord}
  {closed : List Nat} {store : StoreState} {log : List WriteBurst} {inputs : TickInputs}
  {result : WriteResult}

theorem Logged.word (logged : Logged first addresses words closed mm store log)
    (hinflight : store.inflight = true) (hrun : storeWord mm store inputs = .ok result) :
    ∃ log', Logged first addresses (words ++ [.ofInputs inputs])
      (closed ++ result.closed.map StoreState.id) result.mm result.store log' := by
  obtain ⟨earlier, burst, rfl, hearlier, hwords, rfl⟩ := logged.state.exists_open hinflight
  have hlen : burst.len < uint64Bound :=
    (logged.marks burst (List.mem_append_right _ (.head _))).1
  have hcount := WriteBurst.advance_count_iff hlen hwords (.ofInputs inputs)
  have hopen : ¬ burst.Complete := by
    rw [WriteBurst.Complete]
    omega
  rw [storeWord, bind_eq_ok] at hrun
  obtain ⟨mm', hwrite, hrun⟩ := hrun
  obtain ⟨-, hstored⟩ := Mm.write_eq_ok.mp hwrite
  have haddresses : (earlier ++ [burst.addWord (.ofInputs inputs)]).map WriteBurst.heading =
      addresses := by
    rw [← logged.addresses, List.map_append, List.map_append]
    rfl
  have hflat : (earlier ++ [burst.addWord (.ofInputs inputs)]).flatMap WriteBurst.words =
      words ++ [.ofInputs inputs] := by
    rw [← logged.words, List.flatMap_append, List.flatMap_append, List.flatMap_singleton,
      List.flatMap_singleton, WriteBurst.addWord, List.append_assoc]
  have hmm : mm' = first.replay (earlier ++ [burst.addWord (.ofInputs inputs)]) := by
    rw [hstored, logged.mm, Mm.replay_concat, Mm.replay_concat, Mm.storeBurst_addWord]
    rfl
  have hclosed := logged.closed
  rw [closedIds_concat, if_neg hopen, List.append_nil] at hclosed
  have hlast : ∀ burst' ∈ earlier ++ [burst.addWord (.ofInputs inputs)],
      (burst.progress.advance.count = 0 → inputs.wLast = true) →
        burst'.len < uint64Bound ∧ burst'.MarksLast := by
    intro burst' hburst' hmarked
    rcases List.mem_append.mp hburst' with hburst' | hburst'
    · exact logged.marks burst' (List.mem_append_left _ hburst')
    · rw [List.mem_singleton.mp hburst']
      refine ⟨hlen, fun hcomplete => ⟨.ofInputs inputs, ?_, hmarked (hcount.mpr hcomplete)⟩⟩
      rw [WriteBurst.addWord, List.getLast?_append, List.getLast?_singleton]
      rfl
  by_cases hzero : burst.progress.advance.count = 0
  · rw [if_pos hzero] at hrun
    by_cases hmarked : inputs.wLast = true
    · rw [if_pos hmarked] at hrun
      cases hrun
      refine ⟨_, haddresses, hflat, ?_, .lastWord hearlier (hcount.mp hzero) rfl, hmm,
        fun burst' hburst' => hlast burst' hburst' fun _ => hmarked⟩
      rw [closedIds_concat, if_pos (hcount.mp hzero), hclosed]
      exact congrArg (closed ++ [·]) burst.progress_id.symm
    · rw [if_neg hmarked] at hrun
      cases hrun
  · rw [if_neg hzero] at hrun
    cases hrun
    have hincomplete : ¬ (burst.addWord (.ofInputs inputs)).Complete := fun hcomplete =>
      hzero (hcount.mpr hcomplete)
    refine ⟨_, haddresses, hflat, ?_, .word hearlier hwords hincomplete, hmm,
      fun burst' hburst' => hlast burst' hburst' fun hcount => absurd hcount hzero⟩
    rw [closedIds_concat, if_neg hincomplete, hclosed]
    rfl

theorem Logged.step (logged : Logged first addresses words closed mm store log)
    {awFire wFire : Bool} (haddress : awFire = true → store.inflight = false)
    (hword : wFire = true → store.inflight = true)
    (hrun : writeChannel mm store inputs awFire wFire = .ok result) :
    ∃ log', Logged first (addresses ++ if awFire then [.ofInputs inputs] else [])
      (words ++ if wFire then [.ofInputs inputs] else [])
      (closed ++ result.closed.map StoreState.id) result.mm result.store log' := by
  rw [writeChannel] at hrun
  cases awFire with
  | true =>
      have hnone : wFire = false := Bool.eq_false_iff.mpr fun hfire => by
        have hinflight := hword hfire
        rw [haddress rfl] at hinflight
        cases hinflight
      rw [if_pos rfl, map_eq_ok] at hrun
      obtain ⟨store', haccept, rfl⟩ := hrun
      have hprogress := WriteBurst.progress_ofInputs inputs haccept
      have hopen : ¬ (WriteBurst.ofInputs inputs).Complete := Nat.succ_ne_zero _ ∘ Eq.symm
      rw [if_pos rfl, hnone, if_neg Bool.false_ne_true]
      refine ⟨log ++ [.ofInputs inputs], ?_, ?_, ?_, ?_, ?_, ?_⟩
      · rw [List.map_append, logged.addresses]
        rfl
      · rw [List.flatMap_append, logged.words]
        rfl
      · rw [closedIds_concat, if_neg hopen, logged.closed]
        rfl
      · show LogState _ store'
        rw [hprogress]
        exact logged.state.address (haddress rfl) inputs
      · show mm = _
        rw [logged.mm, Mm.replay_concat]
        rfl
      · intro burst hburst
        rcases List.mem_append.mp hburst with hburst | hburst
        · exact logged.marks burst hburst
        · rw [List.mem_singleton.mp hburst]
          refine ⟨Nat.mod_lt _ (by decide), fun hcomplete => absurd hcomplete hopen⟩
  | false =>
      rw [if_neg Bool.false_ne_true] at hrun
      rw [if_neg Bool.false_ne_true, List.append_nil]
      cases wFire with
      | true =>
          rw [if_pos rfl] at hrun
          rw [if_pos rfl]
          exact logged.word (hword rfl) hrun
      | false =>
          rw [if_neg Bool.false_ne_true] at hrun
          cases hrun
          rw [if_neg Bool.false_ne_true, List.append_nil]
          exact ⟨log, logged.addresses, logged.words,
            logged.closed.trans (List.append_nil _).symm, logged.state, logged.mm, logged.marks⟩

end Step

end FaultInjection
