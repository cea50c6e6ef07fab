import FaultInjection.Harness.MmMagic
import FaultInjection.Machine.Run

/-!
# Runs of the memory without delays

Every read burst is answered by its words, in the order of the bursts and without a gap,
as the memory was when the address came.  A write burst is answered when it has all of its
words.
-/

namespace FaultInjection

theorem Mm.burst_of_readBurst {mm : Mm} {inputs : TickInputs} {answer : List MmRresp}
    (hrun : mm.readBurst inputs = .ok answer) :
    answer = mm.burst inputs.arAddr inputs.arId (inputs.arLen + 1) := by
  rw [readBurst] at hrun
  split at hrun
  · exact burst_of_readWords hrun (Or.inr rfl)
  · cases hrun

namespace MmMagic

open Machine

variable {magic after' : MmMagic} {inputs : TickInputs}

/-- The answer to the read address that comes in a cycle. -/
def readAnswer (entry : MmMagic × TickInputs) : List MmRresp :=
  if entry.1.arFire entry.2 then
    entry.1.mm.burst entry.2.arAddr entry.2.arId (entry.2.arLen + 1) else []

/-- The word that the port shows. -/
def shownWord (magic : MmMagic) : MmRresp := ⟨magic.rId, magic.rData, magic.rLast⟩

/-- The words that leave the read queue in a cycle: the one taken, or all in a reset. -/
def readGone (entry : MmMagic × TickInputs) : List MmRresp :=
  leaving entry.2.reset (entry.1.rFire entry.2) entry.1.shownWord entry.1.rresp (readAnswer entry)

/-- The burst whose address is accepted in a cycle. -/
def acceptedBurst (entry : MmMagic × TickInputs) : List WriteBurst :=
  if entry.1.awFire entry.2 then [.ofInputs entry.2] else []

/-- The word that is accepted in a cycle. -/
def acceptedWord (entry : MmMagic × TickInputs) : List WriteWord :=
  if entry.1.wFire entry.2 then [.ofInputs entry.2] else []

/-- The bursts answered in a cycle. -/
def writeAnswer (entry : MmMagic × TickInputs) : List Nat :=
  (closing entry.1.store (entry.1.wFire entry.2)).map StoreState.id

/-- The bursts whose answers leave the queue in a cycle. -/
def writeGone (entry : MmMagic × TickInputs) : List Nat :=
  leaving entry.2.reset (entry.1.bFire entry.2) entry.1.bId entry.1.bresp (writeAnswer entry)

theorem readChannel_eq_ok {words : List MmRresp} (hrun : magic.readChannel inputs = .ok words) :
    words = readAnswer (magic, inputs) := by
  rw [readChannel] at hrun
  rw [readAnswer]
  split at hrun
  · rename_i hfire
    rw [if_pos hfire]
    exact Mm.burst_of_readBurst hrun
  · rename_i hfire
    cases hrun
    rw [if_neg hfire]

theorem writeAnswer_eq {result : WriteResult} (hrun : magic.writeChannel inputs = .ok result) :
    result.closed.map StoreState.id = writeAnswer (magic, inputs) := by
  rw [writeAnswer, ← closed_of_writeChannel wFire_of_awFire hrun]

theorem tick_rresp (hrun : magic.tick inputs = .ok after') :
    magic.rresp ++ readAnswer (magic, inputs) = readGone (magic, inputs) ++ after'.rresp := by
  obtain ⟨words, result, hwords, -, rfl⟩ := tick_eq_ok hrun
  rw [readGone, ← readChannel_eq_ok hwords]
  exact leaving_append_staying
    (fun hfire => eq_cons_of_headD (rresp_of_rFire hfire) (by rfl)) words

theorem tick_bresp (hrun : magic.tick inputs = .ok after') :
    magic.bresp ++ writeAnswer (magic, inputs) = writeGone (magic, inputs) ++ after'.bresp := by
  obtain ⟨words, result, -, hresult, rfl⟩ := tick_eq_ok hrun
  rw [writeGone, ← writeAnswer_eq hresult]
  exact leaving_append_staying (fun hfire => eq_cons_of_headD (bresp_of_bFire hfire) rfl) _

/-- What the log of a run says. -/
def Serves (first : MmMagic) (steps : List (MmMagic × TickInputs)) (last : MmMagic)
    (log : List WriteBurst) : Prop :=
  Logged first.mm (steps.flatMap acceptedBurst) (steps.flatMap acceptedWord)
    (steps.flatMap writeAnswer) last.mm last.store log

variable {first last : MmMagic} {steps : List (MmMagic × TickInputs)}

theorem exists_log (run : Run tick first steps last) (hidle : first.store.inflight = false) :
    ∃ log, Serves first steps last log := by
  refine run.follows (fun done state => ∃ log, Serves first done state log)
    ⟨[], .nil hidle⟩ ?_
  rintro done magic inputs after' ⟨log, logged⟩ hstep
  obtain ⟨words, result, -, hresult, rfl⟩ := tick_eq_ok hstep
  obtain ⟨log', logged'⟩ := logged.step inflight_of_awFire inflight_of_wFire hresult
  refine ⟨log', ?_⟩
  rw [Serves, List.flatMap_append, List.flatMap_append, List.flatMap_append,
    List.flatMap_singleton, List.flatMap_singleton, List.flatMap_singleton,
    ← writeAnswer_eq hresult]
  exact logged'

/--
A run that begins without a burst in flight.  The words written have gone to the bursts whose
addresses came, in order, and a burst is answered, once and in order, when it has all of its
words.  What is read is what these words have made of the memory so far.  The answers taken
at the port, dropped by resets or still queued are those given, in order.
-/
theorem run_serves (run : Run tick first steps last) (hidle : first.store.inflight = false) :
    (∃ log, Serves first steps last log) ∧
      first.bresp ++ steps.flatMap writeAnswer = steps.flatMap writeGone ++ last.bresp ∧
      first.rresp ++ steps.flatMap readAnswer = steps.flatMap readGone ++ last.rresp ∧
      ∀ front entry back, steps = front ++ entry :: back → ∃ log, Serves first front entry.1 log ∧
        readAnswer entry = if entry.1.arFire entry.2 then
          (first.mm.replay log).burst entry.2.arAddr entry.2.arId (entry.2.arLen + 1) else [] := by
  refine ⟨exists_log run hidle,
    run.conserves MmMagic.bresp writeAnswer writeGone fun _ _ _ _ hstep => tick_bresp hstep,
    run.conserves MmMagic.rresp readAnswer readGone fun _ _ _ _ hstep => tick_rresp hstep, ?_⟩
  rintro front entry back rfl
  obtain ⟨magic, hfront, hback⟩ := run.exists_cut
  obtain ⟨log, logged⟩ := exists_log hfront hidle
  cases hback with
  | next hstep hrest => exact ⟨log, logged, by rw [readAnswer, logged.mm]⟩

/-- A memory of sixty-four bytes. -/
def smallMm : Mm where
  data _ := 0
  size := 64
  wordSize := 8
  lineSize := 8
  size_pos := by decide
  wordSize_pos := by decide
  lineSize_pos := by decide
  lineSize_lt := by decide
  lineSize_and := by decide
  lineSize_mod := by decide

def smallMagic : MmMagic := ⟨smallMm, ⟨false, 0, 0, 0, 0⟩, [], [], 0⟩

/-- A cycle in which the master is ready for answers and drives nothing. -/
def quietInputs : TickInputs where
  reset := false
  arValid := false
  arAddr := 0
  arId := 0
  arSize := 0
  arLen := 0
  awValid := false
  awAddr := 0
  awId := 0
  awSize := 0
  awLen := 0
  wValid := false
  wStrb := 0
  wData _ := 0
  wLast := false
  rReady := true
  bReady := true

/-- A burst of two words is written and read. -/
def twoWords : List TickInputs := [
  { quietInputs with awValid := true, awAddr := 8, awId := 5, awSize := 3, awLen := 1 },
  { quietInputs with wValid := true, wStrb := 255, wData := fun _ => 7 },
  { quietInputs with wValid := true, wStrb := 15, wData := fun _ => 9, wLast := true },
  { quietInputs with arValid := true, arAddr := 8, arId := 2, arSize := 3, arLen := 1 },
  quietInputs]

theorem run_serves_twoWords :
    ∃ steps last, Run tick smallMagic steps last ∧ steps.map Prod.snd = twoWords ∧
      smallMagic.store.inflight = false ∧ (∃ log, Serves smallMagic steps last log) ∧
        smallMagic.bresp ++ steps.flatMap writeAnswer = steps.flatMap writeGone ++ last.bresp ∧
        smallMagic.rresp ++ steps.flatMap readAnswer = steps.flatMap readGone ++ last.rresp ∧
        ∀ front entry back, steps = front ++ entry :: back →
          ∃ log, Serves smallMagic front entry.1 log ∧
            readAnswer entry = if entry.1.arFire entry.2 then
              (smallMagic.mm.replay log).burst entry.2.arAddr entry.2.arId (entry.2.arLen + 1)
            else [] := by
  have hreturns : (twoWords.foldlM tick smallMagic).isOk = true := by decide +kernel
  obtain ⟨last, hlast⟩ := isOk_iff.mp hreturns
  obtain ⟨steps, hinputs, run⟩ := Run.exists_of_foldlM hlast
  exact ⟨steps, last, run, hinputs, rfl, run_serves run rfl⟩

end MmMagic

end FaultInjection
