import FaultInjection.Memory.Dict
import FaultInjection.Python.Template

/-!
# Modules

A Verilog module as the injector keeps it: its type, its text, and the ports and
wires read from the text when the object is made.  Injecting a fault into a wire
rewrites the text with regular expressions.
-/

namespace FaultInjection

open Regex Regex.Pattern Text

/-- A declared wire or register with its bounds and its locator. -/
structure Wire where
  type : Text
  bounds : Option (Nat × Nat)
  name : Text
  chiselRef : Text
  deriving DecidableEq, Repr

structure Module where
  type : Text
  moduleText : Text
  io : Dict Text Text
  wires : List Wire
  deriving DecidableEq, Repr

variable [UnicodeData]

/-- `(\d+:\d)` -/
def boundsPattern (index : Nat) : Pattern Char :=
  .group index (chain [some isDigit, word ":", .one isDigit])

/-- `\s+(?:\[(\d+:\d)\])?\s*` -/
def gapPattern (index : Nat) : Pattern Char :=
  chain [some isSpace, maybe (chain [word "[", boundsPattern index, word "]"]),
    .many isSpace]

/--
`(wire|assign)(\s+(?:\[(\d+:\d)\])?\s*)sample_wire( = )`.  The substitution
leaves out the first group; its replacement refers to no group.
-/
def wirePattern (sampleWire : Text) : Pattern Char :=
  chain [.group 1 (.alt (word "wire") (word "assign")), .group 2 (gapPattern 3),
    word sampleWire, .group 4 (word " = ")]

/-- `sample_wire( (?:=|<=) )` -/
def assignmentPattern (sampleWire : Text) : Pattern Char :=
  chain [word sampleWire,
    .group 1 (chain [word " ", .alt (word "=") (word "<="), word " "])]

/-- `reg(\s+(?:\[(\d+:\d)\])?\s*)sample_wire;` -/
def registerPattern (sampleWire : Text) : Pattern Char :=
  chain [word "reg", .group 1 (gapPattern 2), word sampleWire, word ";"]

/--
`(wire|reg)\s+(?:\[(\d+:\d)\])?\s*(\w+)(?:;|(?: = .+?;))(?: \/\/ @\[(.*?)\])?`
under `re.S`
-/
def declarationPattern : Pattern Char :=
  chain [.group 1 (.alt (word "wire") (word "reg")), gapPattern 2,
    .group 3 (some isWord),
    .alt (word ";") (chain [word " = ", someFew isAny, word ";"]),
    maybe (chain [word " // @[", .group 4 (.few isAny), word "]"])]

/-- `((?:input)|(?:output))\s+(?:\[\d+:\d+\])?\s*(\w+)` -/
def ioPattern : Pattern Char :=
  chain [.group 1 (.alt (word "input") (word "output")), some isSpace,
    maybe (chain [word "[", some isDigit, word ":", some isDigit, word "]"]),
    .many isSpace, .group 2 (some isWord)]

/-- `Wire(type, bounds, name, chisel_ref)` -/
def Wire.make (type bounds name chiselRef : Text) : Wire :=
  if bounds = [] then ⟨type, none, name, chiselRef⟩
  else
    let parts := split ':' bounds
    ⟨type, (int (parts.getD 0 []), int (parts.getD 1 [])), name, chiselRef⟩

def extractWires (moduleText : Text) : List Wire :=
  (findall declarationPattern moduleText).map fun m =>
    Wire.make (m.group 1) (m.group 2) (m.group 3) (m.group 4)

def parseIo (moduleText : Text) : Dict Text Text :=
  (findall ioPattern moduleText).foldl (fun io m => io.set (m.group 2) (m.group 1)) []

/-- `Module(type, module_text)` -/
def Module.make (type moduleText : Text) : Except PythonError Module :=
  if moduleText = [] then .error (.systemExit 1)
  else .ok ⟨type, moduleText, parseIo moduleText, extractWires moduleText⟩

def Module.isValidWire (module : Module) (wireName : Text) : Bool :=
  module.wires.any fun wire => wire.name == wireName

/-- `check_wire_bit`; an unknown name yields `None`. -/
def Module.checkWireBit (module : Module) (wireName : Text) (bitNum : Nat) :
    Option Bool :=
  if module.isValidWire wireName then
    (module.wires.find? fun wire => wire.name == wireName).map fun wire =>
      match wire.bounds with
      | none => true
      | .some (high, low) => bitNum ≤ high && low ≤ bitNum
  else none

/-- `random.randrange(low, high)`, with the number drawn as an argument. -/
def randrange (low high draw : Nat) : Except PythonError Nat :=
  if low < high then .ok (low + draw % (high - low)) else .error .valueError

/-- `bus_index`: a number, or the text of a bit in a fault path. -/
inductive BusIndex where
  | number (index : Nat)
  | text (index : Text)
  deriving DecidableEq, Repr

def originalName (sampleWire : Text) : Text := sampleWire ++ "_original"

/-- The bits of a bus around and at the faulty one, as a concatenation lists them. -/
def busConcatination (sampleWire high low : Text) (faultyIndex : Nat) : Text :=
  (if faultyIndex < int high then
      originalName sampleWire ++ "[" ++ high ++ ", " ++ decimal faultyIndex ++ "]"
    else []) ++
  ", " ++ sampleWire ++ "_faultybit" ++
  (if faultyIndex > int low then
      ", " ++ originalName sampleWire ++ "[" ++ decimal (faultyIndex - 1) ++ ", " ++ low ++ "]"
    else [])

/-- The text put in front of every driving statement of a wire or port. -/
def wireSubstitution (sampleWire faultInputWire faultOutputWire : Text)
    (busIndex : Option BusIndex) (draw : Nat) (found : Match Char) :
    Except PythonError Text := do
  let keyword := found.group 1
  let gap := found.group 2
  let originalPlaceholder := "wire" ++ gap ++ originalName sampleWire ++ found.group 4
  let boundsString := strip gap
  if boundsString ≠ [] then
    let bounds := split ':' (inner boundsString)
    let high := bounds.getD 0 []
    let low := bounds.getD 1 []
    -- comparing a text with a number raises
    let faultyIndex ← match busIndex with
      | .some (.number index) => .ok index
      | .some (.text _) => .error .typeError
      | none => randrange (int low) (int high) draw
    let injectionCircuit := "wire " ++ sampleWire ++ "_faultybit = " ++ faultInputWire ++
      ";\n " ++ keyword ++ " " ++ sampleWire ++ " = \x7b" ++
      busConcatination sampleWire high low faultyIndex ++ "\x7d"
    return injectionCircuit ++ " // fault injection \n  assign " ++ faultOutputWire ++ " = " ++
      originalName sampleWire ++ "[" ++ decimal faultyIndex ++
      "]; // direct original value to output \n  " ++ originalPlaceholder
  else
    let injectionCircuit := keyword ++ " " ++ sampleWire ++ " = " ++ faultInputWire ++ ";"
    return injectionCircuit ++ " // fault injection \n  assign " ++ faultOutputWire ++ " = " ++
      originalName sampleWire ++ "; // direct original value to output \n  " ++
      originalPlaceholder

/-- The text put in the place of the declaration of a register. -/
def registerSubstitution (sampleWire faultInputWire faultOutputWire : Text)
    (draw : Nat) (found : Match Char) : Except PythonError Text := do
  let gap := found.group 1
  let originalPlaceholder := "reg" ++ gap ++ originalName sampleWire
  let boundsString := found.group 2
  if boundsString ≠ [] then
    let bounds := split ':' boundsString
    let high := bounds.getD 0 []
    let low := bounds.getD 1 []
    let faultyIndex ← randrange (int low) (int high) draw
    let injectionCircuit := "wire " ++ sampleWire ++ "_faultybit = " ++ faultInputWire ++
      ";\nwire" ++ gap ++ sampleWire ++ " = \x7b" ++
      busConcatination sampleWire high low faultyIndex ++ "\x7d"
    return injectionCircuit ++ " // fault injection \n  assign " ++ faultOutputWire ++ " = " ++
      originalName sampleWire ++ "[" ++ decimal faultyIndex ++
      "]; // direct original value to output \n  " ++ originalPlaceholder
  else
    let injectionCircuit := "wire " ++ sampleWire ++ " = " ++ faultInputWire ++ ";"
    return injectionCircuit ++ " // fault injection\n  assign " ++ faultOutputWire ++ " = " ++
      originalName sampleWire ++ "; // direct original value to output \n " ++
      originalPlaceholder

/--
Redirect the assignments of a register, once for each assignment found.  Only
the first character of the captured operator, a blank, enters the pattern.
-/
def redirectAssignments (sampleWire : Text) (found : List (Match Char))
    (moduleText : Text) : Except PythonError Text :=
  found.foldlM (fun text m =>
    let operator := (m.group 1).take 1
    Template.resub (chain [word sampleWire, word operator, word " "]) 0
      (originalName sampleWire ++ operator ++ " ") text) moduleText

/-- `inject_fault`; the last argument is the number a random draw would yield. -/
def Module.injectFault (module : Module)
    (sampleWire faultInputWire faultOutputWire : Text) (busIndex : Option BusIndex)
    (draw : Nat) : Except PythonError Module :=
  match findall (wirePattern sampleWire) module.moduleText with
  | found :: _ => do
      let substitution ←
        wireSubstitution sampleWire faultInputWire faultOutputWire busIndex draw found
      let text ← Template.resub (wirePattern sampleWire) 3 substitution module.moduleText
      return { module with moduleText := text }
  | [] =>
      match findall (assignmentPattern sampleWire) module.moduleText with
      | [] => .error (.systemExit 1)
      | assignments => do
          let redirected ← redirectAssignments sampleWire assignments module.moduleText
          match findall (registerPattern sampleWire) redirected with
          | [] => .error (.systemExit 1)
          | found :: _ =>
              let substitution ←
                registerSubstitution sampleWire faultInputWire faultOutputWire draw found
              let text ←
                Template.resub (registerPattern sampleWire) 2 substitution redirected
              return { module with moduleText := text }

/-- How many numbers `inject_fault` draws: one for a bus whose bit it has to choose. -/
def Module.drawsFor (module : Module) (sampleWire : Text) (busIndex : Option BusIndex) : Nat :=
  match findall (wirePattern sampleWire) module.moduleText with
  | found :: _ => if strip (found.group 2) ≠ [] ∧ busIndex = none then 1 else 0
  | [] =>
      match redirectAssignments sampleWire
          (findall (assignmentPattern sampleWire) module.moduleText) module.moduleText with
      | .error _ => 0
      | .ok redirected =>
          match findall (registerPattern sampleWire) redirected with
          | found :: _ => if found.group 2 ≠ [] then 1 else 0
          | [] => 0

end FaultInjection
