import FaultInjection.Injector.FaultDriver
import FaultInjection.Memory.Store
import FaultInjection.Python.Sha256

/-!
# Module instances

The instance objects of the design and the two operations on them: marking a
fault along a path, and rewriting the module of an instance so that the marked
faults are injected or handed down to its children.
-/

namespace FaultInjection

open Regex Regex.Pattern Text

/-- `ModuleInstance`; modules and instances are referred to by their cells. -/
structure ModuleInstance where
  module : Nat
  name : Text
  parent : Option Nat
  children : List Nat
  faultyChildPaths : List Text
  deriving DecidableEq, Repr

/--
The objects of a run.  The numbers that `random` will yield are fixed in advance;
`drawn` of them have been used up.
-/
structure Heap where
  modules : Store Module
  instances : Store ModuleInstance
  draws : Nat → Nat
  drawn : Nat

namespace Heap

/-- The module object of an instance. -/
def moduleOf (heap : Heap) (ref : Nat) : Module :=
  heap.modules.cell (heap.instances.cell ref).module

def modifyInstance (heap : Heap) (ref : Nat)
    (change : ModuleInstance → ModuleInstance) : Heap :=
  { heap with instances := heap.instances.modify ref change }

/-- `get_child_module_instance` -/
def childNamed? (heap : Heap) (ref : Nat) (childName : Text) : Option Nat :=
  (heap.instances.cell ref).children.find? fun child =>
    (heap.instances.cell child).name == childName

/--
`get_all_parents` with a bound on the number of links followed: the instance and
what lies above it, with or without the topmost one.
-/
def allParentsWithin (heap : Heap) (appendRoot : Bool) : Nat → Nat → Except PythonError (List Nat)
  | 0, _ => .error .recursionError
  | fuel + 1, current =>
      match (heap.instances.cell current).parent with
      | none => .ok (if appendRoot then [current] else [])
      | .some parent => (allParentsWithin heap appendRoot fuel parent).map (current :: ·)

/-- `get_all_parents`; a chain of links without a circle is no longer than the heap. -/
def getAllParents (heap : Heap) (ref : Nat) (appendRoot : Bool) : Except PythonError (List Nat) :=
  allParentsWithin heap appendRoot heap.instances.size ref

def getPath (heap : Heap) (ref : Nat) (includeRoot : Bool) : Except PythonError Text :=
  (heap.getAllParents ref includeRoot).map fun parents =>
    parents.reverse.flatMap fun inst => '/' :: (heap.instances.cell inst).name

end Heap

variable [UnicodeData]

/-- `\/\w+` -/
def componentPattern : Pattern Char := chain [word "/", some isWord]

/-- `\/\w+(\/.*)` -/
def remainderPattern : Pattern Char :=
  chain [word "/", some isWord, .group 1 (chain [word "/", .many isPlain])]

/-- `:(\w+)` -/
def wireNamePattern : Pattern Char := chain [word ":", .group 1 (some isWord)]

/-- The components of a fault path, each with its slash. -/
def pathParts (faultPath : Text) : List Text :=
  (findall componentPattern faultPath).map Match.taken

/-- The path handed to the child, if the path has the shape for it. -/
def pathRemainder? (faultPath : Text) : Option Text :=
  (findall remainderPattern faultPath).head?.map fun m => m.group 1

/-- The wire and the bit of a fault path. -/
def wireNameParts (faultPath : Text) : List Text :=
  (findall wireNamePattern faultPath).map fun m => m.group 1

/-- `mark_fault` with a bound on the depth of the recursion. -/
def markFaultWithin : Nat → Heap → Nat → Text → Except PythonError Heap
  | 0, _, _, _ => .error .recursionError
  | depth + 1, heap, self, faultPath =>
      let heap := heap.modifyInstance self fun inst =>
        { inst with faultyChildPaths := inst.faultyChildPaths ++ [faultPath] }
      match pathParts faultPath with
      | [] => .error (.systemExit 1)
      | [_] => .ok heap
      | _ :: second :: _ =>
          match heap.childNamed? self (second.drop 1) with
          | none => .error (.systemExit 1)
          | .some child =>
              match pathRemainder? faultPath with
              | none => .error .indexError
              | .some remainder => markFaultWithin depth heap child remainder

/-- `mark_fault`; every call down the tree gets a shorter path. -/
def markFault (heap : Heap) (self : Nat) (faultPath : Text) :
    Except PythonError Heap :=
  markFaultWithin (faultPath.length + 1) heap self faultPath

/-- A sequence of calls of `mark_fault` on one instance. -/
def markFaults (heap : Heap) (self : Nat) (faultPaths : List Text) :
    Except PythonError Heap :=
  faultPaths.foldlM (fun heap path => markFault heap self path) heap

/-- The fault port of the module, or one bit of it when it has several. -/
def faultWire (port : Text) (count index : Nat) : Text :=
  if count = 1 then port else port ++ "[" ++ decimal index ++ "]"

/-- The expression connected to a fault port of a child. -/
def faultParams (port : Text) (faultIndices : List Nat) : Text :=
  if 1 < faultIndices.length then
    "\x7b" ++ dropEnd 2 (faultIndices.flatMap fun index =>
      port ++ "[" ++ decimal index ++ "], ") ++ "\x7d"
  else port

/-- The two connections added to the instantiation of a child. -/
def faultInputString (faultIndices : List Nat) : Text :=
  ".fault_inputs(" ++ faultParams "fault_inputs" faultIndices ++ ")"

def faultOutputString (faultIndices : List Nat) : Text :=
  ".fault_outputs(" ++ faultParams "fault_outputs" faultIndices ++ ")"

/-- The declared range of the fault ports. -/
def faultIoBounds (count : Nat) : Text :=
  if count < 2 then [] else "[" ++ decimal (count - 1) ++ ":0]"

/-- `child_name \(.*?\n` -/
def childDeclarationPattern (childName : Text) : Pattern Char :=
  chain [word childName, word " (", .few isPlain, word "\n"]

/-- `\w+ child_name \(.*?\n` -/
def childInstancePattern (childName : Text) : Pattern Char :=
  chain [some isWord, word " ", childDeclarationPattern childName]

/-- `module \w+\(.*?\);\n` under `re.DOTALL` -/
def rootHeaderPattern : Pattern Char :=
  chain [word "module ", some isWord, word "(", .few isAny, word ");\n"]

/-- `(module )type(\(\n)` -/
def headerPattern (type : Text) : Pattern Char :=
  chain [.group 1 (word "module "), word type, .group 2 (word "(\n")]

/-- The module under change, the faults of each child, and the draws used. -/
structure Organized where
  module : Module
  childFaults : Dict Text (List Nat)
  drawn : Nat

/-- Inject a local fault, or note it for the child that it lies under. -/
def organizeFault (draws : Nat → Nat) (count : Nat) (state : Organized)
    (entry : Text × Nat) : Except PythonError Organized :=
  let (path, index) := entry
  match pathParts path with
  | [] => .error .indexError
  | [_] =>
      match wireNameParts path with
      | [] => .error .indexError
      | wireName :: others => do
          let busIndex := match others with
            | [bit] => Option.some (BusIndex.text bit)
            | _ => none
          let module ← state.module.injectFault wireName
            (faultWire "fault_inputs" count index) (faultWire "fault_outputs" count index)
            busIndex (draws state.drawn)
          return { state with
            module := module
            drawn := state.drawn + state.module.drawsFor wireName busIndex }
  | _ :: second :: _ =>
      .ok { state with childFaults := state.childFaults.push (second.drop 1) index }

/-- The loop over the recorded paths. -/
def organizeFaults (draws : Nat → Nat) (drawn : Nat) (module : Module)
    (paths : List Text) : Except PythonError Organized :=
  paths.zipIdx.foldlM (organizeFault draws paths.length) ⟨module, [], drawn⟩

/-- Give one child its fault connections and its current type. -/
def rewireChild (heap : Heap) (self : Nat) (moduleText : Text)
    (entry : Text × List Nat) : Except PythonError Text :=
  let (childName, faultIndices) := entry
  match heap.childNamed? self childName with
  | none => .error .attributeError
  | .some child =>
      let newChildType := (heap.moduleOf child).type
      match findall (childDeclarationPattern childName) moduleText with
      | [] => .error .indexError
      | found :: _ =>
          Template.resub (childInstancePattern childName) 0
            (newChildType ++ " " ++ found.taken ++ "\t\t" ++ faultInputString faultIndices ++
              ",\n\t\t" ++ faultOutputString faultIndices ++ ",\n") moduleText

/-- The loop over the children that faults lie under. -/
def rewireChildren (heap : Heap) (self : Nat) (moduleText : Text)
    (childFaults : Dict Text (List Nat)) : Except PythonError Text :=
  childFaults.foldlM (rewireChild heap self) moduleText

/-- The wires of the root and its driver instance, put behind its header. -/
def driverInstance (faultDriver : Text) (count : Nat) : Text :=
  "\twire " ++ faultIoBounds count ++ " fault_inputs;\n\twire " ++ faultIoBounds count ++
    " fault_outputs;\n\t" ++ faultDriver ++
    " fault_driver (\n\t\t.original_values(fault_outputs)\n" ++
    "\t\t.faulty_values(fault_inputs)\n)\n"

/-- The fault ports, put in front of the ports of a module. -/
def faultPorts (count : Nat) : Text :=
  "\tinput\t\t" ++ faultIoBounds count ++ "\tfault_inputs,\n\toutput\t\t" ++
    faultIoBounds count ++ "\tfault_outputs,\n"

/-- Connect the faults to the driver in the root, to new ports elsewhere. -/
def rewriteHeader (type newType : Text) (count : Nat) (faultDriver : Option Text)
    (moduleText : Text) : Except PythonError Text :=
  match faultDriver with
  | .some faultDriver =>
      match findall rootHeaderPattern moduleText with
      | [] => .error .indexError
      | header :: _ =>
          Template.resub rootHeaderPattern 0
            (header.taken ++ driverInstance faultDriver count) moduleText
  | none =>
      Template.resub (headerPattern type) 2
        ("\\1" ++ newType ++ "\\2" ++ faultPorts count) moduleText

/-- The type given to a rewritten module. -/
def newModuleType (type moduleText : Text) : Text :=
  type ++ "_" ++ Sha256.hexdigest moduleText

/--
`inject_faults`; the type of the driver is given exactly for the root.  The
module is copied first, and every later write goes to the copy.
-/
def injectFaults (heap : Heap) (self : Nat) (faultDriver : Option Text) :
    Except PythonError Heap := do
  let paths := (heap.instances.cell self).faultyChildPaths
  if paths.length = 0 then
    return heap
  let copy := heap.modules.size
  let heap := { heap with
    modules := heap.modules.alloc (heap.moduleOf self)
    instances := heap.instances.modify self fun inst => { inst with module := copy } }
  let organized ← organizeFaults heap.draws heap.drawn (heap.modules.cell copy) paths
  let rewired ← rewireChildren heap self organized.module.moduleText organized.childFaults
  let newType := newModuleType organized.module.type rewired
  let text ← rewriteHeader organized.module.type newType paths.length faultDriver rewired
  return { heap with
    modules := heap.modules.modify copy fun _ =>
      { organized.module with type := newType, moduleText := text }
    drawn := organized.drawn }

end FaultInjection
