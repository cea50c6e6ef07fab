import FaultInjection.Injector.Instance

/-!
# The module tree

Building the tree of instances from the parsed modules, injecting all marked
faults bottom-up with an explicit stack, reading modules from a file and writing
the modules of the tree back to one.
-/

namespace FaultInjection

open Regex Regex.Pattern Text

/-- `ModuleTree`, together with the objects that it reaches. -/
structure ModuleTree where
  heap : Heap
  rootInstance : Nat
  allModules : Dict Text Nat
  allModuleInstances : Dict Text (List Nat)

variable [UnicodeData]

/-- Text-mode reading turns every line end into a newline. -/
def universalNewlines : Text → Text
  | [] => []
  | '\r' :: '\n' :: rest => '\n' :: universalNewlines rest
  | '\r' :: rest => '\n' :: universalNewlines rest
  | c :: rest => c :: universalNewlines rest

/-- `(module\s+(\w+)\(.+?endmodule)` under `re.DOTALL` -/
def modulePattern : Pattern Char :=
  .group 1 (chain [word "module", some isSpace, .group 2 (some isWord), word "(",
    someFew isAny, word "endmodule"])

/-- The parsed modules: their objects and the two dictionaries of `parse_file`. -/
structure Parsed where
  modules : Store Module
  moduleDict : Dict Text Nat
  moduleInstanceDict : Dict Text (List Nat)

/-- Make the module object of one match and enter it under its type. -/
def enterModule (parsed : Parsed) (m : Match Char) : Except PythonError Parsed := do
  let newModule ← Module.make (m.group 2) (m.group 1)
  return {
    modules := parsed.modules.alloc newModule
    moduleDict := parsed.moduleDict.set newModule.type parsed.modules.size
    moduleInstanceDict := parsed.moduleInstanceDict.set newModule.type [] }

/-- `parse_file`, given the contents of the file. -/
def parseFile (contents : Text) : Except PythonError Parsed :=
  (findall modulePattern (universalNewlines contents)).foldlM enterModule
    ⟨⟨0, fun _ => ⟨[], [], [], []⟩⟩, [], []⟩

/-- `\\n\s+(\w+) (\w+) ?\(`, searched for in the `repr` of the text. -/
def childPattern : Pattern Char :=
  chain [word "\\n", some isSpace, .group 1 (some isWord), word " ",
    .group 2 (some isWord), maybe (word " "), word "("]

/-- The pairs of module type and instance name found in a text. -/
def possibleChildren (moduleText : Text) : List (Text × Text) :=
  (findall childPattern (repr moduleText)).map fun m => (m.group 1, m.group 2)

namespace ModuleTree

/-- Append an instance to the registry entry of a type. -/
def register (tree : ModuleTree) (type : Text) (ref : Nat) : ModuleTree :=
  { tree with allModuleInstances := tree.allModuleInstances.push type ref }

/-- Make a child instance and hang it under its parent. -/
def addChild (tree : ModuleTree) (moduleNode module : Nat) (name : Text) : ModuleTree :=
  let child := tree.heap.instances.size
  { tree with heap := { tree.heap with
      instances := (tree.heap.instances.alloc ⟨module, name, moduleNode, [], []⟩).modify
        moduleNode fun inst => { inst with children := inst.children ++ [child] } } }

/-- `_find_children`, with a bound on the depth of the recursion. -/
def findChildren : Nat → ModuleTree → Nat → Except PythonError ModuleTree
  | 0, _, _ => .error .recursionError
  | depth + 1, tree, moduleNode =>
      (possibleChildren (tree.heap.moduleOf moduleNode).moduleText).foldlM
        (fun tree possible =>
          match tree.allModules.get? possible.1 with
          | none => .ok tree
          | .some module => do
              let child := tree.heap.instances.size
              let built ←
                findChildren depth (tree.addChild moduleNode module possible.2) child
              return built.register possible.1 child) tree

/-- `ModuleTree(all_modules[root_type], all_modules, all_module_instances)` -/
def make (parsed : Parsed) (draws : Nat → Nat) (rootType : Text) :
    Except PythonError ModuleTree :=
  match parsed.moduleDict.get? rootType with
  | none => .error .keyError
  | .some root =>
      .ok {
        heap := {
          modules := parsed.modules
          instances := (⟨0, fun _ => ⟨0, [], none, [], []⟩⟩ : Store ModuleInstance).alloc
            ⟨root, "Root", none, [], []⟩
          draws := draws
          drawn := 0 }
        rootInstance := 0
        allModules := parsed.moduleDict
        allModuleInstances := parsed.moduleInstanceDict.push
          (parsed.modules.cell root).type 0 }

def setupTree (depth : Nat) (tree : ModuleTree) : Except PythonError ModuleTree :=
  findChildren depth tree tree.rootInstance

/-- The calls of the main program up to `setup_tree`. -/
def setUp (contents : Text) (rootType : Text) (draws : Nat → Nat) (depth : Nat) :
    Except PythonError ModuleTree := do
  let parsed ← parseFile contents
  let fresh ← make parsed draws rootType
  setupTree depth fresh

/-- `rootInstance.mark_fault` for every path of a list, in order. -/
def markFaults (tree : ModuleTree) (faultPaths : List Text) :
    Except PythonError ModuleTree :=
  (FaultInjection.markFaults tree.heap tree.rootInstance faultPaths).map fun heap =>
    { tree with heap := heap }

/--
The loop of `inject_faults`.  The top of the stack is the head of the list, so
extending the Python stack by the children puts them in front in reverse order.
-/
def injectLoop : Nat → Heap → List Nat → List Text → Except PythonError Heap
  | _, heap, [], _ => .ok heap
  | 0, _, _ :: _, _ => .error .recursionError
  | fuel + 1, heap, inst :: stack, visited =>
      let object := heap.instances.cell inst
      if object.name ∉ visited then
        injectLoop fuel heap (object.children.reverse ++ inst :: stack)
          (object.name :: visited)
      else do
        let heap ← FaultInjection.injectFaults heap inst none
        injectLoop fuel heap stack visited

/-- `inject_faults` of the tree; every instance is taken off the stack at most twice. -/
def injectFaults (tree : ModuleTree) : Except PythonError ModuleTree := do
  let root := tree.heap.instances.cell tree.rootInstance
  let heap ← injectLoop (2 * tree.heap.instances.size) tree.heap root.children.reverse []
  let faultDriver ←
    generateFaultDriver (heap.instances.cell tree.rootInstance).faultyChildPaths
  let heap ← FaultInjection.injectFaults heap tree.rootInstance (some faultDriver.type)
  let driver := heap.modules.size
  let instance_ := heap.instances.size
  return { tree with heap := { heap with
    modules := heap.modules.alloc faultDriver
    instances := (heap.instances.alloc ⟨driver, "fault_driver", none, [], []⟩).modify
      tree.rootInstance fun inst => { inst with children := inst.children ++ [instance_] } } }

/--
The loop of `dump`: the modules written, in order.  A module is written when no
module of its type has been.
-/
def dumpLoop : Nat → Heap → List Nat → List Text → Except PythonError (List Module)
  | _, _, [], _ => .ok []
  | 0, _, _ :: _, _ => .error .recursionError
  | fuel + 1, heap, inst :: stack, written =>
      let module := heap.moduleOf inst
      let next := (heap.instances.cell inst).children.reverse ++ stack
      if module.type ∉ written then
        (dumpLoop fuel heap next (module.type :: written)).map (module :: ·)
      else dumpLoop fuel heap next written

/-- The modules that `dump` writes. -/
def dumped (tree : ModuleTree) : Except PythonError (List Module) :=
  dumpLoop tree.heap.instances.size tree.heap [tree.rootInstance] []

/-- `dump`: the contents of the file written. -/
def dump (tree : ModuleTree) : Except PythonError Text :=
  tree.dumped.map fun modules => modules.flatMap fun module => module.moduleText ++ "\n"

end ModuleTree

end FaultInjection
