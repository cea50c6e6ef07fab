import FaultInjection.Plumbing.Drivers

/-!
# Chains of connections

A fault injected deep in the tree is wired to one bit of the fault bus of each
module above it.  The bit is found by reading the connections in the text of one
module after the other, and it is the same one for fault inputs and fault outputs.
-/

namespace FaultInjection

open Text Verilog Heap

/-- The places of a circuit by which a port reaches a faulty wire. -/
def FaultPort.ends (port : FaultPort) (wire : Text) : List Owner :=
  (tappedSignals wire).map (port.owner wire)

section Chains

variable [UnicodeData]

/-! ## The bit that is meant -/

/-- The recorded path at a position leads through children of the given names to
a wire. -/
inductive InjectionPoint (heap : Heap) : Nat → List Text → Nat → Prop where
  | here {inst index : Nat} {path : Text} (recorded : (heap.pathsOf inst)[index]? = some path)
      (arrived : towards? path = none) : InjectionPoint heap inst [] index
  | through {inst child index : Nat} {path childName : Text} {names : List Text}
      (recorded : (heap.pathsOf inst)[index]? = some path)
      (leads : towards? path = some childName)
      (found : heap.childNamed? inst childName = some child)
      (point : InjectionPoint heap child names
        ((positionsOf childName (heap.pathsOf inst)).idxOf index)) :
      InjectionPoint heap inst (childName :: names) index

namespace InjectionPoint

variable {heap : Heap} {inst index : Nat} {names : List Text}

end InjectionPoint

namespace ModuleTree

section Reached

variable {marked : ModuleTree} {inst : Nat} (legible : marked.Legible)
  (instances : marked.heap.InstanceTree marked.rootInstance) (hbound : marked.heap.Bound)
  (routed : Routed marked.heap marked.rootInstance) (injection : Injection marked)
  (hreached : marked.Reaches inst) (hpaths : marked.heap.pathsOf inst ≠ [])
include legible instances hbound routed hreached hpaths

end Reached

/-! ## Reading along a chain -/

section Along

variable {marked : ModuleTree} {inst index : Nat} {names : List Text} {sampleWire : Text}
  (legible : marked.Legible) (instances : marked.heap.InstanceTree marked.rootInstance)
  (hbound : marked.heap.Bound) (routed : Routed marked.heap marked.rootInstance)
  (injection : Injection marked)
include legible instances hbound

end Along

end ModuleTree

end Chains

section Twin

attribute [local instance] UnicodeData.ascii

namespace ModuleTree

end ModuleTree

end Twin

end FaultInjection
