import FaultInjection.Plumbing.Legible

/-!
# Drivers of the fault bits

The bits of the fault buses that are used in the text of a rewritten module.  Every
bit has one user and every connection the declared width unless a child gets exactly
one of several faults, or is not rewritten itself.
-/

namespace FaultInjection

open Text Verilog Heap

namespace FaultPort

/-- The number of bits of the bus in a text. -/
def width (port : FaultPort) (text : Text) : Nat := (port.declaredWidth? text).getD 0

end FaultPort

section Drivers

variable [UnicodeData]

namespace ModuleTree

section Reached

variable {marked : ModuleTree} {inst : Nat} (legible : marked.Legible)
  (instances : marked.heap.InstanceTree marked.rootInstance) (hbound : marked.heap.Bound)
  (routed : Routed marked.heap marked.rootInstance) (injection : Injection marked)
  (hreached : marked.Reaches inst) (hpaths : marked.heap.pathsOf inst ≠ [])
include legible instances hbound routed hreached hpaths

end Reached

end ModuleTree

end Drivers

section Pair

attribute [local instance] UnicodeData.ascii

namespace ModuleTree

end ModuleTree

end Pair

end FaultInjection
