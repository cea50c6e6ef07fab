import FaultInjection.Emission.Honoured
import FaultInjection.Plumbing.Chains
import FaultInjection.Traversal.Coverage

/-!
# Labels of fault bits

The driver annotates its bits with the marked faults in order.  A concatenation
reverses the order of a child's faults, so that the bits reach the right wires at
even depths only, and a child with one fault gets the lowest bit of its parent.
-/

namespace FaultInjection

open Text Heap

section Reflection

end Reflection

section Labels

variable [UnicodeData]

/-! ## Injection points -/

namespace InjectionPoint

variable {heap : Heap} {root inst index : Nat} {names : List Text}

theorem unique (point : InjectionPoint heap inst names index) {names' : List Text}
    (other : InjectionPoint heap inst names' index) : names' = names := by
  induction point generalizing names' with
  | here recorded arrived =>
      cases other with
      | here => rfl
      | through recorded' leads' =>
          rw [recorded, Option.some.injEq] at recorded'
          rw [recorded', leads'] at arrived
          cases arrived
  | through recorded leads found _ ih =>
      cases other with
      | here recorded' arrived' =>
          rw [recorded, Option.some.injEq] at recorded'
          rw [recorded', arrived'] at leads
          cases leads
      | through recorded' leads' found' point' =>
          rw [recorded, Option.some.injEq] at recorded'
          rw [recorded', leads', Option.some.injEq] at leads
          subst leads
          rw [found, Option.some.injEq] at found'
          subst found'
          rw [ih point']

end InjectionPoint

section Levels

variable {heap : Heap} {root inst : Nat} {flipped : Bool}

end Levels

/-! ## Routes of faults -/

section Routes

variable {heap : Heap} {root : Nat} {faults : List FaultPath}

end Routes

/-! ## The driver -/

section Texts

omit [UnicodeData]

end Texts

namespace ModuleTree

section Run

variable {marked : ModuleTree} {faults : List FaultPath} (legible : marked.Legible)
  (instances : marked.heap.InstanceTree marked.rootInstance) (hbound : marked.heap.Bound)
  (routed : Routed marked.heap marked.rootInstance) (injection : Injection marked)
include legible instances hbound routed

end Run

end ModuleTree

end Labels

section Twin

attribute [local instance] UnicodeData.ascii

end Twin

end FaultInjection
