import FaultInjection.Emission.Spared

/-!
# Which instances the run rewrites

The traversal expands the first instance of each name only.  The run rewrites
every marked instance exactly when no instance with a marked child comes, in the
order of the traversal, after another instance of its name, and the header of
every marked instance has the layout that the substitution comes upon.
-/

namespace FaultInjection.ModuleTree

open Text Heap

section Coverage

variable [UnicodeData]

namespace Injection

variable {marked : ModuleTree}

end Injection

end Coverage

section Nested

attribute [local instance] UnicodeData.ascii

theorem Calls.bounds {marked : ModuleTree}
    (instances : marked.heap.InstanceTree marked.rootInstance) {before : Heap} {inst : Nat}
    (hcall : marked.Calls before inst none) :
    inst < marked.heap.instances.size ∧ inst ≠ marked.rootInstance := by
  cases hcall with
  | below visits row =>
      have hmet := visits.mem_left_iff.mp (List.mem_append_right _ (.head _))
      have hbounds := visits.lt_size instances hmet
      exact ⟨hbounds.2, Nat.ne_of_gt hbounds.1⟩

/-- The call on the only marked instance below the root finds the heap of before. -/
theorem Calls.eq_of_single {marked : ModuleTree}
    (instances : marked.heap.InstanceTree marked.rootInstance) {before : Heap} {inst : Nat}
    (hcall : marked.Calls before inst none)
    (hsingle : ∀ other, other < marked.heap.instances.size → other ≠ marked.rootInstance →
      marked.heap.pathsOf other ≠ [] → other = inst) : before = marked.heap := by
  cases hcall with
  | @below met done rest _ _ visits row =>
      have hnodup := visits.left_nodup instances
      rw [List.nodup_middle, List.nodup_cons, List.mem_append, not_or] at hnodup
      have hdone : injectRow marked.heap done = .ok marked.heap := by
        refine injectRow_of_unmarked fun other hother => ?_
        have hmet := visits.mem_left_iff.mp (List.mem_append_left _ hother)
        have hbounds := visits.lt_size instances hmet
        by_contra hpaths
        obtain rfl := hsingle other hbounds.2 (Nat.ne_of_gt hbounds.1) hpaths
        exact hnodup.1.1 hother
      rw [hdone, Except.ok.injEq] at row
      exact row.symm

end Nested

end FaultInjection.ModuleTree
