import FaultInjection.Traversal.Tree

/-!
# Isolation of instances

Instances of one type share their module object until a fault is injected.  The
run writes only to fresh copies, one for each instance with recorded paths that
it calls, so no fault shows in the module of another instance.
-/

namespace FaultInjection.ModuleTree

open Text Heap

section Isolation

variable [UnicodeData]

/-- No instance sees the faults injected into another one. -/
structure Isolated (tree marked injected : ModuleTree) : Prop where
  /-- The parsed modules stay as they were. -/
  parsed : injected.allModules = tree.allModules ∧
    ∀ type ref, tree.allModules.get? type = some ref →
      injected.heap.modules.cell ref = tree.heap.modules.cell ref
  /-- An instance without recorded paths keeps its unmodified module. -/
  unmarked : ∀ inst, inst < marked.heap.instances.size →
    marked.heap.pathsOf inst = [] →
      injected.heap.moduleRef inst = tree.heap.moduleRef inst ∧
        injected.heap.moduleOf inst = tree.heap.moduleOf inst
  /-- An instance with recorded paths that is called has a module of its own. -/
  called : ∀ met left, marked.heap.Visits marked.rootInstance met left →
    ∀ inst, (inst = marked.rootInstance ∨ inst ∈ left) → marked.heap.pathsOf inst ≠ [] →
      (∀ other, other < injected.heap.instances.size → other ≠ inst →
        injected.heap.moduleRef other ≠ injected.heap.moduleRef inst) ∧
      ∀ type, injected.allModules.get? type ≠ some (injected.heap.moduleRef inst)

/-- The run of `inject_faults` isolates the instances of shared modules. -/
theorem injectFaults_isolates {contents rootType : Text} {faultPaths : List Text}
    {tree marked injected : ModuleTree} (hsetup : IsSetUp contents rootType tree)
    (hmark : tree.markFaults faultPaths = .ok marked)
    (hrun : marked.injectFaults = .ok injected) : Isolated tree marked injected := by
  obtain ⟨parsed, -, built⟩ := hsetup.built
  have sound := built.sound
  obtain ⟨heap, rfl, hmarked⟩ := sound.markFaults hmark
  have instances := hmarked.sameLinks.instanceTree sound.instances
  have hbound := hmarked.bound sound.bound
  obtain ⟨injection, rfl⟩ := injectFaults_injection instances hrun
  have hrow := injection.injectedRow instances
  refine ⟨⟨rfl, ?_⟩, ?_, ?_⟩
  · intro type ref hget
    have hold : ref < heap.modules.size := by
      rw [hmarked.modules]
      exact (sound.entered type ref hget).1
    rw [injection.modules_cell instances hold, hmarked.modules]
  · intro inst hinst hpaths
    have href : injection.injected.heap.moduleRef inst = tree.heap.moduleRef inst := by
      rw [injection.moduleRef instances hinst, hrow.untouched inst (Or.inr hpaths)]
      exact hmarked.module inst
    refine ⟨href, ?_⟩
    have hold : tree.heap.moduleRef inst < heap.modules.size := by
      rw [hmarked.modules]
      exact sound.bound inst (hmarked.sameLinks.size ▸ hinst)
    rw [moduleRef, moduleRef] at href
    rw [Heap.moduleOf, href, ← moduleRef, injection.modules_cell instances hold,
      hmarked.modules]
    rfl
  · intro met left hvisits inst hinst hpaths
    obtain ⟨-, rfl⟩ := injection.visits.unique hvisits
    have hcalled : inst ∈ injection.called := by
      rw [Injection.called, List.mem_append, List.mem_singleton]
      exact hinst.symm
    refine ⟨fun other hother hne =>
      injection.own instances hbound hcalled hpaths hother hne, ?_⟩
    intro type hget
    have hlt := injection.lt_size_of_called instances hcalled
    obtain ⟨called⟩ := hrow.called inst hcalled hpaths
    have hfresh := called.fresh.1
    rw [← injection.moduleRef instances hlt, hmarked.modules] at hfresh
    exact Nat.not_lt.mpr hfresh (sound.entered type _ hget).1

end Isolation

section Nested

attribute [local instance] UnicodeData.ascii

theorem injectFaults_isolates_nested :
    ∃ tree marked injected, IsSetUp nestedDesign "Core" tree ∧
      tree.markFaults ["/Root/alu/alu/add/:sum"] = .ok marked ∧
      marked.injectFaults = .ok injected ∧ Isolated tree marked injected := by
  obtain ⟨tree, marked, injected, hsetup, hmark, hrun, -⟩ := nestedDesign_run
  exact ⟨tree, marked, injected, hsetup, hmark, hrun,
    injectFaults_isolates hsetup hmark hrun⟩

end Nested

end FaultInjection.ModuleTree
