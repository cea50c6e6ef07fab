import FaultInjection.Design.Dump
import FaultInjection.Plumbing.Labels

/-!
# The driver in the output

The tree after a run has the driver as the last child of its root, and `dump` writes
its module right behind that of the root.
-/

namespace FaultInjection

open Text Heap

namespace Heap

variable {heap : Heap} {root : Nat} {driver : Module}

theorem addDriver_childrenOf (hroot : root < heap.instances.size) :
    (heap.addDriver root driver).childrenOf =
      Function.update (Function.update heap.childrenOf heap.instances.size [])
        root (heap.childrenOf root ++ [heap.instances.size]) := by
  funext ref
  by_cases href : ref = root
  · rw [href, Function.update_self, childrenOf, addDriver_cell_root hroot]
  · rw [Function.update_of_ne href]
    by_cases hnew : ref = heap.instances.size
    · rw [hnew, Function.update_self, childrenOf, addDriver_cell_driver hroot]
    · rw [Function.update_of_ne hnew, childrenOf, addDriver, Store.modify_cell_of_ne _ _ href,
        Store.alloc_cell_of_ne _ _ hnew]
      rfl

theorem addDriver_instanceTree (instances : heap.InstanceTree root) :
    (heap.addDriver root driver).InstanceTree root := by
  have hroot := instances.root_lt
  refine ⟨?_, Nat.lt_succ_of_lt hroot, fun parent hmem => ?_⟩
  · rw [addDriver_childrenOf hroot]
    exact instances.forest.addChild hroot
  · rw [addDriver_childrenOf hroot] at hmem
    by_cases hparent : parent = root
    · rw [hparent, Function.update_self, List.mem_append, List.mem_singleton] at hmem
      rcases hmem with hmem | hmem
      · exact instances.root_top root hmem
      · exact Nat.ne_of_lt hroot hmem
    · rw [Function.update_of_ne hparent] at hmem
      by_cases hnew : parent = heap.instances.size
      · rw [hnew, Function.update_self] at hmem
        cases hmem
      · rw [Function.update_of_ne hnew] at hmem
        exact instances.root_top parent hmem

end Heap

variable [UnicodeData]

namespace ModuleTree.Injection

variable {tree : ModuleTree}

theorem instanceTree (instances : tree.heap.InstanceTree tree.rootInstance)
    (injection : Injection tree) :
    injection.injected.heap.InstanceTree injection.injected.rootInstance :=
  addDriver_instanceTree
    ((injection.injectedRow instances).grown.links.instanceTree instances)

/-- The module of an instance that was called with recorded paths. -/
theorem exists_rewriting (instances : tree.heap.InstanceTree tree.rootInstance)
    (hbound : tree.heap.Bound) (injection : Injection tree) {inst : Nat}
    (hinst : inst ∈ injection.called) (hpaths : tree.heap.pathsOf inst ≠ []) :
    ∃ call : CalledOn tree.heap injection.final inst (injection.driverOf inst),
      injection.injected.heap.moduleOf inst = call.rewriting.module := by
  obtain ⟨call⟩ := (injection.injectedRow instances).called inst hinst hpaths
  refine ⟨call, ?_⟩
  rw [injection.moduleOf instances hbound (injection.lt_size_of_called instances hinst),
    call.moduleOf_after]

theorem root_type_ne (instances : tree.heap.InstanceTree tree.rootInstance)
    (hbound : tree.heap.Bound) (injection : Injection tree)
    (hpaths : tree.heap.pathsOf tree.rootInstance ≠ []) :
    (injection.injected.heap.moduleOf tree.rootInstance).type ≠ injection.driver.type := by
  obtain ⟨call, hmodule⟩ := injection.exists_rewriting instances hbound
    (List.mem_append_right _ (.head _)) hpaths
  rw [hmodule, injection.driver_eq.1]
  intro htype
  have hlength : call.rewriting.module.type.length = faultDriverType.length :=
    congrArg List.length htype
  have hdigest := Sha256.length_hexdigest call.rewriting.rewired
  have hdriver : faultDriverType.length = 11 := by decide +kernel
  rw [Rewriting.module, newModuleType, List.length_append, hdigest, hdriver] at hlength
  omega

/-- `dump` writes the module of the root and then that of the driver. -/
theorem exists_dumped (instances : tree.heap.InstanceTree tree.rootInstance)
    (hbound : tree.heap.Bound) (injection : Injection tree)
    (hpaths : tree.heap.pathsOf tree.rootInstance ≠ []) :
    ∃ rest, injection.injected.dumped =
      .ok (injection.injected.heap.moduleOf tree.rootInstance :: injection.driver :: rest) := by
  have hroot := injection.root_lt_final instances
  have hdriver : injection.injected.heap.moduleOf injection.final.instances.size =
      injection.driver := addDriver_moduleOf_driver hroot
  obtain ⟨row, hrow, hdumped⟩ := dumped_run (injection.instanceTree instances)
  obtain ⟨rest, rfl⟩ := hrow.begins _ _ (addDriver_childrenOf_root hroot)
  have hne := injection.root_type_ne instances hbound hpaths
  rw [hdumped, List.cons_append, List.singleton_append,
    newModules_cons_new List.not_mem_nil, newModules_cons_new (by
      rw [hdriver, List.mem_singleton]
      exact fun heq => hne heq.symm), hdriver]
  exact ⟨_, rfl⟩

end ModuleTree.Injection

end FaultInjection
