import FaultInjection.Design.SetUp
import FaultInjection.Traversal.Loop

/-!
# `inject_faults` of the tree

The calls below the root in the order of the walk, the call on the root, and the
driver instance hung under the root.
-/

namespace FaultInjection

open Text Heap

namespace Heap

/-- The heap after the driver has been hung under the root. -/
def addDriver (heap : Heap) (root : Nat) (driver : Module) : Heap :=
  { heap with
    modules := heap.modules.alloc driver
    instances :=
      (heap.instances.alloc ⟨heap.modules.size, "fault_driver", none, [], []⟩).modify root
        fun inst => { inst with children := inst.children ++ [heap.instances.size] } }

section AddDriver

variable {heap : Heap} {root : Nat} {driver : Module}

theorem addDriver_cell_of_ne {ref : Nat} (hroot : ref ≠ root)
    (href : ref < heap.instances.size) :
    (heap.addDriver root driver).instances.cell ref = heap.instances.cell ref := by
  rw [addDriver, Store.modify_cell_of_ne _ _ hroot, Store.alloc_cell_of_lt _ _ href]

theorem addDriver_cell_root (hroot : root < heap.instances.size) :
    (heap.addDriver root driver).instances.cell root =
      { heap.instances.cell root with
        children := heap.childrenOf root ++ [heap.instances.size] } := by
  rw [addDriver, Store.modify_cell_self, Store.alloc_cell_of_lt _ _ hroot]
  rfl

theorem addDriver_cell_driver (hroot : root < heap.instances.size) :
    (heap.addDriver root driver).instances.cell heap.instances.size =
      ⟨heap.modules.size, "fault_driver", none, [], []⟩ := by
  rw [addDriver, Store.modify_cell_of_ne _ _ (Nat.ne_of_gt hroot), Store.alloc_cell_new]

theorem addDriver_childrenOf_root (hroot : root < heap.instances.size) :
    (heap.addDriver root driver).childrenOf root =
      heap.childrenOf root ++ [heap.instances.size] :=
  congrArg ModuleInstance.children (addDriver_cell_root hroot)

theorem addDriver_moduleOf_driver (hroot : root < heap.instances.size) :
    (heap.addDriver root driver).moduleOf heap.instances.size = driver := by
  rw [moduleOf, addDriver_cell_driver hroot]
  exact Store.alloc_cell_new _ _

theorem addDriver_moduleRef (hroot : root < heap.instances.size) {ref : Nat}
    (href : ref < heap.instances.size) :
    (heap.addDriver root driver).moduleRef ref = heap.moduleRef ref := by
  by_cases heq : ref = root
  · rw [heq, moduleRef, addDriver_cell_root hroot]
    rfl
  · rw [moduleRef, addDriver_cell_of_ne heq href]
    rfl

theorem addDriver_modules_cell {ref : Nat} (href : ref < heap.modules.size) :
    (heap.addDriver root driver).modules.cell ref = heap.modules.cell ref :=
  heap.modules.alloc_cell_of_lt _ href

theorem addDriver_moduleOf (hroot : root < heap.instances.size) (hbound : heap.Bound)
    {ref : Nat} (href : ref < heap.instances.size) :
    (heap.addDriver root driver).moduleOf ref = heap.moduleOf ref := by
  have hmodule : (heap.addDriver root driver).moduleRef ref = heap.moduleRef ref :=
    addDriver_moduleRef hroot href
  rw [moduleRef] at hmodule
  rw [moduleOf, hmodule, addDriver_modules_cell (hbound ref href)]
  rfl

end AddDriver

end Heap

section Runs

variable [UnicodeData]

namespace ModuleTree

/-- The stages of a run. -/
structure Injection (tree : ModuleTree) where
  met : List Nat
  left : List Nat
  visits : tree.heap.Visits tree.rootInstance met left
  below : Heap
  row : injectRow tree.heap left = .ok below
  driver : Module
  generated : generateFaultDriver (tree.heap.pathsOf tree.rootInstance) = .ok driver
  final : Heap
  root : FaultInjection.injectFaults below tree.rootInstance (some driver.type) = .ok final

/-- The tree after the run. -/
def Injection.injected {tree : ModuleTree} (injection : Injection tree) : ModuleTree :=
  { tree with heap := injection.final.addDriver tree.rootInstance injection.driver }

theorem injectFaults_injection {tree injected : ModuleTree}
    (instances : tree.heap.InstanceTree tree.rootInstance)
    (hrun : tree.injectFaults = .ok injected) :
    ∃ injection : Injection tree, injected = injection.injected := by
  obtain ⟨met, left, visits⟩ := instances.visits
  have hloop := injectLoop_eq_injectRow instances visits
  rw [injectFaults] at hrun
  obtain ⟨below, hbelow, hrun⟩ := bind_eq_ok.mp hrun
  obtain ⟨driver, hdriver, hrun⟩ := bind_eq_ok.mp hrun
  obtain ⟨final, hroot, hrun⟩ := bind_eq_ok.mp hrun
  cases hrun
  rw [← childrenOf, hloop] at hbelow
  rw [← pathsOf, (injectRow_extends hbelow).paths] at hdriver
  exact ⟨⟨met, left, visits, below, hbelow, driver, hdriver, final, hroot⟩, rfl⟩

theorem Injection.run {tree : ModuleTree}
    (instances : tree.heap.InstanceTree tree.rootInstance) (injection : Injection tree) :
    tree.injectFaults = .ok injection.injected := by
  have hloop := injectLoop_eq_injectRow instances injection.visits
  have hpaths := (injectRow_extends injection.row).paths tree.rootInstance
  rw [injectFaults, bind_eq_ok]
  refine ⟨injection.below, hloop.trans injection.row, bind_eq_ok.mpr ⟨injection.driver, ?_,
    bind_eq_ok.mpr ⟨injection.final, injection.root, rfl⟩⟩⟩
  rw [← pathsOf, hpaths]
  exact injection.generated

namespace Injection

variable {tree : ModuleTree}

/-- Only the call on the root is given the type of the driver. -/
def driverOf (injection : Injection tree) (inst : Nat) : Option Text :=
  if inst = tree.rootInstance then some injection.driver.type else none

/-- The instances on which `inject_faults` is called. -/
def called (injection : Injection tree) : List Nat :=
  injection.left ++ [tree.rootInstance]

theorem root_not_mem_left (instances : tree.heap.InstanceTree tree.rootInstance)
    (injection : Injection tree) : tree.rootInstance ∉ injection.left := by
  intro hmem
  have hmet := injection.visits.mem_left_iff.mp hmem
  exact Nat.lt_irrefl _ (injection.visits.lt_size instances hmet).1

theorem injectedRow (instances : tree.heap.InstanceTree tree.rootInstance)
    (injection : Injection tree) :
    InjectedRow tree.heap injection.final injection.driverOf injection.called := by
  have hroot := injection.root_not_mem_left instances
  have hbelow : InjectedRow tree.heap injection.below injection.driverOf injection.left := by
    refine injectRow_run (injection.visits.left_nodup instances) ?_ injection.row
    intro inst hinst
    apply if_neg
    rintro rfl
    exact hroot hinst
  apply hbelow.step hroot
  rw [driverOf, if_pos rfl]
  exact injection.root

theorem lt_size_of_called (instances : tree.heap.InstanceTree tree.rootInstance)
    (injection : Injection tree) {inst : Nat} (hinst : inst ∈ injection.called) :
    inst < tree.heap.instances.size := by
  rcases List.mem_append.mp hinst with hinst | hinst
  · exact (injection.visits.lt_size instances (injection.visits.mem_left_iff.mp hinst)).2
  · rw [List.mem_singleton.mp hinst]
    exact instances.root_lt

theorem driver_eq (injection : Injection tree) :
    injection.driver.type = faultDriverType ∧
      injection.driver.moduleText = faultDriverText (tree.heap.pathsOf tree.rootInstance) := by
  have hgenerated := injection.generated
  rw [generateFaultDriver, Module.make] at hgenerated
  split at hgenerated
  · cases hgenerated
  · rw [Except.ok.injEq] at hgenerated
    rw [← hgenerated]
    exact ⟨rfl, rfl⟩

theorem root_lt_final (instances : tree.heap.InstanceTree tree.rootInstance)
    (injection : Injection tree) : tree.rootInstance < injection.final.instances.size := by
  rw [(injection.injectedRow instances).grown.links.size]
  exact instances.root_lt

theorem moduleRef (instances : tree.heap.InstanceTree tree.rootInstance)
    (injection : Injection tree) {inst : Nat}
    (hinst : inst < tree.heap.instances.size) :
    injection.injected.heap.moduleRef inst = injection.final.moduleRef inst := by
  have hsize := (injection.injectedRow instances).grown.links.size
  exact addDriver_moduleRef (by rw [hsize]; exact instances.root_lt) (by rw [hsize]; exact hinst)

theorem moduleOf (instances : tree.heap.InstanceTree tree.rootInstance)
    (hbound : tree.heap.Bound) (injection : Injection tree) {inst : Nat}
    (hinst : inst < tree.heap.instances.size) :
    injection.injected.heap.moduleOf inst = injection.final.moduleOf inst := by
  have hrow := injection.injectedRow instances
  have hsize := hrow.grown.links.size
  exact addDriver_moduleOf (by rw [hsize]; exact instances.root_lt) (hrow.bound hbound)
    (by rw [hsize]; exact hinst)

theorem modules_cell (instances : tree.heap.InstanceTree tree.rootInstance)
    (injection : Injection tree) {ref : Nat} (href : ref < tree.heap.modules.size) :
    injection.injected.heap.modules.cell ref = tree.heap.modules.cell ref := by
  have hgrown := (injection.injectedRow instances).grown
  rw [injected, addDriver_modules_cell (Nat.lt_of_lt_of_le href hgrown.modules_size)]
  exact hgrown.modules_cell ref href

/-- The instances after the run: those of before and the driver. -/
theorem instances_size (instances : tree.heap.InstanceTree tree.rootInstance)
    (injection : Injection tree) :
    injection.injected.heap.instances.size = tree.heap.instances.size + 1 := by
  rw [← (injection.injectedRow instances).grown.links.size]
  rfl

/-- The module of an instance that was called with recorded paths is no other
instance's. -/
theorem own (instances : tree.heap.InstanceTree tree.rootInstance)
    (hbound : tree.heap.Bound) (injection : Injection tree) {inst : Nat}
    (hinst : inst ∈ injection.called) (hpaths : tree.heap.pathsOf inst ≠ [])
    {other : Nat} (hother : other < injection.injected.heap.instances.size) (hne : other ≠ inst) :
    injection.injected.heap.moduleRef other ≠ injection.injected.heap.moduleRef inst := by
  have hrow := injection.injectedRow instances
  have hsize := hrow.grown.links.size
  have hlt := injection.lt_size_of_called instances hinst
  obtain ⟨called⟩ := hrow.called inst hinst hpaths
  rw [injection.moduleRef instances hlt]
  rw [injection.instances_size instances] at hother
  by_cases hdriver : other = tree.heap.instances.size
  · have hroot : tree.rootInstance < injection.final.instances.size := by
      rw [hsize]
      exact instances.root_lt
    have href : injection.injected.heap.moduleRef other = injection.final.modules.size := by
      rw [injected, hdriver, ← hsize, Heap.moduleRef, addDriver_cell_driver hroot]
    rw [href]
    exact Nat.ne_of_gt called.fresh.2
  · have hold : other < tree.heap.instances.size := by omega
    rw [injection.moduleRef instances hold]
    exact hrow.own hbound inst hinst hpaths other hold hne

end Injection

/-- `inject_faults` is called on an instance in this heap, with this type of the driver. -/
inductive Calls (tree : ModuleTree) : Heap → Nat → Option Text → Prop
  | below {met done rest : List Nat} {inst : Nat} {before : Heap}
      (visits : tree.heap.Visits tree.rootInstance met (done ++ inst :: rest))
      (row : injectRow tree.heap done = .ok before) : Calls tree before inst none
  | root {met left : List Nat} {below : Heap}
      (visits : tree.heap.Visits tree.rootInstance met left)
      (row : injectRow tree.heap left = .ok below) :
      Calls tree below tree.rootInstance (some faultDriverType)

/-- Every instance that is called and has recorded faults is called once, in such a heap. -/
theorem Injection.exists_call {tree : ModuleTree}
    (instances : tree.heap.InstanceTree tree.rootInstance) (injection : Injection tree)
    {inst : Nat} (hinst : inst ∈ injection.called) (hpaths : tree.heap.pathsOf inst ≠ []) :
    ∃ called : CalledOn tree.heap injection.final inst (injection.driverOf inst),
      tree.Calls called.before inst (injection.driverOf inst) := by
  by_cases hroot : inst = tree.rootInstance
  · subst hroot
    have below : InjectedRow tree.heap injection.below (fun _ => none) injection.left :=
      injectRow_run (injection.visits.left_nodup instances) (fun _ _ => rfl) injection.row
    have hdriver : injection.driverOf tree.rootInstance = some faultDriverType := by
      rw [driverOf, if_pos rfl, injection.driver_eq.1]
    have hcalls : tree.Calls injection.below tree.rootInstance
        (injection.driverOf tree.rootInstance) := by
      rw [hdriver]
      exact .root injection.visits injection.row
    have hcall := injection.root
    rw [injection.driver_eq.1, ← hdriver] at hcall
    rcases injectFaults_cases hcall with ⟨hempty, -⟩ | ⟨-, rewriting, hfinal⟩
    · rw [below.grown.paths] at hempty
      exact absurd hempty hpaths
    · refine ⟨⟨injection.below, rewriting, below.grown, hfinal ▸ .refl _,
        below.untouched _ (Or.inl (injection.root_not_mem_left instances)), ?_⟩, hcalls⟩
      rw [hfinal, Rewriting.result]
      exact injection.below.replaceModule_moduleRef_self _ _ _
  · have hleft : inst ∈ injection.left :=
      (List.mem_append.mp hinst).resolve_right fun hmem => hroot (List.mem_singleton.mp hmem)
    obtain ⟨done, rest, hsplit⟩ := List.append_of_mem hleft
    have hnodup := injection.visits.left_nodup instances
    have hrow := injection.row
    have hvisits := injection.visits
    rw [hsplit] at hnodup hrow hvisits
    obtain ⟨called, hdone⟩ := exists_calledOn hnodup hpaths hrow
    obtain ⟨final, hbefore⟩ := called.step injection.root hroot
    rw [driverOf, if_neg hroot]
    refine ⟨final, ?_⟩
    rw [hbefore]
    exact .below hvisits hdone

/-- The tree after `mark_fault` calls on the root of a tree that was set up. -/
theorem Sound.markFaults {tree marked : ModuleTree} (sound : tree.Sound)
    {faultPaths : List Text} (hmark : tree.markFaults faultPaths = .ok marked) :
    ∃ heap, marked = { tree with heap := heap } ∧
      MarkedAll tree.heap heap tree.rootInstance faultPaths := by
  rw [ModuleTree.markFaults, map_eq_ok] at hmark
  obtain ⟨heap, hmark, rfl⟩ := hmark
  exact ⟨heap, rfl, markFaults_run sound.instances hmark⟩

end ModuleTree

end Runs

section Nested

attribute [local instance] UnicodeData.ascii

namespace ModuleTree

/-- A fault at the bottom of the nested design: the instance that it lies in is
marked, but keeps its module. -/
theorem nestedDesign_run :
    ∃ tree marked injected, IsSetUp nestedDesign "Core" tree ∧
      tree.markFaults ["/Root/alu/alu/add/:sum"] = .ok marked ∧
      marked.injectFaults = .ok injected ∧
      (3 < marked.heap.instances.size ∧ 3 ≠ marked.rootInstance ∧
        marked.heap.pathsOf 3 ≠ [] ∧
        injected.heap.moduleRef 3 < marked.heap.modules.size) := by
  have hrun : (setUp nestedDesign "Core" (fun _ => 0) 5 >>= fun tree =>
      tree.markFaults ["/Root/alu/alu/add/:sum"] >>= fun marked =>
        marked.injectFaults.map fun injected =>
          decide (3 < marked.heap.instances.size ∧ 3 ≠ marked.rootInstance ∧
            marked.heap.pathsOf 3 ≠ [] ∧
            injected.heap.moduleRef 3 < marked.heap.modules.size)) = .ok true := by
    decide +kernel
  obtain ⟨tree, htree, hrun⟩ := bind_eq_ok.mp hrun
  obtain ⟨marked, hmark, hrun⟩ := bind_eq_ok.mp hrun
  obtain ⟨injected, hinject, hfacts⟩ := map_eq_ok.mp hrun
  exact ⟨tree, marked, injected, ⟨_, _, htree⟩, hmark, hinject, of_decide_eq_true hfacts⟩

end ModuleTree

end Nested

end FaultInjection
