import FaultInjection.Traversal.Tree
import Mathlib.Data.List.Find

/-!
# Children at the time of a call

A call finds the modules of the children as they are after the run: what is called
below an instance is called before it.
-/

namespace FaultInjection

open Text Heap

namespace Heap

theorem copyModule_moduleOf_of_ne {heap : Heap} {self ref : Nat} (hne : ref ≠ self)
    (href : heap.moduleRef ref < heap.modules.size) :
    (heap.copyModule self).moduleOf ref = heap.moduleOf ref := by
  rw [moduleOf, copyModule_cell_of_ne heap hne]
  exact heap.modules.alloc_cell_of_lt _ href

/-- Children that were there are found when the driver has come. -/
theorem addDriver_childNamed? {heap : Heap} {root ref child : Nat} {driver : Module} {name : Text}
    (instances : heap.InstanceTree root) (hchild : heap.childNamed? ref name = some child) :
    (heap.addDriver root driver).childNamed? ref name = some child := by
  have hroot := instances.root_lt
  have hnames : ∀ other ∈ heap.childrenOf ref,
      (heap.addDriver root driver).nameOf other = heap.nameOf other := by
    intro other hother
    have hlt := (instances.forest.bounds hother).2
    have hne : other ≠ root := by
      rintro rfl
      exact instances.root_top ref hother
    exact congrArg ModuleInstance.name (addDriver_cell_of_ne hne hlt)
  have hfind : (heap.childrenOf ref).find? (fun other =>
      (heap.addDriver root driver).nameOf other == name) = some child := by
    rw [childNamed?_eq_find] at hchild
    rw [← hchild]
    exact List.find?_congr fun other hother => by rw [hnames other hother]
  have hlt : ref < heap.instances.size :=
    Nat.lt_trans (instances.forest.bounds (mem_of_childNamed? hchild)).1
      (instances.forest.bounds (mem_of_childNamed? hchild)).2
  rw [childNamed?_eq_find]
  by_cases href : ref = root
  · subst href
    rw [addDriver_childrenOf_root hroot, List.find?_append, hfind]
    rfl
  · have hchildren : (heap.addDriver root driver).childrenOf ref = heap.childrenOf ref :=
      congrArg ModuleInstance.children (addDriver_cell_of_ne href hlt)
    rw [hchildren, hfind]

end Heap

section Runs

variable [UnicodeData]

omit [UnicodeData] in
theorem moduleOf_of_untouched {heap heap' : Heap} {inst : Nat} (grown : Extends heap heap')
    (hbound : heap.moduleRef inst < heap.modules.size)
    (hsame : heap'.moduleRef inst = heap.moduleRef inst) :
    heap'.moduleOf inst = heap.moduleOf inst := by
  show heap'.modules.cell (heap'.moduleRef inst) = heap.modules.cell (heap.moduleRef inst)
  rw [hsame, grown.modules_cell _ hbound]

namespace ModuleTree

variable {tree : ModuleTree}

/-- A call finds the children of its instance as they are after the run. -/
theorem Injection.moduleOf_child (instances : tree.heap.InstanceTree tree.rootInstance)
    (hbound : tree.heap.Bound) (injection : Injection tree) {before : Heap} {inst child : Nat}
    {faultDriver : Option Text} (hcall : tree.Calls before inst faultDriver)
    (hchild : child ∈ tree.heap.childrenOf inst) :
    injection.injected.heap.moduleOf child = (before.copyModule inst).moduleOf child := by
  have hbounds := instances.forest.bounds hchild
  have hroot : child ≠ tree.rootInstance := by
    rintro rfl
    exact instances.root_top inst hchild
  -- no later call is one on the child
  obtain ⟨hgrown, hlater⟩ : Extends tree.heap before ∧ before.Bound ∧
      injection.below.moduleOf child = before.moduleOf child := by
    cases hcall with
    | @below met done rest _ _ visits row =>
        obtain ⟨-, hleft⟩ := injection.visits.unique visits
        have hrun := injection.row
        rw [← hleft] at hrun
        obtain ⟨before', hdone, hrest⟩ := foldlM_append_eq_ok.mp hrun
        obtain rfl : before' = before := Except.ok.inj (hdone.symm.trans row)
        have hnodup := visits.left_nodup instances
        rw [List.nodup_append] at hnodup
        have earlier : InjectedRow tree.heap before' (fun _ => none) done :=
          injectRow_run hnodup.1 (fun _ _ => rfl) hdone
        have later : InjectedRow before' injection.below (fun _ => none) (inst :: rest) :=
          injectRow_run hnodup.2.1 (fun _ _ => rfl) hrest
        have hearlier := earlier.bound hbound
        obtain ⟨names, walk⟩ := visits
        have horder := walk.left_bottomUp instances.forest
          (Walk.apart_children instances.forest tree.rootInstance)
        rw [List.pairwise_append, List.pairwise_cons] at horder
        have hnot : child ∉ inst :: rest := by
          intro hmem
          rcases List.mem_cons.mp hmem with rfl | hmem
          · exact Nat.lt_irrefl _ hbounds.1
          · exact horder.2.1.1 child hmem (.single hchild)
        have hlt : child < before'.instances.size := by
          rw [earlier.grown.links.size]
          exact hbounds.2
        exact ⟨earlier.grown, hearlier, moduleOf_of_untouched later.grown (hearlier child hlt)
          (later.untouched child (Or.inl hnot))⟩
    | @root met left _ visits row =>
        obtain ⟨-, hleft⟩ := injection.visits.unique visits
        have hrun := injection.row
        rw [← hleft] at hrun
        obtain rfl : injection.below = before := Except.ok.inj (hrun.symm.trans row)
        have below : InjectedRow tree.heap injection.below (fun _ => none) left :=
          injectRow_run (visits.left_nodup instances) (fun _ _ => rfl) row
        exact ⟨below.grown, below.bound hbound, rfl⟩
  have hlt : child < before.instances.size := by
    rw [hgrown.links.size]
    exact hbounds.2
  have hlast : injection.injected.heap.moduleOf child = injection.below.moduleOf child := by
    have hrow : Extends injection.below injection.final := injectFaults_extends injection.root
    have hbelow : InjectedRow tree.heap injection.below (fun _ => none) injection.left :=
      injectRow_run (injection.visits.left_nodup instances) (fun _ _ => rfl) injection.row
    rw [injection.moduleOf instances hbound hbounds.2]
    refine moduleOf_of_untouched hrow (hbelow.bound hbound child ?_) ?_
    · rw [hbelow.grown.links.size]
      exact hbounds.2
    · rcases injectFaults_cases injection.root with ⟨-, heq⟩ | ⟨-, rewriting, heq⟩
      · rw [heq]
      · rw [heq, Rewriting.result, replaceModule_moduleRef_of_ne _ hroot]
  rw [hlast, hlater.2, copyModule_moduleOf_of_ne (Nat.ne_of_gt hbounds.1) (hlater.1 child hlt)]

theorem Injection.childNamed? (instances : tree.heap.InstanceTree tree.rootInstance)
    (injection : Injection tree) {inst child : Nat} {name : Text}
    (hchild : tree.heap.childNamed? inst name = some child) :
    injection.injected.heap.childNamed? inst name = some child := by
  have hlinks := (injection.injectedRow instances).grown.links
  refine addDriver_childNamed? (hlinks.instanceTree instances) ?_
  rw [hlinks.childNamed?, hchild]

end ModuleTree

end Runs

end FaultInjection
