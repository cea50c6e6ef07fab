import FaultInjection.Design.Links
import FaultInjection.Marking.PathRoundTrip
import FaultInjection.Output.Driver

/-!
# Links to the parents over a run

Every operation on the tree but one keeps the links between children and parents.
`inject_faults` hangs its driver under the root without a link back, so the links
belong to the lists of children exactly as long as it has not been called.
-/

namespace FaultInjection

open Text Heap

section Runs

variable [UnicodeData]

/-- The calls of the main program after `setup_tree`. -/
inductive TreeOperation where
  | markFault (faultPath : Text)
  | injectFaults
  | dump

namespace TreeOperation

def run (tree : ModuleTree) : TreeOperation → Except PythonError ModuleTree
  | .markFault faultPath => tree.markFaults [faultPath]
  | .injectFaults => tree.injectFaults
  | .dump => tree.dump.map fun _ => tree

end TreeOperation

namespace ModuleTree

/-- A row of operations. -/
def runAll (tree : ModuleTree) (operations : List TreeOperation) :
    Except PythonError ModuleTree :=
  operations.foldlM TreeOperation.run tree

/-- The instance is the root or lies below it. -/
def Contains (tree : ModuleTree) (ref : Nat) : Prop :=
  ref = tree.rootInstance ∨ Forest.Below tree.heap.childrenOf tree.rootInstance ref

/-- Children refer to their parents, only the root refers to nothing, and the path of
an instance names the instances from the root down to it. -/
structure TreeLinks (tree : ModuleTree) : Prop where
  child : ∀ parent, tree.Contains parent → ∀ child ∈ tree.heap.childrenOf parent,
    tree.heap.parentOf child = some parent
  top : ∀ ref, tree.Contains ref → (tree.heap.parentOf ref = none ↔ ref = tree.rootInstance)
  path : ∀ ref nodes, Forest.Line tree.heap.childrenOf tree.rootInstance ref nodes →
    tree.heap.getPath ref true = .ok (FaultPath.spell (nodes.map tree.heap.nameOf))

omit [UnicodeData] in
theorem TreeLinks.of_linked {tree : ModuleTree}
    (instances : tree.heap.InstanceTree tree.rootInstance)
    (linked : tree.heap.Linked tree.rootInstance) : tree.TreeLinks where
  child parent _ := linked.child parent
  top ref hcontains := by
    constructor
    · intro hnone
      rcases hcontains with rfl | hbelow
      · rfl
      · have hparent : ∃ parent, ref ∈ tree.heap.childrenOf parent := by
          cases hbelow with
          | single hmem => exact ⟨_, hmem⟩
          | tail _ hmem => exact ⟨_, hmem⟩
        obtain ⟨parent, hmem⟩ := hparent
        rw [linked.child parent ref hmem] at hnone
        cases hnone
    · rintro rfl
      exact linked.top
  path ref nodes line := by
    refine linked.getPath instances ?_ line
    rcases line.eq_or_below with rfl | hbelow
    · exact instances.root_lt
    · cases hbelow with
      | single hmem => exact (instances.forest.bounds hmem).2
      | tail _ hmem => exact (instances.forest.bounds hmem).2

/-- A child of the root has no link back. -/
def Unlinked (tree : ModuleTree) : Prop :=
  ∃ child ∈ tree.heap.childrenOf tree.rootInstance, tree.heap.parentOf child = none

omit [UnicodeData] in
theorem Unlinked.not_treeLinks {tree : ModuleTree} (unlinked : tree.Unlinked) :
    ¬ tree.TreeLinks := by
  intro links
  obtain ⟨child, hchild, hnone⟩ := unlinked
  rw [links.child tree.rootInstance (Or.inl rfl) child hchild] at hnone
  cases hnone

omit [UnicodeData] in
theorem Unlinked.congr {tree tree' : ModuleTree} (unlinked : tree.Unlinked)
    (root : tree'.rootInstance = tree.rootInstance) (links : SameLinks tree.heap tree'.heap)
    (parents : ∀ ref, tree'.heap.parentOf ref = tree.heap.parentOf ref) : tree'.Unlinked := by
  obtain ⟨child, hchild, hnone⟩ := unlinked
  refine ⟨child, ?_, (parents child).trans hnone⟩
  rw [root, links.children]
  exact hchild

theorem Injection.unlinked {tree : ModuleTree}
    (instances : tree.heap.InstanceTree tree.rootInstance) (injection : Injection tree) :
    injection.injected.Unlinked := by
  have hroot := injection.root_lt_final instances
  refine ⟨injection.final.instances.size, ?_, ?_⟩
  · show _ ∈ (injection.final.addDriver tree.rootInstance injection.driver).childrenOf
      tree.rootInstance
    rw [addDriver_childrenOf_root hroot]
    exact List.mem_append_right _ (.head _)
  · show (injection.final.addDriver tree.rootInstance injection.driver).parentOf _ = none
    rw [parentOf, addDriver_cell_driver hroot]

/-- The links of a tree along a run. -/
structure LinksAfter (first : ModuleTree) (operations : List TreeOperation)
    (tree : ModuleTree) : Prop where
  rootInstance : tree.rootInstance = first.rootInstance
  instances : tree.heap.InstanceTree tree.rootInstance
  linked : TreeOperation.injectFaults ∉ operations → tree.heap.Linked tree.rootInstance
  unlinked : TreeOperation.injectFaults ∈ operations → tree.Unlinked

theorem LinksAfter.markFault {first tree tree' : ModuleTree} {done : List TreeOperation}
    (after : LinksAfter first done tree) {faultPath : Text}
    (hrun : tree.markFaults [faultPath] = .ok tree') :
    LinksAfter first (done ++ [.markFault faultPath]) tree' := by
  rw [ModuleTree.markFaults, map_eq_ok] at hrun
  obtain ⟨heap, hmark, rfl⟩ := hrun
  have links := (markFaults_run after.instances hmark).sameLinks
  have parents := markFaults_parentOf hmark
  refine ⟨after.rootInstance, links.instanceTree after.instances, fun hnot => ?_, fun hmem => ?_⟩
  · refine (after.linked fun hmem => hnot ?_).congr links parents
    exact List.mem_append_left _ hmem
  · refine (after.unlinked ?_).congr rfl links parents
    rcases List.mem_append.mp hmem with hmem | hmem
    · exact hmem
    · cases List.mem_singleton.mp hmem

theorem LinksAfter.injectFaults {first tree tree' : ModuleTree} {done : List TreeOperation}
    (after : LinksAfter first done tree) (hrun : tree.injectFaults = .ok tree') :
    LinksAfter first (done ++ [.injectFaults]) tree' := by
  obtain ⟨injection, rfl⟩ := injectFaults_injection after.instances hrun
  refine ⟨after.rootInstance, injection.instanceTree after.instances, fun hnot => ?_,
    fun _ => injection.unlinked after.instances⟩
  exact absurd (List.mem_append_right _ (.head _)) hnot

omit [UnicodeData] in
theorem LinksAfter.dump {first tree : ModuleTree} {done : List TreeOperation}
    (after : LinksAfter first done tree) : LinksAfter first (done ++ [.dump]) tree := by
  have hmem : TreeOperation.injectFaults ∈ done ++ [.dump] ↔
      TreeOperation.injectFaults ∈ done := by
    simp
  exact ⟨after.rootInstance, after.instances, fun hnot => after.linked (hmem.not.mp hnot),
    fun hdone => after.unlinked (hmem.mp hdone)⟩

theorem runAll_linksAfter {contents rootType : Text} {tree last : ModuleTree}
    (setUp : IsSetUp contents rootType tree) {operations : List TreeOperation}
    (hrun : tree.runAll operations = .ok last) : LinksAfter tree operations last := by
  obtain ⟨parsed, -, built⟩ := setUp.built
  refine foldlM_induction (fun done state => LinksAfter tree done state) hrun ?_ ?_
  · exact ⟨rfl, built.sound.instances, fun _ => setUp.linked, fun hmem => absurd hmem
      List.not_mem_nil⟩
  · intro done operation rest state state' _ hdone hstep
    cases operation with
    | markFault faultPath => exact hdone.markFault hstep
    | injectFaults => exact hdone.injectFaults hstep
    | dump =>
        obtain ⟨contents, -, rfl⟩ := map_eq_ok.mp hstep
        exact hdone.dump

/-- After any row of operations on a tree that was set up the links hold exactly when
`inject_faults` is not among them. -/
theorem treeLinks_iff {contents rootType : Text} {tree last : ModuleTree}
    (setUp : IsSetUp contents rootType tree) {operations : List TreeOperation}
    (hrun : tree.runAll operations = .ok last) :
    last.TreeLinks ↔ TreeOperation.injectFaults ∉ operations := by
  have after := runAll_linksAfter setUp hrun
  constructor
  · intro links hmem
    exact (after.unlinked hmem).not_treeLinks links
  · intro hnot
    exact .of_linked after.instances (after.linked hnot)

end ModuleTree

end Runs

section Nested

attribute [local instance] UnicodeData.ascii

namespace ModuleTree

theorem treeLinks_iff_nested :
    ∃ tree last, IsSetUp nestedDesign "Core" tree ∧
      tree.runAll [.markFault "/Root/alu/alu/add/:sum", .dump] = .ok last ∧
      (last.TreeLinks ↔ TreeOperation.injectFaults ∉
        [.markFault "/Root/alu/alu/add/:sum", TreeOperation.dump]) := by
  have hrun : (setUp nestedDesign "Core" (fun _ => 0) 5 >>= fun tree =>
      tree.runAll [.markFault "/Root/alu/alu/add/:sum", .dump]).isOk = true := by
    decide +kernel
  obtain ⟨last, hlast⟩ := isOk_iff.mp hrun
  obtain ⟨tree, htree, hlast⟩ := bind_eq_ok.mp hlast
  exact ⟨tree, last, ⟨_, _, htree⟩, hlast, treeLinks_iff ⟨_, _, htree⟩ hlast⟩

/-- The driver of an injected design has no link to the root. -/
theorem injectFaults_breaks_links :
    ∃ tree marked injected, IsSetUp nestedDesign "Core" tree ∧
      tree.markFaults ["/Root/alu/alu/add/:sum"] = .ok marked ∧
      marked.injectFaults = .ok injected ∧ ¬ injected.TreeLinks := by
  obtain ⟨tree, marked, injected, setUp, hmark, hinject, -⟩ := nestedDesign_run
  refine ⟨tree, marked, injected, setUp, hmark, hinject, ?_⟩
  obtain ⟨parsed, -, built⟩ := setUp.built
  obtain ⟨heap, rfl, hmarked⟩ := built.sound.markFaults hmark
  have instances := hmarked.sameLinks.instanceTree built.sound.instances
  obtain ⟨injection, rfl⟩ := injectFaults_injection instances hinject
  exact (injection.unlinked instances).not_treeLinks

end ModuleTree

end Nested

end FaultInjection
