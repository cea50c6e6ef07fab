import FaultInjection.Design.SetUp

/-!
# Correspondence of parent and child lists

For paths of the documented form the entries of a child are read off the entries
of its parent: those that lead through the child, in order, each without its
first component.
-/

namespace FaultInjection

open Text Heap

section Correspondence

variable [UnicodeData]

namespace FaultPath

/-- What a fault recorded in a parent becomes in its child of a name. -/
def through (childName : Text) (fault : FaultPath) : Option FaultPath :=
  if fault.second? = some childName then fault.dropFirst? else none

theorem exists_dropFirst? (fault : FaultPath) {next : Text} {rest : List Text}
    (htail : fault.tail = next :: rest) :
    ∃ shorter, fault.dropFirst? = some shorter ∧ shorter.tail = rest := by
  unfold dropFirst?
  split
  · rename_i hnil
    rw [hnil] at htail
    cases htail
  · rename_i next' others hcons
    rw [hcons, List.cons.injEq] at htail
    exact ⟨_, rfl, htail.2⟩

/-- On a documented path the two regular expressions agree on the next child. -/
theorem routeTo_text (childName : Text) (fault : FaultPath) :
    routeTo childName fault.text = (fault.through childName).map FaultPath.text := by
  have hparts := fault.pathParts_text
  cases htail : fault.tail with
  | nil =>
      rw [htail] at hparts
      rw [routeTo_single hparts, through, second?, htail]
      rfl
  | cons next rest =>
      rw [htail] at hparts
      rw [routeTo_of_parts hparts, through, second?, htail, List.head?_cons,
        List.drop_succ_cons, List.drop_zero]
      by_cases hnext : next = childName
      · obtain ⟨shorter, hshorter, -⟩ := fault.exists_dropFirst? htail
        rw [if_pos hnext, if_pos (congrArg some hnext), hshorter,
          pathRemainder?_text hshorter]
        rfl
      · rw [if_neg hnext, if_neg fun heq => hnext (Option.some.inj heq)]
        rfl

theorem filterMap_routeTo (childName : Text) (recorded : List FaultPath) :
    (recorded.map FaultPath.text).filterMap (routeTo childName) =
      (recorded.filterMap (through childName)).map FaultPath.text := by
  rw [List.filterMap_map, List.map_filterMap]
  exact List.filterMap_congr fun fault _ => routeTo_text childName fault

end FaultPath

theorem Routed.recorded {heap : Heap} {root : Nat} (tree : InstanceTree heap root)
    (routed : Routed heap root) {faults : List FaultPath}
    (hroot : heap.pathsOf root = faults.map FaultPath.text) (ref : Nat) :
    ∃ recorded : List FaultPath, heap.pathsOf ref = recorded.map FaultPath.text := by
  induction ref using Nat.strongRecOn with
  | ind ref ih =>
      by_cases hempty : heap.pathsOf ref = []
      · exact ⟨[], hempty⟩
      · rcases routed.above ref hempty with rfl | ⟨parent, -, hmem⟩
        · exact ⟨faults, hroot⟩
        · obtain ⟨above, habove⟩ := ih parent (tree.forest.bounds hmem).1
          rw [routed.child parent ref hmem, habove]
          split
          · exact ⟨_, FaultPath.filterMap_routeTo _ _⟩
          · exact ⟨[], rfl⟩

/-- The lists of the children of one instance, read off its own list. -/
structure Corresponds (heap : Heap) (parent : Nat) (recorded : List FaultPath) : Prop where
  paths : heap.pathsOf parent = recorded.map FaultPath.text
  first : ∀ childName child, heap.childNamed? parent childName = some child →
    heap.pathsOf child =
      (recorded.filterMap (FaultPath.through childName)).map FaultPath.text
  others : ∀ childName child, heap.childNamed? parent childName = some child →
    ∀ other ∈ heap.childrenOf parent, heap.nameOf other = childName → other ≠ child →
      heap.pathsOf other = []

theorem Routed.corresponds {heap : Heap} {root : Nat} (routed : Routed heap root)
    {parent : Nat} {recorded : List FaultPath}
    (hpaths : heap.pathsOf parent = recorded.map FaultPath.text) :
    Corresponds heap parent recorded where
  paths := hpaths
  first childName child hchild := by
    have hmem := mem_of_childNamed? hchild
    rw [routed.child parent child hmem, name_of_childNamed? hchild, if_pos hchild, hpaths,
      FaultPath.filterMap_routeTo]
  others childName child hchild other hmem hname hne := by
    rw [routed.child parent other hmem, hname, hchild, if_neg]
    exact fun heq => hne (Option.some.inj heq).symm

/--
After every prefix of a sequence of calls of `mark_fault` on the root, the list
of the first child of a name is the list of its parent's entries that lead
through that name, each without its first component; other children of the name
have no entries; and the root has the marked paths.
-/
theorem markFaults_corresponds {heap : Heap} {root : Nat} (tree : InstanceTree heap root)
    (hempty : ∀ ref, heap.pathsOf ref = []) (faults : List FaultPath)
    (hreturns : ∃ last, markFaults heap root (faults.map FaultPath.text) = .ok last)
    (done : List FaultPath) (hstarts : done <+: faults) :
    ∃ heap', markFaults heap root (done.map FaultPath.text) = .ok heap' ∧
      heap'.pathsOf root = done.map FaultPath.text ∧
      ∀ parent, ∃ recorded, Corresponds heap' parent recorded := by
  obtain ⟨rest, rfl⟩ := hstarts
  obtain ⟨last, hlast⟩ := hreturns
  rw [markFaults, List.map_append, foldlM_append_eq_ok] at hlast
  obtain ⟨heap', hdone, -⟩ := hlast
  have hmarked := markFaults_run tree hdone
  have hrouted := hmarked.routed (.of_empty hempty root)
  have hroot : heap'.pathsOf root = done.map FaultPath.text := by
    rw [hmarked.root_paths, hempty, List.nil_append]
  refine ⟨heap', hdone, hroot, fun parent => ?_⟩
  obtain ⟨recorded, hrecorded⟩ :=
    hrouted.recorded (hmarked.sameLinks.instanceTree tree) hroot parent
  exact ⟨recorded, hrouted.corresponds hrecorded⟩

end Correspondence

section Nested

attribute [local instance] UnicodeData.ascii

/-- `/Root/alu/alu/add/:sum` -/
def nestedFault : FaultPath where
  head := "Root"
  tail := ["alu", "alu", "add"]
  slashed := true
  wire := "sum"
  bit := none
  head_name := by decide
  tail_name := by decide
  wire_name := by decide
  bit_name := by simp

theorem nestedFault_text : nestedFault.text = "/Root/alu/alu/add/:sum".toList := by
  decide

theorem markFaults_corresponds_nested :
    ∃ tree heap', ModuleTree.IsSetUp ModuleTree.nestedDesign "Core" tree ∧
      markFaults tree.heap tree.rootInstance ["/Root/alu/alu/add/:sum"] = .ok heap' ∧
      heap'.pathsOf tree.rootInstance = ["/Root/alu/alu/add/:sum".toList] ∧
      ∀ parent, ∃ recorded, Corresponds heap' parent recorded := by
  have hrun : (ModuleTree.setUp ModuleTree.nestedDesign "Core" (fun _ => 0) 5 >>=
      fun tree => markFaults tree.heap tree.rootInstance [nestedFault.text]).isOk = true := by
    decide +kernel
  obtain ⟨last, hlast⟩ := isOk_iff.mp hrun
  obtain ⟨tree, htree, hmark⟩ := bind_eq_ok.mp hlast
  have hsetup : ModuleTree.IsSetUp ModuleTree.nestedDesign "Core" tree := ⟨_, _, htree⟩
  obtain ⟨parsed, -, built⟩ := hsetup.built
  obtain ⟨heap', hheap, hroot, hall⟩ := markFaults_corresponds built.sound.instances
    built.sound.unmarked [nestedFault] ⟨last, hmark⟩ [nestedFault] (List.prefix_refl _)
  rw [List.map_singleton, nestedFault_text] at hheap hroot
  exact ⟨tree, heap', hsetup, hheap, hroot, hall⟩

end Nested

end FaultInjection
