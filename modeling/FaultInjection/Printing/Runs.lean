import FaultInjection.Design.RoundTrip
import FaultInjection.Emission.Header
import FaultInjection.Printing.ReadBack

/-!
# Drawings along a run

Types and names stay words through every operation on the tree, so what `__str__`
prints of a tree can be read back at any time.
-/

namespace FaultInjection

open Text Heap

section Runs

variable [UnicodeData]

/-- Every instance has a module with a type, and a name. -/
structure Heap.Named (heap : Heap) : Prop where
  bound : heap.Bound
  type : ∀ ref, ref < heap.instances.size → IsName (heap.moduleOf ref).type
  name : ∀ ref, ref < heap.instances.size → IsName (heap.nameOf ref)

theorem MarkedAll.named {heap heap' : Heap} {root : Nat} {paths : List Text}
    (marked : MarkedAll heap heap' root paths) (named : heap.Named) : heap'.Named := by
  refine ⟨marked.bound named.bound, fun ref href => ?_, fun ref href => ?_⟩
  · rw [marked.sameLinks.size] at href
    rw [moduleOf, marked.modules, marked.module]
    exact named.type ref href
  · rw [marked.sameLinks.size] at href
    rw [marked.sameLinks.name]
    exact named.name ref href

theorem injectFaults_named {heap heap' : Heap} {inst : Nat} {faultDriver : Option Text}
    (hinst : inst < heap.instances.size)
    (hrun : injectFaults heap inst faultDriver = .ok heap') (named : heap.Named) :
    heap'.Named := by
  rcases injectFaults_cases hrun with ⟨-, rfl⟩ | ⟨-, rewriting, rfl⟩
  · exact named
  · refine ⟨replaceModule_bound named.bound inst _ _, fun ref href => ?_, fun ref href => ?_⟩
    · by_cases hself : ref = inst
      · rw [hself, Rewriting.result, replaceModule_moduleOf_self]
        have htype : IsName rewriting.organized.module.type := by
          rw [organizeFaults_type rewriting.organize]
          exact named.type inst hinst
        exact isName_newModuleType htype _
      · have hmodule : rewriting.result.moduleOf ref = heap.moduleOf ref := by
          rw [moduleOf, ← moduleRef, Rewriting.result, replaceModule_moduleRef_of_ne heap hself]
          exact (heap.replaceModule_extends inst _ _).modules_cell _ (named.bound ref href)
        rw [hmodule]
        exact named.type ref href
    · rw [Rewriting.result, (heap.replaceModule_extends inst _ _).links.name]
      exact named.name ref href

theorem injectRow_named {heap heap' : Heap} {row : List Nat}
    (hrow : ∀ inst ∈ row, inst < heap.instances.size) (hrun : injectRow heap row = .ok heap')
    (named : heap.Named) : heap'.Named := by
  have hloop := foldlM_induction
    (fun _ state => state.instances.size = heap.instances.size ∧ state.Named) hrun
    ⟨rfl, named⟩ ?_
  · exact hloop.2
  · rintro done inst rest state state' hsplit ⟨hsize, hnamed⟩ hstep
    have hinst : inst < state.instances.size := by
      rw [hsize]
      exact hrow inst (hsplit ▸ List.mem_append_right _ (.head _))
    exact ⟨(injectFaults_extends hstep).links.size.trans hsize,
      injectFaults_named hinst hstep hnamed⟩

omit [UnicodeData] in
theorem addDriver_bound {heap : Heap} {root : Nat} {driver : Module}
    (hroot : root < heap.instances.size) (hbound : heap.Bound) :
    (heap.addDriver root driver).Bound := by
  intro ref href
  have hlt : ref < heap.instances.size + 1 := href
  show _ < heap.modules.size + 1
  by_cases hnew : ref = heap.instances.size
  · rw [hnew, moduleRef, addDriver_cell_driver hroot]
    exact Nat.lt_succ_self _
  · have hold : ref < heap.instances.size := by omega
    rw [addDriver_moduleRef hroot hold]
    exact Nat.lt_succ_of_lt (hbound ref hold)

omit [UnicodeData] in
theorem addDriver_nameOf {heap : Heap} {root : Nat} {driver : Module}
    (hroot : root < heap.instances.size) {ref : Nat} (href : ref < heap.instances.size) :
    (heap.addDriver root driver).nameOf ref = heap.nameOf ref := by
  by_cases heq : ref = root
  · rw [heq, nameOf, addDriver_cell_root hroot]
    rfl
  · rw [nameOf, addDriver_cell_of_ne heq href]
    rfl

theorem addDriver_named {heap : Heap} {root : Nat} {driver : Module}
    (hroot : root < heap.instances.size) (named : heap.Named) (hdriver : IsName driver.type) :
    (heap.addDriver root driver).Named := by
  have hcases : ∀ ref, ref < (heap.addDriver root driver).instances.size →
      ref < heap.instances.size ∨ ref = heap.instances.size := fun ref href =>
    Nat.lt_succ_iff_lt_or_eq.mp href
  refine ⟨addDriver_bound hroot named.bound, fun ref href => ?_, fun ref href => ?_⟩
  · rcases hcases ref href with hold | rfl
    · rw [addDriver_moduleOf hroot named.bound hold]
      exact named.type ref hold
    · rw [addDriver_moduleOf_driver hroot]
      exact hdriver
  · rcases hcases ref href with hold | rfl
    · rw [addDriver_nameOf hroot hold]
      exact named.name ref hold
    · have hname : IsName "fault_driver" := isName_of_ascii (by decide) (by decide)
      rw [nameOf, addDriver_cell_driver hroot]
      exact hname

theorem IsName.isPrint {text : Text} (hname : IsName text) : IsPrint text := by
  have hmarks : isWord escapeChar = false ∧ isWord '\n' = false := by
    refine ⟨?_, isWord_newline⟩
    rw [isWord_ascii (by decide)]
    decide
  intro c hc
  have hword := hname.word c hc
  refine ⟨?_, ?_⟩
  · rintro rfl
    rw [hmarks.1] at hword
    cases hword
  · rintro rfl
    rw [hmarks.2] at hword
    cases hword

namespace ModuleTree

theorem Injection.named {tree : ModuleTree} (instances : tree.heap.InstanceTree tree.rootInstance)
    (injection : Injection tree) (named : tree.heap.Named) : injection.injected.heap.Named := by
  have hbelow : injection.below.Named := by
    refine injectRow_named (fun inst hinst => ?_) injection.row named
    exact (injection.visits.lt_size instances (injection.visits.mem_left_iff.mp hinst)).2
  have hroot : tree.rootInstance < injection.below.instances.size := by
    rw [(injectRow_extends injection.row).links.size]
    exact instances.root_lt
  refine addDriver_named (injection.root_lt_final instances)
    (injectFaults_named hroot injection.root hbelow) ?_
  rw [injection.driver_eq.1]
  exact isName_of_ascii (by decide) (by decide)

theorem BuiltFrom.named {contents rootType : Text} {parsed : Parsed} {tree : ModuleTree}
    (hparse : parseFile contents = .ok parsed) (built : BuiltFrom parsed rootType tree) :
    tree.heap.Named where
  bound := built.sound.bound
  type ref href := by
    obtain ⟨chunk, htype, -⟩ := exists_chunk_of_module? hparse (built.module?_moduleOf href)
    exact htype ▸ chunk.type_name
  name _ href := built.isName href

theorem runAll_named {contents rootType : Text} {tree last : ModuleTree}
    (setUp : IsSetUp contents rootType tree) {operations : List TreeOperation}
    (hrun : tree.runAll operations = .ok last) :
    last.heap.InstanceTree last.rootInstance ∧ last.heap.Named := by
  obtain ⟨parsed, hparse, built⟩ := setUp.built
  refine foldlM_induction (fun _ state => state.heap.InstanceTree state.rootInstance ∧
    state.heap.Named) hrun ⟨built.sound.instances, built.named hparse⟩ ?_
  rintro done operation rest state state' - ⟨instances, named⟩ hstep
  cases operation with
  | markFault faultPath =>
      obtain ⟨heap, hmark, rfl⟩ := map_eq_ok.mp hstep
      have marked := markFaults_run instances hmark
      exact ⟨marked.sameLinks.instanceTree instances, marked.named named⟩
  | injectFaults =>
      obtain ⟨injection, rfl⟩ := injectFaults_injection instances hstep
      exact ⟨injection.instanceTree instances, injection.named instances named⟩
  | dump =>
      obtain ⟨written, -, rfl⟩ := map_eq_ok.mp hstep
      exact ⟨instances, named⟩

omit [UnicodeData] in
theorem mem_outline_unfold {heap : Heap} {size : Nat} (forest : Forest heap.childrenOf size)
    {bound depth ref : Nat} (href : ref < size) :
    ∀ entry ∈ Rose.outline depth (Rose.unfold heap.childrenOf heap.shown bound ref),
      ∃ inst, inst < size ∧ entry.2 = heap.shown inst := by
  have hrow : ∀ (row : List Nat) (tree : Nat → Rose Shown) (depth : Nat),
      (∀ child ∈ row, ∀ entry ∈ Rose.outline depth (tree child),
        ∃ inst, inst < size ∧ entry.2 = heap.shown inst) →
      ∀ entry ∈ Rose.outlines depth (row.map tree),
        ∃ inst, inst < size ∧ entry.2 = heap.shown inst := by
    intro row tree depth hall entry hentry
    induction row with
    | nil => cases hentry
    | cons child row ih =>
        rcases List.mem_append.mp hentry with hentry | hentry
        · exact hall child (.head _) entry hentry
        · exact ih (fun child' hchild' => hall child' (.tail _ hchild')) hentry
  induction bound generalizing depth ref with
  | zero =>
      intro entry hentry
      rw [List.mem_singleton.mp hentry]
      exact ⟨ref, href, rfl⟩
  | succ bound ih =>
      intro entry hentry
      rcases List.mem_cons.mp hentry with rfl | hentry
      · exact ⟨ref, href, rfl⟩
      · exact hrow _ _ _ (fun child hchild => ih (forest.bounds hchild).2) entry hentry

theorem str_readTree {tree : ModuleTree} (instances : tree.heap.InstanceTree tree.rootInstance)
    (named : tree.heap.Named) {depth : Nat} (hdepth : tree.heap.instances.size ≤ depth) :
    ∃ text, tree.str depth = .ok text ∧ readTree text =
      some (Rose.unfold tree.heap.childrenOf tree.heap.shown tree.heap.instances.size
        tree.rootInstance) := by
  refine ⟨_, instStr_eq instances.forest instances.root_lt
    (Nat.le_trans hdepth (Nat.le_add_left _ _)) [] true, readTree_drawn _ true ?_⟩
  intro entry hentry
  obtain ⟨inst, hinst, heq⟩ := mem_outline_unfold instances.forest instances.root_lt entry hentry
  rw [heq]
  exact ⟨(named.type inst hinst).isPrint, (named.name inst hinst).isPrint⟩

/-- After any row of operations on a tree that was set up, `__str__` returns, and what it
prints determines the tree: the shape, the types, the names and which names are yellow. -/
theorem runAll_readTree {contents rootType : Text} {tree last : ModuleTree}
    (setUp : IsSetUp contents rootType tree) {operations : List TreeOperation}
    (hrun : tree.runAll operations = .ok last) {depth : Nat}
    (hdepth : last.heap.instances.size ≤ depth) :
    ∃ text, last.str depth = .ok text ∧ readTree text =
      some (Rose.unfold last.heap.childrenOf last.heap.shown last.heap.instances.size
        last.rootInstance) := by
  obtain ⟨instances, named⟩ := runAll_named setUp hrun
  exact str_readTree instances named hdepth

end ModuleTree

end Runs

section Nested

attribute [local instance] UnicodeData.ascii

namespace ModuleTree

theorem runAll_readTree_nested :
    ∃ tree last, IsSetUp nestedDesign "Core" tree ∧
      tree.runAll [.markFault "/Root/alu/alu/add/:sum"] = .ok last ∧
      last.heap.instances.size ≤ 10 ∧
      ∃ text, last.str 10 = .ok text ∧ readTree text =
        some (Rose.unfold last.heap.childrenOf last.heap.shown last.heap.instances.size
          last.rootInstance) := by
  have hrun : (setUp nestedDesign "Core" (fun _ => 0) 5 >>= fun tree =>
      (tree.runAll [.markFault "/Root/alu/alu/add/:sum"]).map fun last =>
        decide (last.heap.instances.size ≤ 10)) = .ok true := by
    decide +kernel
  obtain ⟨tree, htree, hrun⟩ := bind_eq_ok.mp hrun
  obtain ⟨last, hlast, hsize⟩ := map_eq_ok.mp hrun
  have hdepth := of_decide_eq_true hsize
  exact ⟨tree, last, ⟨_, _, htree⟩, hlast, hdepth, runAll_readTree ⟨_, _, htree⟩ hlast hdepth⟩

end ModuleTree

end Nested

end FaultInjection
