import FaultInjection.Design.ParseFile
import FaultInjection.Traversal.Rewrite

/-!
# Setting up the tree

What `parse_file` and `setup_tree` establish: the instances form a tree without
marked faults, every instance refers to the module entered under its type, and
the children of an instance are the instantiations found in its text.
-/

namespace FaultInjection

open Text Heap

/-! ## The tree under construction -/

namespace ModuleTree

/-- Type and name of an instance. -/
def label (tree : ModuleTree) (ref : Nat) : Text × Text :=
  ((tree.heap.moduleOf ref).type, tree.heap.nameOf ref)

/-- The invariant of the tree under construction. -/
structure Sound (tree : ModuleTree) : Prop where
  instances : tree.heap.InstanceTree tree.rootInstance
  unmarked : ∀ ref, tree.heap.pathsOf ref = []
  known : ∀ ref, ref < tree.heap.instances.size →
    ∃ type, tree.allModules.get? type = some (tree.heap.moduleRef ref)
  entered : ∀ type ref, tree.allModules.get? type = some ref →
    ref < tree.heap.modules.size ∧ (tree.heap.modules.cell ref).type = type
  reached : ∀ ref, ref < tree.heap.instances.size →
    ref = tree.rootInstance ∨ Forest.Below tree.heap.childrenOf tree.rootInstance ref

theorem Sound.bound {tree : ModuleTree} (sound : tree.Sound) : tree.heap.Bound := by
  intro ref href
  obtain ⟨type, htype⟩ := sound.known ref href
  exact (sound.entered type _ htype).1

/-- What building below one instance keeps: everything but its children. -/
structure Grows (tree tree' : ModuleTree) (node : Nat) : Prop where
  modules : tree'.heap.modules = tree.heap.modules
  draws : tree'.heap.draws = tree.heap.draws
  drawn : tree'.heap.drawn = tree.heap.drawn
  rootInstance : tree'.rootInstance = tree.rootInstance
  allModules : tree'.allModules = tree.allModules
  size : tree.heap.instances.size ≤ tree'.heap.instances.size
  others : ∀ ref, ref < tree.heap.instances.size → ref ≠ node →
    tree'.heap.instances.cell ref = tree.heap.instances.cell ref
  self : ∃ added, tree'.heap.instances.cell node =
    { tree.heap.instances.cell node with
      children := tree.heap.childrenOf node ++ added }

namespace Grows

variable {tree tree' tree'' : ModuleTree} {node : Nat}

theorem refl (tree : ModuleTree) (node : Nat) : Grows tree tree node :=
  ⟨rfl, rfl, rfl, rfl, rfl, Nat.le_refl _, fun _ _ _ => rfl, [], by
    rw [List.append_nil]
    rfl⟩

theorem view {β : Type} (view : ModuleInstance → β)
    (hview : ∀ inst children, view { inst with children := children } = view inst)
    (grows : Grows tree tree' node) {ref : Nat} (href : ref < tree.heap.instances.size) :
    view (tree'.heap.instances.cell ref) = view (tree.heap.instances.cell ref) := by
  by_cases hnode : ref = node
  · obtain ⟨added, hself⟩ := grows.self
    rw [hnode, hself]
    exact hview _ _
  · rw [grows.others ref href hnode]

theorem name (grows : Grows tree tree' node) {ref : Nat}
    (href : ref < tree.heap.instances.size) :
    tree'.heap.nameOf ref = tree.heap.nameOf ref :=
  grows.view ModuleInstance.name (fun _ _ => rfl) href

theorem moduleOf (grows : Grows tree tree' node) {ref : Nat}
    (href : ref < tree.heap.instances.size) :
    tree'.heap.moduleOf ref = tree.heap.moduleOf ref := by
  rw [Heap.moduleOf, Heap.moduleOf, grows.modules,
    grows.view ModuleInstance.module (fun _ _ => rfl) href]

theorem label (grows : Grows tree tree' node) {ref : Nat}
    (href : ref < tree.heap.instances.size) : tree'.label ref = tree.label ref := by
  rw [ModuleTree.label, ModuleTree.label, grows.moduleOf href, grows.name href]

theorem children_of_ne (grows : Grows tree tree' node) {ref : Nat}
    (href : ref < tree.heap.instances.size) (hne : ref ≠ node) :
    tree'.heap.childrenOf ref = tree.heap.childrenOf ref := by
  rw [childrenOf, childrenOf, grows.others ref href hne]

theorem trans (first : Grows tree tree' node) (second : Grows tree' tree'' node) :
    Grows tree tree'' node where
  modules := second.modules.trans first.modules
  draws := second.draws.trans first.draws
  drawn := second.drawn.trans first.drawn
  rootInstance := second.rootInstance.trans first.rootInstance
  allModules := second.allModules.trans first.allModules
  size := Nat.le_trans first.size second.size
  others ref href hne := by
    rw [second.others ref (Nat.lt_of_lt_of_le href first.size) hne,
      first.others ref href hne]
  self := by
    obtain ⟨added, hself⟩ := first.self
    obtain ⟨more, hmore⟩ := second.self
    refine ⟨added ++ more, ?_⟩
    rw [hmore, childrenOf, hself, List.append_assoc]

end Grows

/-! ## Adding a child -/

section AddChild

variable {tree : ModuleTree} {node module : Nat} {name : Text}

theorem addChild_cell_node (hnode : node < tree.heap.instances.size) :
    (tree.addChild node module name).heap.instances.cell node =
      { tree.heap.instances.cell node with
        children := tree.heap.childrenOf node ++ [tree.heap.instances.size] } := by
  rw [addChild, Store.modify_cell_self, Store.alloc_cell_of_lt _ _ hnode]
  rfl

theorem addChild_cell_new (hnode : node < tree.heap.instances.size) :
    (tree.addChild node module name).heap.instances.cell tree.heap.instances.size =
      ⟨module, name, node, [], []⟩ := by
  rw [addChild, Store.modify_cell_of_ne _ _ (Nat.ne_of_gt hnode), Store.alloc_cell_new]

theorem addChild_cell_of_ne {ref : Nat} (hne : ref ≠ node)
    (hnew : ref ≠ tree.heap.instances.size) :
    (tree.addChild node module name).heap.instances.cell ref =
      tree.heap.instances.cell ref := by
  rw [addChild, Store.modify_cell_of_ne _ _ hne, Store.alloc_cell_of_ne _ _ hnew]

theorem addChild_grows (hnode : node < tree.heap.instances.size) :
    Grows tree (tree.addChild node module name) node where
  modules := rfl
  draws := rfl
  drawn := rfl
  rootInstance := rfl
  allModules := rfl
  size := Nat.le_succ _
  others _ href hne := addChild_cell_of_ne hne (Nat.ne_of_lt href)
  self := ⟨_, addChild_cell_node hnode⟩

theorem addChild_childrenOf (hnode : node < tree.heap.instances.size) :
    (tree.addChild node module name).heap.childrenOf =
      Function.update (Function.update tree.heap.childrenOf tree.heap.instances.size [])
        node (tree.heap.childrenOf node ++ [tree.heap.instances.size]) := by
  funext ref
  by_cases href : ref = node
  · rw [href, Function.update_self, childrenOf, addChild_cell_node hnode]
  · rw [Function.update_of_ne href]
    by_cases hnew : ref = tree.heap.instances.size
    · rw [hnew, Function.update_self, childrenOf, addChild_cell_new hnode]
    · rw [Function.update_of_ne hnew, childrenOf, addChild_cell_of_ne href hnew]
      rfl

/-- What lies below another instance still does after a child was added. -/
theorem addChild_below (hnode : node < tree.heap.instances.size) (sound : tree.Sound)
    {above below : Nat} (hbelow : Forest.Below tree.heap.childrenOf above below) :
    Forest.Below (tree.addChild node module name).heap.childrenOf above below := by
  refine Relation.TransGen.mono (fun parent child hchild => ?_) above below hbelow
  have hparent : parent < tree.heap.instances.size :=
    Nat.lt_trans (sound.instances.forest.bounds hchild).1
      (sound.instances.forest.bounds hchild).2
  by_cases heq : parent = node
  · subst heq
    rw [childrenOf, addChild_cell_node hnode]
    exact List.mem_append_left _ hchild
  · rw [(addChild_grows hnode).children_of_ne hparent heq]
    exact hchild

theorem addChild_sound {type : Text} (sound : tree.Sound)
    (hnode : node < tree.heap.instances.size)
    (hmodule : tree.allModules.get? type = some module) :
    (tree.addChild node module name).Sound := by
  have hgrows : Grows tree (tree.addChild node module name) node := addChild_grows hnode
  refine ⟨⟨?_, ?_, ?_⟩, ?_, ?_, sound.entered, ?_⟩
  · rw [addChild_childrenOf hnode]
    exact sound.instances.forest.addChild hnode
  · exact Nat.lt_succ_of_lt sound.instances.root_lt
  · intro parent hroot
    have hlt := sound.instances.root_lt
    by_cases hparent : parent = node
    · rw [hparent, childrenOf, addChild_cell_node hnode, List.mem_append,
        List.mem_singleton] at hroot
      rcases hroot with hroot | hroot
      · exact sound.instances.root_top node hroot
      · exact Nat.ne_of_lt hlt hroot
    · by_cases hnew : parent = tree.heap.instances.size
      · rw [hnew, childrenOf, addChild_cell_new hnode] at hroot
        cases hroot
      · rw [childrenOf, addChild_cell_of_ne hparent hnew] at hroot
        exact sound.instances.root_top parent hroot
  · intro ref
    by_cases hnew : ref = tree.heap.instances.size
    · rw [hnew, pathsOf, addChild_cell_new hnode]
    · by_cases hparent : ref = node
      · rw [hparent, pathsOf, addChild_cell_node hnode]
        exact sound.unmarked node
      · rw [pathsOf, addChild_cell_of_ne hparent hnew]
        exact sound.unmarked ref
  · intro ref href
    by_cases hnew : ref = tree.heap.instances.size
    · refine ⟨type, ?_⟩
      rw [hnew, moduleRef, addChild_cell_new hnode]
      exact hmodule
    · have hold : ref < tree.heap.instances.size :=
        Nat.lt_of_le_of_ne (Nat.lt_succ_iff.mp href) hnew
      obtain ⟨type', htype'⟩ := sound.known ref hold
      refine ⟨type', ?_⟩
      rw [moduleRef, hgrows.view ModuleInstance.module (fun _ _ => rfl) hold]
      exact htype'
  · intro ref href
    by_cases hnew : ref = tree.heap.instances.size
    · have hchild : ref ∈ (tree.addChild node module name).heap.childrenOf node := by
        rw [hnew, childrenOf, addChild_cell_node hnode]
        exact List.mem_append_right _ (.head _)
      rcases sound.reached node hnode with hroot | hroot
      · exact Or.inr (.single (hroot ▸ hchild))
      · exact Or.inr ((addChild_below hnode sound hroot).tail hchild)
    · have hold : ref < tree.heap.instances.size :=
        Nat.lt_of_le_of_ne (Nat.lt_succ_iff.mp href) hnew
      exact (sound.reached ref hold).imp id (addChild_below hnode sound)

end AddChild

/-! ## The recursion -/

variable [UnicodeData]

/-- The instantiations of known modules in the text of a module. -/
def knownChildren (tree : ModuleTree) (moduleText : Text) : List (Text × Text) :=
  (possibleChildren moduleText).filter fun possible =>
    (tree.allModules.get? possible.1).isSome

/-- The children of an instance are the known instantiations in its text. -/
def Complete (tree : ModuleTree) (ref : Nat) : Prop :=
  (tree.heap.childrenOf ref).map tree.label =
    tree.knownChildren (tree.heap.moduleOf ref).moduleText

namespace Grows

variable {tree tree' : ModuleTree} {node : Nat}

theorem knownChildren (grows : Grows tree tree' node) (moduleText : Text) :
    tree'.knownChildren moduleText = tree.knownChildren moduleText := by
  rw [ModuleTree.knownChildren, ModuleTree.knownChildren, grows.allModules]

theorem complete (grows : Grows tree tree' node) (sound : tree.Sound) {ref : Nat}
    (href : ref < tree.heap.instances.size) (hne : ref ≠ node)
    (hcomplete : tree.Complete ref) : tree'.Complete ref := by
  rw [Complete, grows.moduleOf href, grows.knownChildren, grows.children_of_ne href hne,
    ← hcomplete]
  refine List.map_congr_left fun child hchild => ?_
  exact grows.label (sound.instances.forest.bounds hchild).2

end Grows

/-- The outcome of building below one instance that had no children. -/
structure BuiltBelow (tree tree' : ModuleTree) (node : Nat) : Prop where
  grows : Grows tree tree' node
  sound : tree'.Sound
  complete : ∀ ref, tree.heap.instances.size ≤ ref → ref < tree'.heap.instances.size →
    tree'.Complete ref

/-- The step of the loop for one instantiation found in the text. -/
theorem BuiltBelow.step {tree tree' built : ModuleTree} {node module : Nat}
    {type name : Text} (hnode : node < tree.heap.instances.size)
    (below : BuiltBelow tree tree' node)
    (hmodule : tree'.allModules.get? type = some module)
    (inner : BuiltBelow (tree'.addChild node module name) built
      tree'.heap.instances.size)
    (hinner : built.Complete tree'.heap.instances.size) :
    BuiltBelow tree (built.register type tree'.heap.instances.size) node ∧
      ∃ child, built.heap.childrenOf node = tree'.heap.childrenOf node ++ [child] ∧
        built.label child = (type, name) := by
  have hnode' := Nat.lt_of_lt_of_le hnode below.grows.size
  have hadded : (tree'.addChild node module name).Sound :=
    addChild_sound below.sound hnode' hmodule
  have hgrows : Grows tree' (tree'.addChild node module name) node := addChild_grows hnode'
  have hsize : (tree'.addChild node module name).heap.instances.size =
      tree'.heap.instances.size + 1 := rfl
  have hnew : tree'.heap.instances.size <
      (tree'.addChild node module name).heap.instances.size := Nat.lt_succ_self _
  have hne : node ≠ tree'.heap.instances.size := Nat.ne_of_lt hnode'
  have hbuilt : Grows tree' built node := by
    refine ⟨inner.grows.modules, inner.grows.draws, inner.grows.drawn,
      inner.grows.rootInstance, inner.grows.allModules,
      Nat.le_trans (Nat.le_succ _) inner.grows.size, ?_, ?_⟩
    · intro ref hlt hrefNode
      rw [inner.grows.others ref (Nat.lt_succ_of_lt hlt) (Nat.ne_of_lt hlt)]
      exact hgrows.others ref hlt hrefNode
    · refine ⟨[tree'.heap.instances.size], ?_⟩
      rw [inner.grows.others node (Nat.lt_succ_of_lt hnode') hne]
      exact addChild_cell_node hnode'
  have hregister : Grows tree' (built.register type tree'.heap.instances.size) node :=
    ⟨hbuilt.modules, hbuilt.draws, hbuilt.drawn, hbuilt.rootInstance, hbuilt.allModules,
      hbuilt.size, hbuilt.others, hbuilt.self⟩
  refine ⟨⟨below.grows.trans hregister, ?_, ?_⟩, tree'.heap.instances.size, ?_, ?_⟩
  · exact ⟨inner.sound.instances, inner.sound.unmarked, inner.sound.known,
      inner.sound.entered, inner.sound.reached⟩
  · intro ref href hlt
    by_cases hold : ref < tree'.heap.instances.size
    · have hcomplete := below.complete ref href hold
      have hrefNode : ref ≠ node := Nat.ne_of_gt (Nat.lt_of_lt_of_le hnode href)
      exact hbuilt.complete below.sound hold hrefNode hcomplete
    · by_cases hself : ref = tree'.heap.instances.size
      · rw [hself]
        exact hinner
      · refine inner.complete ref ?_ hlt
        rw [hsize]
        omega
  · rw [inner.grows.children_of_ne (Nat.lt_succ_of_lt hnode') hne, childrenOf,
      addChild_cell_node hnode']
  · rw [inner.grows.label hnew, label, Heap.moduleOf, nameOf, addChild_cell_new hnode']
    exact congrArg (·, name) (below.sound.entered type module hmodule).2

/-- `_find_children` builds a complete tree below an instance without children. -/
theorem findChildren_run {depth : Nat} {tree tree' : ModuleTree} {node : Nat}
    (sound : tree.Sound) (hnode : node < tree.heap.instances.size)
    (hnone : tree.heap.childrenOf node = [])
    (hrun : findChildren depth tree node = .ok tree') :
    BuiltBelow tree tree' node ∧ tree'.Complete node := by
  induction depth generalizing tree tree' node with
  | zero => cases hrun
  | succ depth ih =>
      rw [findChildren] at hrun
      -- the children so far are the known ones among the instantiations done
      have hloop := foldlM_induction (fun done state =>
        BuiltBelow tree state node ∧
          (state.heap.childrenOf node).map state.label =
            done.filter fun possible => (tree.allModules.get? possible.1).isSome)
        hrun ⟨⟨.refl tree node, sound, fun ref hle hlt => by omega⟩, by rw [hnone]; rfl⟩ ?_
      · obtain ⟨hbuilt, hchildren⟩ := hloop
        refine ⟨hbuilt, ?_⟩
        rw [Complete, hbuilt.grows.moduleOf hnode, hbuilt.grows.knownChildren, hchildren]
        rfl
      · rintro done ⟨type, name⟩ rest state state' - ⟨hbuilt, hchildren⟩ hstep
        have hmodules := hbuilt.grows.allModules
        rw [List.filter_append, ← hchildren]
        cases hmodule : state.allModules.get? type with
        | none =>
            simp only [hmodule] at hstep
            cases hstep
            rw [hmodules] at hmodule
            refine ⟨hbuilt, ?_⟩
            simp [hmodule]
        | some module =>
            simp only [hmodule] at hstep
            obtain ⟨built, hinner, hstep⟩ := bind_eq_ok.mp hstep
            cases hstep
            have hnode' := Nat.lt_of_lt_of_le hnode hbuilt.grows.size
            have hinnerBuilt := ih (addChild_sound hbuilt.sound hnode' hmodule)
              (Nat.lt_succ_self _) (by rw [childrenOf, addChild_cell_new hnode']) hinner
            obtain ⟨hstepBuilt, child, hchild, hlabel⟩ :=
              hbuilt.step hnode hmodule hinnerBuilt.1 hinnerBuilt.2
            refine ⟨hstepBuilt, ?_⟩
            have hbuiltGrows := hstepBuilt.grows
            have hlabels : (state.heap.childrenOf node).map built.label =
                (state.heap.childrenOf node).map state.label := by
              refine List.map_congr_left fun other hother => ?_
              have hlt := (hbuilt.sound.instances.forest.bounds hother).2
              rw [hinnerBuilt.1.grows.label (Nat.lt_succ_of_lt hlt),
                (addChild_grows hnode').label hlt]
            rw [hmodules] at hmodule
            have hregister : (built.register type state.heap.instances.size).label =
              built.label := rfl
            rw [hregister, register, hchild, List.map_append, hlabels]
            simp [hlabel, hmodule]

end ModuleTree

/-! ## The finished tree -/

variable [UnicodeData]

namespace ModuleTree

/-- The tree is the one that `setup_tree` builds for the contents of a file and a
root type. -/
def IsSetUp (contents rootType : Text) (tree : ModuleTree) : Prop :=
  ∃ draws depth, setUp contents rootType draws depth = .ok tree

/-- The tree before `setup_tree`: the root alone. -/
structure MadeFrom (parsed : Parsed) (rootType : Text) (tree : ModuleTree) : Prop where
  sound : tree.Sound
  modules : tree.heap.modules = parsed.modules
  allModules : tree.allModules = parsed.moduleDict
  rootInstance : tree.rootInstance = 0
  size : tree.heap.instances.size = 1
  childless : tree.heap.childrenOf 0 = []
  label : tree.label 0 = (rootType, "Root".toList)

omit [UnicodeData] in
theorem make_run {parsed : Parsed} {draws : Nat → Nat} {rootType : Text}
    {fresh : ModuleTree} (sound : parsed.Sound)
    (hrun : make parsed draws rootType = .ok fresh) : MadeFrom parsed rootType fresh := by
  rw [make] at hrun
  cases hroot : parsed.moduleDict.get? rootType with
  | none =>
      rw [hroot] at hrun
      cases hrun
  | some root =>
      rw [hroot] at hrun
      cases hrun
      have hnone : ∀ (blank first : ModuleInstance) ref, blank.children = [] →
          first.children = [] →
          (((⟨0, fun _ => blank⟩ : Store ModuleInstance).alloc first).cell ref).children =
            [] := by
        intro blank first ref hblank hfirst
        rw [Store.alloc_first_cell]
        split
        · exact hfirst
        · exact hblank
      refine ⟨⟨⟨⟨?_, ?_, ?_⟩, Nat.zero_lt_one, ?_⟩, ?_, ?_, sound.entered, ?_⟩, rfl, rfl,
        rfl, rfl, hnone _ _ 0 rfl rfl, ?_⟩
      · intro parent child hchild
        rw [childrenOf, hnone _ _ _ rfl rfl] at hchild
        cases hchild
      · intro parent
        rw [childrenOf, hnone _ _ _ rfl rfl]
        exact List.nodup_nil
      · intro parent other child hchild
        rw [childrenOf, hnone _ _ _ rfl rfl] at hchild
        cases hchild
      · intro parent hchild
        rw [childrenOf, hnone _ _ _ rfl rfl] at hchild
        cases hchild
      · intro ref
        rw [pathsOf, Store.alloc_first_cell]
        split <;> rfl
      · intro ref href
        refine ⟨rootType, ?_⟩
        have hzero : ref = 0 := Nat.lt_one_iff.mp href
        rw [hzero, moduleRef, Store.alloc_first_cell, if_pos rfl]
        exact hroot
      · intro ref href
        exact Or.inl (Nat.lt_one_iff.mp href)
      · rw [label, Heap.moduleOf, nameOf, Store.alloc_first_cell, if_pos rfl,
          (sound.entered rootType root hroot).2]

/-- The finished tree. -/
structure BuiltFrom (parsed : Parsed) (rootType : Text) (tree : ModuleTree) : Prop where
  sound : tree.Sound
  modules : tree.heap.modules = parsed.modules
  allModules : tree.allModules = parsed.moduleDict
  rootInstance : tree.rootInstance = 0
  label : tree.label 0 = (rootType, "Root".toList)
  complete : ∀ ref, ref < tree.heap.instances.size → tree.Complete ref

theorem setupTree_run {parsed : Parsed} {rootType : Text} {fresh tree : ModuleTree}
    {depth : Nat} (made : MadeFrom parsed rootType fresh)
    (hrun : fresh.setupTree depth = .ok tree) : BuiltFrom parsed rootType tree := by
  have hroot : (0 : Nat) < fresh.heap.instances.size := by
    rw [made.size]
    exact Nat.zero_lt_one
  rw [setupTree, made.rootInstance] at hrun
  obtain ⟨hbuilt, hcomplete⟩ := findChildren_run made.sound hroot made.childless hrun
  refine ⟨hbuilt.sound, hbuilt.grows.modules.trans made.modules,
    hbuilt.grows.allModules.trans made.allModules,
    hbuilt.grows.rootInstance.trans made.rootInstance,
    (hbuilt.grows.label hroot).trans made.label, ?_⟩
  intro ref href
  by_cases hzero : ref = 0
  · exact hzero ▸ hcomplete
  · refine hbuilt.complete ref ?_ href
    rw [made.size]
    exact Nat.one_le_iff_ne_zero.mpr hzero

theorem IsSetUp.built {contents rootType : Text} {tree : ModuleTree}
    (setUp : IsSetUp contents rootType tree) :
    ∃ parsed, parseFile contents = .ok parsed ∧ BuiltFrom parsed rootType tree := by
  obtain ⟨draws, depth, hrun⟩ := setUp
  rw [ModuleTree.setUp, bind_eq_ok] at hrun
  obtain ⟨parsed, hparse, hrun⟩ := hrun
  obtain ⟨fresh, hmake, hrun⟩ := bind_eq_ok.mp hrun
  exact ⟨parsed, hparse, setupTree_run (make_run (parseFile_sound hparse) hmake) hrun⟩

/-- A design in which an instance bears the name of the instance around it. -/
def nestedDesign : Text := lines [
  "module Core(", "  input  clock", ");", "  ALUUnit alu (", "    .x(clock)", "  );",
  "endmodule",
  "module ALUUnit(", "  input  x", ");", "  ALU alu (", "    .y(x)", "  );", "endmodule",
  "module ALU(", "  input  y", ");", "  Adder add (", "    .z(y)", "  );", "endmodule",
  "module Adder(", "  input  z", ");", "  wire  sum = z;", "endmodule"]

end ModuleTree

end FaultInjection
