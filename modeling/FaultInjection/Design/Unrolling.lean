import FaultInjection.Design.RoundTrip

/-!
# Unrolling the hierarchy

`setup_tree` makes one instance for every chain of instantiations that begins at the
root module, and enters each of them once in the registry of instances, under the type
of its module.
-/

namespace FaultInjection

open Text Heap

/-! ## Positions in a tree -/

namespace Forest

variable {children : Nat → List Nat} {size : Nat}

/-- The node reached from another one by going down to the child at each position. -/
def nodeAt (children : Nat → List Nat) : Nat → List Nat → Option Nat
  | node, [] => some node
  | node, position :: positions =>
      match (children node)[position]? with
      | none => none
      | some child => nodeAt children child positions

theorem nodeAt_append (node : Nat) (positions more : List Nat) :
    nodeAt children node (positions ++ more) =
      (nodeAt children node positions).bind fun below => nodeAt children below more := by
  induction positions generalizing node with
  | nil => rfl
  | cons position positions ih =>
      rw [List.cons_append, nodeAt, nodeAt]
      cases (children node)[position]? with
      | none => rfl
      | some child => exact ih child

theorem nodeAt_concat (node position : Nat) (positions : List Nat) :
    nodeAt children node (positions ++ [position]) =
      (nodeAt children node positions).bind fun below => (children below)[position]? := by
  rw [nodeAt_append]
  congr 1
  funext below
  rw [nodeAt]
  cases (children below)[position]? <;> rfl

theorem exists_nodeAt {above below : Nat} (hbelow : Below children above below) :
    ∃ positions, nodeAt children above positions = some below := by
  induction hbelow with
  | single hmem =>
      obtain ⟨position, hposition⟩ := List.mem_iff_getElem?.mp hmem
      refine ⟨[] ++ [position], ?_⟩
      rw [nodeAt_concat]
      exact hposition
  | tail _ hmem ih =>
      obtain ⟨positions, hpositions⟩ := ih
      obtain ⟨position, hposition⟩ := List.mem_iff_getElem?.mp hmem
      refine ⟨positions ++ [position], ?_⟩
      rw [nodeAt_concat, hpositions]
      exact hposition

theorem eq_or_below_of_nodeAt {above below : Nat} {positions : List Nat}
    (hnode : nodeAt children above positions = some below) :
    below = above ∨ Below children above below := by
  induction positions generalizing above with
  | nil => exact Or.inl (Option.some.inj hnode).symm
  | cons position positions ih =>
      rw [nodeAt] at hnode
      cases hchild : (children above)[position]? with
      | none =>
          rw [hchild] at hnode
          cases hnode
      | some child =>
          rw [hchild] at hnode
          have hmem := List.mem_iff_getElem?.mpr ⟨position, hchild⟩
          rcases ih hnode with rfl | hbelow
          · exact Or.inr (.single hmem)
          · exact Or.inr (.head hmem hbelow)

/-- Positions are read off a node from below: its last one is that among its siblings. -/
theorem nodeAt_injective (forest : Forest children size) {root node : Nat}
    {positions positions' : List Nat} (hnode : nodeAt children root positions = some node)
    (hnode' : nodeAt children root positions' = some node) : positions = positions' := by
  have hroot : ∀ {positions position}, nodeAt children root (positions ++ [position]) ≠
      some root := by
    intro positions position heq
    rw [nodeAt_concat, Option.bind_eq_some_iff] at heq
    obtain ⟨above, habove, hchild⟩ := heq
    have hlt := (forest.bounds (List.mem_iff_getElem?.mpr ⟨position, hchild⟩)).1
    rcases eq_or_below_of_nodeAt habove with rfl | hbelow
    · exact Nat.lt_irrefl _ hlt
    · exact Nat.lt_asymm hlt (forest.lt_of_below hbelow)
  induction positions using List.reverseRecOn generalizing positions' node with
  | nil =>
      cases Option.some.inj hnode
      rcases List.eq_nil_or_concat positions' with rfl | ⟨front, position, rfl⟩
      · rfl
      · exact absurd hnode' (by simpa using! hroot)
  | append_singleton positions position ih =>
      rcases List.eq_nil_or_concat positions' with rfl | ⟨front, position', rfl⟩
      · cases Option.some.inj hnode'
        exact absurd hnode hroot
      · rw [List.concat_eq_append] at hnode' ⊢
        rw [nodeAt_concat, Option.bind_eq_some_iff] at hnode hnode'
        obtain ⟨above, habove, hchild⟩ := hnode
        obtain ⟨above', habove', hchild'⟩ := hnode'
        have hparent := forest.parent_unique (List.mem_iff_getElem?.mpr ⟨position, hchild⟩)
          (List.mem_iff_getElem?.mpr ⟨position', hchild'⟩)
        rw [← hparent] at habove' hchild'
        obtain ⟨hlt, -⟩ := List.getElem?_eq_some_iff.mp hchild
        rw [ih habove habove', (List.getElem?_inj hlt (forest.nodup above)).mp
          (hchild.trans hchild'.symm)]

end Forest

section Hierarchy

variable [UnicodeData]

/-! ## Chains of instantiations -/

namespace Parsed

/-- The instantiations of known modules in the module of a type, in order. -/
def instantiations (parsed : Parsed) (type : Text) : List (Text × Text) :=
  match parsed.module? type with
  | none => []
  | some module => (possibleChildren module.moduleText).filter fun possible =>
      (parsed.moduleDict.get? possible.1).isSome

/-- The type at the end of the chain that takes, from one module to the next, the
instantiation at each position. -/
def chainEnd (parsed : Parsed) : Text → List Nat → Option Text
  | type, [] => some type
  | type, position :: positions =>
      match (parsed.instantiations type)[position]? with
      | none => none
      | some possible => chainEnd parsed possible.1 positions

/-- The registry of `parse_file` has an empty list for every module. -/
theorem enterAll_registry (found : List (Text × Text)) :
    (enterAll found).moduleInstanceDict.keys = (enterAll found).moduleDict.keys ∧
      ∀ type, ((enterAll found).moduleInstanceDict.get? type).getD [] = [] := by
  induction found using List.reverseRecOn with
  | nil => exact ⟨rfl, fun _ => rfl⟩
  | append_singleton found entry ih =>
      obtain ⟨hkeys, hempty⟩ := ih
      rw [enterAll, List.foldl_append, ← enterAll]
      refine ⟨?_, fun type => ?_⟩
      · show ((enterAll found).moduleInstanceDict.set entry.1 []).keys =
          ((enterAll found).moduleDict.set entry.1 _).keys
        by_cases hmem : entry.1 ∈ (enterAll found).moduleDict.keys
        · rw [Dict.keys_set_of_mem (hkeys ▸ hmem), Dict.keys_set_of_mem hmem, hkeys]
        · rw [Dict.keys_set_of_not_mem (hkeys ▸ hmem), Dict.keys_set_of_not_mem hmem, hkeys]
      · show (((enterAll found).moduleInstanceDict.set entry.1 []).get? type).getD [] = []
        rw [Dict.get?_set]
        split
        · rfl
        · exact hempty type

end Parsed

namespace ModuleTree

/-- The instances registered for a type. -/
def registered (tree : ModuleTree) (type : Text) : List Nat :=
  (tree.allModuleInstances.get? type).getD []

/-- The instances are the chains of instantiations from the root module. -/
structure Unrolls (parsed : Parsed) (rootType : Text) (tree : ModuleTree) : Prop where
  /-- Where there is a chain there is an instance, of the type at its end. -/
  chains : ∀ positions,
    (Forest.nodeAt tree.heap.childrenOf tree.rootInstance positions).map
        (fun node => (tree.heap.moduleOf node).type) = parsed.chainEnd rootType positions
  /-- Every instance belongs to exactly one chain. -/
  positions : ∀ node, node < tree.heap.instances.size ↔ ∃ positions,
    Forest.nodeAt tree.heap.childrenOf tree.rootInstance positions = some node ∧
      ∀ positions', Forest.nodeAt tree.heap.childrenOf tree.rootInstance positions' = some node →
        positions' = positions
  /-- The children are one instance for each instantiation, in order, and no other's. -/
  children : ∀ node, node < tree.heap.instances.size →
    parsed.module? (tree.heap.moduleOf node).type = some (tree.heap.moduleOf node) ∧
    (tree.heap.childrenOf node).map tree.label =
      parsed.instantiations (tree.heap.moduleOf node).type ∧
    (tree.heap.childrenOf node).Nodup ∧
    ∀ child ∈ tree.heap.childrenOf node, ∀ other, child ∈ tree.heap.childrenOf other →
      other = node

/-- The registry lists every instance once, under the type of its module. -/
structure Registered (parsed : Parsed) (tree : ModuleTree) : Prop where
  keys : tree.allModuleInstances.keys = parsed.moduleDict.keys
  nodup : ∀ type, (tree.registered type).Nodup
  mem_iff : ∀ type ref, ref ∈ tree.registered type ↔
    ref < tree.heap.instances.size ∧ (tree.heap.moduleOf ref).type = type

theorem BuiltFrom.instantiations_eq {parsed : Parsed} {rootType : Text} {tree : ModuleTree}
    (built : BuiltFrom parsed rootType tree) {node : Nat}
    (hnode : node < tree.heap.instances.size) :
    (tree.heap.childrenOf node).map tree.label =
      parsed.instantiations (tree.heap.moduleOf node).type := by
  rw [built.complete node hnode, Parsed.instantiations, built.module?_moduleOf hnode,
    knownChildren, built.allModules]

theorem BuiltFrom.chainEnd_eq {parsed : Parsed} {rootType : Text} {tree : ModuleTree}
    (built : BuiltFrom parsed rootType tree) {node : Nat}
    (hnode : node < tree.heap.instances.size) (positions : List Nat) :
    (Forest.nodeAt tree.heap.childrenOf node positions).map
        (fun node => (tree.heap.moduleOf node).type) =
      parsed.chainEnd (tree.heap.moduleOf node).type positions := by
  induction positions generalizing node with
  | nil => rfl
  | cons position positions ih =>
      rw [Forest.nodeAt, Parsed.chainEnd, ← built.instantiations_eq hnode, List.getElem?_map]
      cases hchild : (tree.heap.childrenOf node)[position]? with
      | none => rfl
      | some child =>
          have hmem := List.mem_iff_getElem?.mpr ⟨position, hchild⟩
          exact ih (built.sound.instances.forest.bounds hmem).2

theorem BuiltFrom.unrolls {parsed : Parsed} {rootType : Text} {tree : ModuleTree}
    (built : BuiltFrom parsed rootType tree) : Unrolls parsed rootType tree := by
  have instances := built.sound.instances
  refine ⟨fun positions => ?_, fun node => ⟨fun hnode => ?_, ?_⟩, fun node hnode => ?_⟩
  · rw [built.chainEnd_eq instances.root_lt, built.moduleOf_root]
  · have hpositions : ∃ positions, Forest.nodeAt tree.heap.childrenOf tree.rootInstance
        positions = some node := by
      rcases built.sound.reached node hnode with rfl | hbelow
      · exact ⟨[], rfl⟩
      · exact Forest.exists_nodeAt hbelow
    obtain ⟨positions, hpositions⟩ := hpositions
    exact ⟨positions, hpositions, fun positions' hpositions' =>
      instances.forest.nodeAt_injective hpositions' hpositions⟩
  · rintro ⟨positions, hpositions, -⟩
    rcases Forest.eq_or_below_of_nodeAt hpositions with rfl | hbelow
    · exact instances.root_lt
    · cases hbelow with
      | single hmem => exact (instances.forest.bounds hmem).2
      | tail _ hmem => exact (instances.forest.bounds hmem).2
  · refine ⟨built.module?_moduleOf hnode, built.instantiations_eq hnode,
      instances.forest.nodup node, fun child hchild other hother => ?_⟩
    exact instances.forest.parent_unique hother hchild

/-! ## The registry -/

omit [UnicodeData] in
/-- An instance that is registered is counted once more under its type. -/
theorem count_registered_register (tree : ModuleTree) (type other : Text) (inst ref : Nat) :
    ((tree.register type inst).registered other).count ref =
      (tree.registered other).count ref + if other = type ∧ ref = inst then 1 else 0 := by
  unfold registered register Dict.push
  rw [Dict.get?_set]
  by_cases htype : other = type
  · rw [if_pos htype, Option.getD_some, List.count_append, List.count_singleton, htype]
    by_cases hinst : ref = inst
    · simp [hinst]
    · simp [hinst, Ne.symm hinst]
  · rw [if_neg htype, if_neg (fun hboth => htype hboth.1), Nat.add_zero]

/-- Between two states of the construction the registry has grown by the instances made,
each once under the type of its module. -/
def Enters (tree tree' : ModuleTree) : Prop :=
  ∀ type ref, (tree'.registered type).count ref = (tree.registered type).count ref +
    if tree.heap.instances.size ≤ ref ∧ ref < tree'.heap.instances.size ∧
      (tree'.heap.moduleOf ref).type = type then 1 else 0

omit [UnicodeData] in
/-- The step of the loop for one instantiation found in the text. -/
theorem Enters.step {tree state built : ModuleTree} {node module : Nat} {type name : Text}
    (enters : Enters tree state) (hsize : tree.heap.instances.size ≤ state.heap.instances.size)
    (hnode : node < state.heap.instances.size)
    (grows : Grows (state.addChild node module name) built state.heap.instances.size)
    (htype : (built.heap.moduleOf state.heap.instances.size).type = type)
    (inner : Enters (state.addChild node module name) built) :
    Enters tree (built.register type state.heap.instances.size) := by
  intro other ref
  have hadded : (state.addChild node module name).heap.instances.size =
      state.heap.instances.size + 1 := rfl
  have hbuilt : state.heap.instances.size < built.heap.instances.size := grows.size
  have hcount := inner other ref
  have hregistered : (state.addChild node module name).registered = state.registered := rfl
  rw [hregistered, hadded, enters other ref] at hcount
  have hlast : (built.register type state.heap.instances.size).heap = built.heap := rfl
  rw [hlast, count_registered_register, hcount]
  rcases Nat.lt_trichotomy ref state.heap.instances.size with hlt | rfl | hgt
  · -- an instance of before
    have hold : built.heap.moduleOf ref = state.heap.moduleOf ref := by
      rw [grows.moduleOf (Nat.lt_succ_of_lt hlt), (addChild_grows hnode).moduleOf hlt]
    simp [hold, hlt, Nat.lt_trans hlt hbuilt, Nat.ne_of_lt hlt, Nat.not_le.mpr (Nat.lt_succ_of_lt hlt)]
  · -- the child itself, which is entered behind those below it
    simp only [Nat.not_succ_le_self, false_and, if_false, Nat.add_zero]
    simp [htype, hsize, hbuilt, eq_comm]
  · -- an instance below the child
    simp [Nat.not_lt.mpr (Nat.le_of_lt hgt), Nat.ne_of_gt hgt, Nat.succ_le_of_lt hgt,
      Nat.le_trans hsize (Nat.le_of_lt hgt)]

/-- Building below an instance enters every instance made, and no key is new. -/
theorem findChildren_enters {depth : Nat} {tree tree' : ModuleTree} {node : Nat}
    (sound : tree.Sound) (hnode : node < tree.heap.instances.size)
    (hnone : tree.heap.childrenOf node = [])
    (hkeys : ∀ type, (tree.allModules.get? type).isSome → type ∈ tree.allModuleInstances.keys)
    (hrun : findChildren depth tree node = .ok tree') :
    Enters tree tree' ∧ tree'.allModuleInstances.keys = tree.allModuleInstances.keys := by
  induction depth generalizing tree tree' node with
  | zero => cases hrun
  | succ depth ih =>
      rw [findChildren] at hrun
      have hloop := foldlM_induction (fun _ state => BuiltBelow tree state node ∧
        Enters tree state ∧ state.allModuleInstances.keys = tree.allModuleInstances.keys) hrun
        ⟨⟨.refl tree node, sound, fun ref hle hlt => by omega⟩, fun type ref => ?_, rfl⟩ ?_
      · exact hloop.2
      · rw [if_neg (by omega), Nat.add_zero]
      · rintro done ⟨type, name⟩ rest state state' - ⟨hbuilt, henters, hstateKeys⟩ hstep
        have hmodules := hbuilt.grows.allModules
        cases hmodule : state.allModules.get? type with
        | none =>
            simp only [hmodule] at hstep
            cases hstep
            exact ⟨hbuilt, henters, hstateKeys⟩
        | some module =>
            simp only [hmodule] at hstep
            obtain ⟨built, hinner, hstep⟩ := bind_eq_ok.mp hstep
            cases hstep
            have hnode' := Nat.lt_of_lt_of_le hnode hbuilt.grows.size
            have hsound : (state.addChild node module name).Sound :=
              addChild_sound hbuilt.sound hnode' hmodule
            have hchildless : (state.addChild node module name).heap.childrenOf
                state.heap.instances.size = [] := by
              rw [childrenOf, addChild_cell_new hnode']
            have hknown : ∀ type, ((state.addChild node module name).allModules.get? type).isSome →
                type ∈ (state.addChild node module name).allModuleInstances.keys := by
              intro other hother
              show other ∈ state.allModuleInstances.keys
              rw [hstateKeys]
              exact hkeys other (hmodules ▸ hother)
            obtain ⟨hbelow, hcomplete⟩ :=
              findChildren_run hsound (Nat.lt_succ_self _) hchildless hinner
            obtain ⟨hinnerEnters, hinnerKeys⟩ :=
              ih hsound (Nat.lt_succ_self _) hchildless hknown hinner
            have hlabel : (built.heap.moduleOf state.heap.instances.size).type = type := by
              rw [hbelow.grows.moduleOf (Nat.lt_succ_self _), addChild_moduleOf_new]
              exact (hbuilt.sound.entered type module hmodule).2
            refine ⟨(hbuilt.step hnode hmodule hbelow hcomplete).1,
              henters.step hbuilt.grows.size hnode' hbelow.grows hlabel hinnerEnters, ?_⟩
            have hmem : type ∈ built.allModuleInstances.keys := by
              rw [hinnerKeys]
              exact hknown type (Option.isSome_iff_exists.mpr ⟨module, hmodule⟩)
            show (built.allModuleInstances.push type state.heap.instances.size).keys = _
            rw [Dict.push, Dict.keys_set_of_mem hmem, hinnerKeys]
            exact hstateKeys

theorem make_registry {contents rootType : Text} {parsed : Parsed} {draws : Nat → Nat}
    {fresh : ModuleTree} (hparse : parseFile contents = .ok parsed)
    (hrun : make parsed draws rootType = .ok fresh) :
    fresh.allModuleInstances.keys = parsed.moduleDict.keys ∧
      ∀ type, fresh.registered type = if type = rootType then [0] else [] := by
  have hregistry := Parsed.enterAll_registry (entries (universalNewlines contents))
  rw [parseFile_eq, Except.ok.injEq] at hparse
  have sound := Parsed.enterAll_sound (entries (universalNewlines contents))
  rw [hparse] at hregistry sound
  obtain ⟨hkeys, hempty⟩ := hregistry
  rw [make] at hrun
  cases hroot : parsed.moduleDict.get? rootType with
  | none =>
      rw [hroot] at hrun
      cases hrun
  | some root =>
      have htype := (sound.entered rootType root hroot).2
      have hmem : rootType ∈ parsed.moduleInstanceDict.keys := by
        rw [hkeys]
        exact Dict.mem_keys_iff.mpr ⟨root, hroot⟩
      rw [hroot] at hrun
      cases hrun
      unfold registered
      simp only [htype]
      rw [Dict.push, Dict.keys_set_of_mem hmem]
      refine ⟨hkeys, fun type => ?_⟩
      rw [Dict.get?_set, hempty]
      split
      · rfl
      · exact hempty type

/-- `setup_tree` returns with every bound on the depth that is large enough, and what it
builds is the unrolled hierarchy with its registry. -/
theorem setUp_unrolls {contents rootType : Text} {parsed : Parsed}
    (hparse : parseFile contents = .ok parsed) (hroot : rootType ∈ parsed.moduleDict.keys)
    (hacyclic : parsed.Acyclic rootType) (draws : Nat → Nat) {depth : Nat}
    (hdepth : parsed.moduleDict.keys.length ≤ depth) :
    ∃ tree, setUp contents rootType draws depth = .ok tree ∧ Unrolls parsed rootType tree ∧
      Registered parsed tree := by
  obtain ⟨tree, htree⟩ := setUp_returns hparse hroot hacyclic draws hdepth
  refine ⟨tree, htree, ?_⟩
  obtain ⟨parsed', hparse', hrun⟩ := bind_eq_ok.mp htree
  rw [hparse, Except.ok.injEq] at hparse'
  subst hparse'
  obtain ⟨fresh, hmake, hrun⟩ := bind_eq_ok.mp hrun
  have made := make_run (parseFile_sound hparse) hmake
  have built := setupTree_run made hrun
  refine ⟨built.unrolls, ?_⟩
  obtain ⟨hfreshKeys, hfresh⟩ := make_registry hparse hmake
  have hzero : 0 < fresh.heap.instances.size := by
    rw [made.size]
    exact Nat.zero_lt_one
  have hknown : ∀ type, (fresh.allModules.get? type).isSome →
      type ∈ fresh.allModuleInstances.keys := by
    intro type htype
    rw [made.allModules] at htype
    rw [hfreshKeys]
    exact Dict.mem_keys_iff.mpr (Option.isSome_iff_exists.mp htype)
  rw [setupTree, made.rootInstance] at hrun
  obtain ⟨henters, hkeys⟩ := findChildren_enters made.sound hzero made.childless hknown hrun
  have hlabel : (tree.heap.moduleOf 0).type = rootType := congrArg Prod.fst built.label
  have hroot_lt : 0 < tree.heap.instances.size := built.rootInstance ▸ built.sound.instances.root_lt
  have hcount : ∀ type ref, (tree.registered type).count ref =
      if ref < tree.heap.instances.size ∧ (tree.heap.moduleOf ref).type = type then 1 else 0 := by
    intro type ref
    rw [henters, hfresh, made.size]
    by_cases href : ref = 0
    · subst href
      rw [hlabel]
      by_cases htype : type = rootType
      · simp [htype, hroot_lt]
      · simp [htype, Ne.symm htype]
    · have hpos : 1 ≤ ref := Nat.one_le_iff_ne_zero.mpr href
      have hnone : (if type = rootType then [0] else ([] : List Nat)).count ref = 0 := by
        split
        · rw [List.count_eq_zero, List.mem_singleton]
          exact href
        · rfl
      rw [hnone, Nat.zero_add]
      simp [hpos]
  refine ⟨hkeys.trans hfreshKeys, fun type => ?_, fun type ref => ?_⟩
  · rw [List.nodup_iff_count_le_one]
    intro ref
    rw [hcount]
    split <;> omega
  · rw [← List.count_pos_iff, hcount]
    split
    · rename_i hboth
      exact ⟨fun _ => hboth, fun _ => Nat.one_pos⟩
    · rename_i hneither
      exact ⟨fun hpos => absurd hpos (Nat.lt_irrefl 0), fun hboth => absurd hboth hneither⟩

end ModuleTree

end Hierarchy

section Nested

attribute [local instance] UnicodeData.ascii

namespace ModuleTree

theorem setUp_unrolls_nested :
    ∃ parsed tree, parseFile nestedDesign = .ok parsed ∧
      setUp nestedDesign "Core" (fun _ => 0) 4 = .ok tree ∧ Unrolls parsed "Core" tree ∧
        Registered parsed tree := by
  have hfacts : (parseFile nestedDesign).map (fun parsed =>
      decide ("Core".toList ∈ parsed.moduleDict.keys ∧ parsed.Ascending ∧
        parsed.moduleDict.keys.length ≤ 4)) = .ok true := by
    decide +kernel
  obtain ⟨parsed, hparse, hfacts⟩ := map_eq_ok.mp hfacts
  obtain ⟨hroot, hascending, hdepth⟩ := of_decide_eq_true hfacts
  obtain ⟨tree, htree⟩ :=
    setUp_unrolls hparse hroot (hascending.acyclic "Core") (fun _ => 0) hdepth
  exact ⟨parsed, tree, hparse, htree⟩

end ModuleTree

end Nested

end FaultInjection
