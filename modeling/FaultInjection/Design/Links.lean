import FaultInjection.Design.SetUp

/-!
# Links to the parents

In a tree that was set up every child refers to its parent, so the parents of an
instance are the line of instances down to it and `get_path` prints their names.
-/

namespace FaultInjection

open Regex Regex.Pattern Text Heap

namespace Heap

def parentOf (heap : Heap) (ref : Nat) : Option Nat := (heap.instances.cell ref).parent

/-- The links to the parents belong to the lists of children. -/
structure Linked (heap : Heap) (root : Nat) : Prop where
  child : ∀ parent, ∀ child ∈ heap.childrenOf parent, heap.parentOf child = .some parent
  top : heap.parentOf root = none

theorem Linked.congr {heap heap' : Heap} {root : Nat} (linked : Linked heap root)
    (links : SameLinks heap heap') (parents : ∀ ref, heap'.parentOf ref = heap.parentOf ref) :
    Linked heap' root where
  child parent child hchild := by
    rw [parents]
    rw [links.children] at hchild
    exact linked.child parent child hchild
  top := (parents root).trans linked.top

/-- Walking up a line leads from its last instance to its first one. -/
theorem Linked.allParentsWithin {heap : Heap} {root : Nat} (linked : Linked heap root)
    {above below : Nat} {nodes : List Nat} (line : Forest.Line heap.childrenOf above below nodes)
    (appendRoot : Bool) (fuel : Nat) :
    heap.allParentsWithin appendRoot (nodes.tail.length + fuel) below =
      (heap.allParentsWithin appendRoot fuel above).map (nodes.tail.reverse ++ ·) := by
  induction line generalizing fuel with
  | here node =>
      rw [List.tail_cons, List.length_nil, Nat.zero_add]
      cases heap.allParentsWithin appendRoot fuel node <;> rfl
  | @down above child below nodes hmem line ih =>
      have hparent : (heap.instances.cell child).parent = .some above :=
        linked.child above child hmem
      have hstep : heap.allParentsWithin appendRoot (fuel + 1) child =
          (heap.allParentsWithin appendRoot fuel above).map (child :: ·) := by
        simp only [Heap.allParentsWithin, hparent]
      obtain ⟨rest, rfl⟩ := line.exists_cons
      have hwalk := ih (fuel + 1)
      rw [List.tail_cons] at hwalk
      rw [List.tail_cons, List.length_cons, Nat.add_right_comm, Nat.add_assoc, hwalk, hstep]
      cases heap.allParentsWithin appendRoot fuel above with
      | error exception => rfl
      | ok parents => simp [Except.map]

/-- The parents of an instance are the line from the root down to it. -/
theorem Linked.getAllParents {heap : Heap} {root : Nat} (linked : Linked heap root)
    (tree : InstanceTree heap root) {ref : Nat} (href : ref < heap.instances.size)
    {nodes : List Nat} (line : Forest.Line heap.childrenOf root ref nodes) (appendRoot : Bool) :
    heap.getAllParents ref appendRoot =
      .ok (if appendRoot then nodes else nodes.tail).reverse := by
  have hlength := line.length_le tree.forest
  obtain ⟨rest, rfl⟩ := line.exists_cons
  rw [List.length_cons] at hlength
  have hfuel : heap.instances.size =
      (root :: rest).tail.length + (heap.instances.size - rest.length - 1 + 1) := by
    rw [List.tail_cons]
    omega
  have htop : (heap.instances.cell root).parent = none := linked.top
  rw [Heap.getAllParents, hfuel, linked.allParentsWithin line, Heap.allParentsWithin, htop]
  cases appendRoot <;> simp [Except.map]

/-- The path of an instance spells the names of the line down to it. -/
theorem Linked.getPath {heap : Heap} {root : Nat} (linked : Linked heap root)
    (tree : InstanceTree heap root) {ref : Nat} (href : ref < heap.instances.size)
    {nodes : List Nat} (line : Forest.Line heap.childrenOf root ref nodes) :
    heap.getPath ref true = .ok (FaultPath.spell (nodes.map heap.nameOf)) := by
  rw [Heap.getPath, linked.getAllParents tree href line, if_pos rfl, Except.map,
    List.reverse_reverse, FaultPath.spell, List.flatMap_map]
  rfl

end Heap

namespace ModuleTree

theorem addChild_linked {tree : ModuleTree} (sound : tree.Sound) {node module : Nat} {name : Text}
    (hnode : node < tree.heap.instances.size)
    (linked : tree.heap.Linked tree.rootInstance) :
    (tree.addChild node module name).heap.Linked tree.rootInstance := by
  have hgrows : Grows tree (tree.addChild node module name) node := addChild_grows hnode
  have hparent : ∀ ref, ref < tree.heap.instances.size →
      (tree.addChild node module name).heap.parentOf ref = tree.heap.parentOf ref :=
    fun ref href => hgrows.view ModuleInstance.parent (fun _ _ => rfl) href
  have hold : ∀ parent, ∀ child ∈ tree.heap.childrenOf parent,
      (tree.addChild node module name).heap.parentOf child = .some parent := by
    intro parent child hchild
    rw [hparent child (sound.instances.forest.bounds hchild).2]
    exact linked.child parent child hchild
  refine ⟨fun parent child hchild => ?_, ?_⟩
  · rw [addChild_childrenOf hnode] at hchild
    by_cases heq : parent = node
    · rw [heq, Function.update_self, List.mem_append, List.mem_singleton] at hchild
      rcases hchild with hchild | rfl
      · exact heq ▸ hold node child hchild
      · rw [parentOf, addChild_cell_new hnode, heq]
    · rw [Function.update_of_ne heq] at hchild
      by_cases hnew : parent = tree.heap.instances.size
      · rw [hnew, Function.update_self] at hchild
        cases hchild
      · rw [Function.update_of_ne hnew] at hchild
        exact hold parent child hchild
  · rw [hparent _ sound.instances.root_lt]
    exact linked.top

variable [UnicodeData]

theorem findChildren_linked {depth : Nat} {tree tree' : ModuleTree} {node : Nat}
    (sound : tree.Sound) (hnode : node < tree.heap.instances.size)
    (linked : tree.heap.Linked tree.rootInstance)
    (hrun : findChildren depth tree node = .ok tree') :
    tree'.rootInstance = tree.rootInstance ∧ tree'.heap.Linked tree.rootInstance := by
  induction depth generalizing tree tree' node with
  | zero => cases hrun
  | succ depth ih =>
      rw [findChildren] at hrun
      have hloop := foldlM_induction (fun _ state =>
        state.Sound ∧ node < state.heap.instances.size ∧
          state.rootInstance = tree.rootInstance ∧ state.heap.Linked tree.rootInstance)
        hrun ⟨sound, hnode, rfl, linked⟩ ?_
      · exact hloop.2.2
      · rintro done ⟨type, name⟩ rest state state' - ⟨hsound, hlt, hroot, hlinked⟩ hstep
        cases hmodule : state.allModules.get? type with
        | none =>
            simp only [hmodule] at hstep
            cases hstep
            exact ⟨hsound, hlt, hroot, hlinked⟩
        | some module =>
            simp only [hmodule] at hstep
            obtain ⟨built, hinner, hstep⟩ := bind_eq_ok.mp hstep
            cases hstep
            rw [← hroot] at hlinked
            have hadded : (state.addChild node module name).Sound :=
              addChild_sound hsound hlt hmodule
            have hnew : state.heap.instances.size <
                (state.addChild node module name).heap.instances.size := Nat.lt_succ_self _
            have hbuilt := (findChildren_run hadded hnew
              (by rw [childrenOf, addChild_cell_new hlt]) hinner).1
            obtain ⟨hbuiltRoot, hbuiltLinked⟩ :=
              ih hadded hnew (addChild_linked hsound hlt hlinked) hinner
            rw [← hroot]
            exact ⟨⟨hbuilt.sound.instances, hbuilt.sound.unmarked, hbuilt.sound.known,
              hbuilt.sound.entered, hbuilt.sound.reached⟩,
              Nat.lt_of_lt_of_le (Nat.lt_trans hlt hnew) hbuilt.grows.size, hbuiltRoot,
              hbuiltLinked⟩

theorem IsSetUp.linked {contents rootType : Text} {tree : ModuleTree}
    (setUp : IsSetUp contents rootType tree) : tree.heap.Linked tree.rootInstance := by
  obtain ⟨draws, depth, hrun⟩ := setUp
  rw [ModuleTree.setUp, bind_eq_ok] at hrun
  obtain ⟨parsed, hparse, hrun⟩ := hrun
  obtain ⟨fresh, hmake, hrun⟩ := bind_eq_ok.mp hrun
  have made := make_run (parseFile_sound hparse) hmake
  have hlinked : fresh.heap.Linked fresh.rootInstance := by
    rw [make] at hmake
    split at hmake
    · cases hmake
    · cases hmake
      refine ⟨fun parent child hchild => ?_, rfl⟩
      rw [childrenOf, Store.alloc_first_cell] at hchild
      split at hchild <;> cases hchild
  have hroot : fresh.rootInstance < fresh.heap.instances.size := made.sound.instances.root_lt
  obtain ⟨hsame, htree⟩ := findChildren_linked made.sound hroot hlinked hrun
  rwa [hsame]

/-- The names of instances found in a text consist of word characters. -/
theorem isName_of_possibleChild {moduleText : Text} {possible : Text × Text}
    (hmem : possible ∈ possibleChildren moduleText) : IsName possible.2 := by
  obtain ⟨m, hm, rfl⟩ := List.mem_map.mp hmem
  have hproductive : Productive childPattern := by
    have hnewline : "\\n".toList.isEmpty = false := by decide +kernel
    apply productive_of_not_nullable
    rw [childPattern, chain, nullable, nullable_word, hnewline, Bool.false_and]
  obtain ⟨before, following, -, hmatch⟩ := exists_of_mem_findall hproductive hm
  have hreading := mem_of_matchAt hmatch
  simp only [childPattern, chain, maybe, Pattern.some, mem_readings_group, mem_readings_seq,
    mem_readings_word, mem_readings_one, mem_readings_many, mem_readings_alt,
    mem_readings_empty] at hreading
  obtain ⟨_, ⟨_, -, rfl⟩, _, ⟨_, -, _, ⟨_, -, _, ⟨_, ⟨_, -, rfl⟩, _, ⟨_, ⟨_, ⟨_, ⟨c, _, -, hc,
    rfl⟩, _, ⟨others, _, -, hothers, rfl⟩, rfl⟩, rfl⟩, _, ⟨ending, hending, _, ⟨_, -, rfl⟩, rfl⟩,
    rfl⟩, rfl⟩, rfl⟩, rfl⟩, rfl⟩ := hreading
  have hgroups : ending.groups = [] := by
    rcases hending with ⟨_, -, rfl⟩ | rfl <;> rfl
  refine ⟨?_, ?_⟩
  · simp [Match.group, Match.after, Match.close, hgroups]
  · intro d hd
    simp only [Match.group, Match.after, Match.close, hgroups, List.nil_append,
      List.cons_append, List.lookup_cons_self, Option.getD_some, List.mem_cons] at hd
    rcases hd with rfl | hd
    · exact hc
    · exact hothers d hd

/-- Every instance of a tree that was set up has a name of word characters. -/
theorem BuiltFrom.isName {parsed : Parsed} {rootType : Text} {tree : ModuleTree}
    (built : BuiltFrom parsed rootType tree) {ref : Nat} (href : ref < tree.heap.instances.size) :
    IsName (tree.heap.nameOf ref) := by
  rcases built.sound.reached ref href with hroot | hbelow
  · have hlabel : tree.heap.nameOf 0 = "Root".toList := congrArg Prod.snd built.label
    rw [hroot, built.rootInstance, hlabel]
    exact isName_of_ascii (by decide) (by decide)
  · have hparent : ∃ parent, ref ∈ tree.heap.childrenOf parent := by
      cases hbelow with
      | single hmem => exact ⟨_, hmem⟩
      | tail _ hmem => exact ⟨_, hmem⟩
    obtain ⟨parent, hmem⟩ := hparent
    have hbounds := built.sound.instances.forest.bounds hmem
    have hlabel := List.mem_map_of_mem (f := tree.label) hmem
    rw [built.complete parent (Nat.lt_trans hbounds.1 hbounds.2)] at hlabel
    exact isName_of_possibleChild (List.mem_filter.mp hlabel).1

end ModuleTree

end FaultInjection
