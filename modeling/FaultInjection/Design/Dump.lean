import FaultInjection.Traversal.Loop

/-!
# Writing the modules

The loop of `dump` takes every instance of the tree off its stack once and writes
the module of the first instance of each type.
-/

namespace FaultInjection

open Text Heap

/-- The modules of a row of instances that are written: the first of each type that
has not been written yet. -/
def newModules (heap : Heap) : List Nat → List Text → List Module
  | [], _ => []
  | inst :: rest, written =>
      let module := heap.moduleOf inst
      if module.type ∉ written then module :: newModules heap rest (module.type :: written)
      else newModules heap rest written

/-- The types written after a row of instances. -/
def typesAfter (heap : Heap) (row : List Nat) (written : List Text) : List Text :=
  ((newModules heap row written).map Module.type).reverse ++ written

section Rows

variable {heap : Heap} {row : List Nat} {written : List Text}

theorem newModules_cons_new {inst : Nat} (hnew : (heap.moduleOf inst).type ∉ written) :
    newModules heap (inst :: row) written =
      heap.moduleOf inst :: newModules heap row ((heap.moduleOf inst).type :: written) := by
  rw [newModules, if_pos hnew]

theorem newModules_cons_old {inst : Nat} (hold : (heap.moduleOf inst).type ∈ written) :
    newModules heap (inst :: row) written = newModules heap row written := by
  rw [newModules, if_neg (not_not_intro hold)]

theorem typesAfter_cons_new {inst : Nat} (hnew : (heap.moduleOf inst).type ∉ written) :
    typesAfter heap (inst :: row) written =
      typesAfter heap row ((heap.moduleOf inst).type :: written) := by
  rw [typesAfter, newModules_cons_new hnew, typesAfter]
  simp

theorem typesAfter_cons_old {inst : Nat} (hold : (heap.moduleOf inst).type ∈ written) :
    typesAfter heap (inst :: row) written = typesAfter heap row written := by
  rw [typesAfter, newModules_cons_old hold, typesAfter]

theorem newModules_append (row more : List Nat) (written : List Text) :
    newModules heap (row ++ more) written =
      newModules heap row written ++ newModules heap more (typesAfter heap row written) := by
  induction row generalizing written with
  | nil => rfl
  | cons inst row ih =>
      by_cases hold : (heap.moduleOf inst).type ∈ written
      · rw [List.cons_append, newModules_cons_old hold, newModules_cons_old hold,
          typesAfter_cons_old hold, ih]
      · rw [List.cons_append, newModules_cons_new hold, newModules_cons_new hold,
          typesAfter_cons_new hold, ih, List.cons_append]

theorem typesAfter_append (row more : List Nat) (written : List Text) :
    typesAfter heap (row ++ more) written =
      typesAfter heap more (typesAfter heap row written) := by
  rw [typesAfter, newModules_append, List.map_append, List.reverse_append, List.append_assoc,
    ← typesAfter, ← typesAfter]

theorem mem_newModules {module : Module} (hmodule : module ∈ newModules heap row written) :
    module.type ∉ written ∧ ∃ inst ∈ row, module = heap.moduleOf inst := by
  induction row generalizing written with
  | nil => cases hmodule
  | cons inst row ih =>
      by_cases hold : (heap.moduleOf inst).type ∈ written
      · rw [newModules_cons_old hold] at hmodule
        obtain ⟨hnew, other, hother, heq⟩ := ih hmodule
        exact ⟨hnew, other, .tail _ hother, heq⟩
      · rw [newModules_cons_new hold, List.mem_cons] at hmodule
        rcases hmodule with rfl | hmodule
        · exact ⟨hold, inst, .head _, rfl⟩
        · obtain ⟨hnew, other, hother, heq⟩ := ih hmodule
          rw [List.mem_cons, not_or] at hnew
          exact ⟨hnew.2, other, .tail _ hother, heq⟩

theorem newModules_nodup (heap : Heap) (row : List Nat) (written : List Text) :
    ((newModules heap row written).map Module.type).Nodup := by
  induction row generalizing written with
  | nil => exact List.nodup_nil
  | cons inst row ih =>
      by_cases hold : (heap.moduleOf inst).type ∈ written
      · rw [newModules_cons_old hold]
        exact ih written
      · rw [newModules_cons_new hold, List.map_cons, List.nodup_cons]
        refine ⟨fun hmem => ?_, ih _⟩
        obtain ⟨module, hmodule, htype⟩ := List.mem_map.mp hmem
        exact (mem_newModules hmodule).1 (htype ▸ .head _)

/-- The type of every instance of the row is written in the end. -/
theorem exists_newModule {inst : Nat} (hinst : inst ∈ row)
    (hnew : (heap.moduleOf inst).type ∉ written) :
    ∃ module ∈ newModules heap row written, module.type = (heap.moduleOf inst).type := by
  induction row generalizing written with
  | nil => cases hinst
  | cons first row ih =>
      by_cases hold : (heap.moduleOf first).type ∈ written
      · rw [newModules_cons_old hold]
        rcases List.mem_cons.mp hinst with rfl | hinst
        · exact absurd hold hnew
        · exact ih hinst hnew
      · rw [newModules_cons_new hold]
        by_cases hsame : (heap.moduleOf inst).type = (heap.moduleOf first).type
        · exact ⟨_, .head _, hsame.symm⟩
        · rcases List.mem_cons.mp hinst with rfl | hinst
          · exact absurd rfl hsame
          · have hlater : (heap.moduleOf inst).type ∉ (heap.moduleOf first).type :: written := by
              rw [List.mem_cons, not_or]
              exact ⟨hsame, hnew⟩
            obtain ⟨module, hmodule, htype⟩ := ih hinst hlater
            exact ⟨module, .tail _ hmodule, htype⟩

end Rows

namespace ModuleTree

/-- The loop takes the instances of a walk off the stack in the order in which the
walk meets them, provided it meets none twice. -/
theorem dumpLoop_walk {heap : Heap} {pending names met left names' : List Nat}
    (walk : Walk heap.childrenOf id pending names met left names') (hnodup : met.Nodup)
    (hfresh : ∀ ref ∈ met, ref ∉ names) (fuel : Nat) (stack : List Nat)
    (written : List Text) :
    dumpLoop (met.length + fuel) heap (pending ++ stack) written =
      (dumpLoop fuel heap stack (typesAfter heap met written)).map
        (newModules heap met written ++ ·) := by
  have hcompose : ∀ (run : Except PythonError (List Module)) (first second : List Module),
      (run.map (second ++ ·)).map (first ++ ·) = run.map (first ++ second ++ ·) := by
    intro run first second
    cases run with
    | error exception => rfl
    | ok modules => simp [Except.map]
  induction walk generalizing fuel stack written with
  | done =>
      rw [List.length_nil, Nat.zero_add, List.nil_append]
      show _ = (dumpLoop fuel heap stack written).map ([] ++ ·)
      cases dumpLoop fuel heap stack written with
      | error exception => rfl
      | ok modules => rfl
  | @pass node rest names names' met left known _ _ =>
      exact absurd known (hfresh node (.head _))
  | @enter node rest names names₁ names₂ met₁ met₂ left₁ left₂ fresh below walk ih₁ ih₂ =>
      rw [List.nodup_cons, List.mem_append, not_or, List.nodup_append] at hnodup
      obtain ⟨⟨hnode₁, hnode₂⟩, hnodup₁, hnodup₂, hdisjoint⟩ := hnodup
      have hfresh₁ : ∀ ref ∈ met₁, ref ∉ id node :: names := by
        intro ref href hmem
        rcases List.mem_cons.mp hmem with rfl | hmem
        · exact hnode₁ href
        · exact hfresh ref (.tail _ (List.mem_append_left _ href)) hmem
      have hfresh₂ : ∀ ref ∈ met₂, ref ∉ names₁ := by
        intro ref href hmem
        rw [below.mem_names, List.map_id] at hmem
        rcases hmem with hmem | hmem
        · rcases List.mem_cons.mp hmem with rfl | hmem
          · exact hnode₂ href
          · exact hfresh ref (.tail _ (List.mem_append_right _ href)) hmem
        · exact hdisjoint ref hmem ref href rfl
      have hfuel : (node :: (met₁ ++ met₂)).length + fuel =
          met₁.length + (met₂.length + fuel) + 1 := by
        rw [List.length_cons, List.length_append]
        omega
      have hloop := fun written => (ih₁ hnodup₁ hfresh₁ (met₂.length + fuel) (rest ++ stack)
        written).trans (congrArg _ (ih₂ hnodup₂ hfresh₂ fuel stack _))
      rw [hfuel, List.cons_append, dumpLoop, ← childrenOf]
      by_cases hold : (heap.moduleOf node).type ∈ written
      · rw [if_neg (not_not_intro hold), hloop, hcompose, newModules_cons_old hold,
          typesAfter_cons_old hold, newModules_append, typesAfter_append]
      · rw [if_pos hold, hloop, hcompose, newModules_cons_new hold, typesAfter_cons_new hold,
          newModules_append, typesAfter_append]
        cases dumpLoop fuel heap stack _ with
        | error exception => rfl
        | ok modules => simp [Except.map]

/-- A row of all instances in the order in which `dump` takes them off its stack. -/
structure DumpRow (tree : ModuleTree) (row : List Nat) : Prop where
  mem : ∀ ref, ref ∈ row ↔
    ref = tree.rootInstance ∨ Forest.Below tree.heap.childrenOf tree.rootInstance ref
  /-- The last child of the root comes right behind it. -/
  begins : ∀ first last, tree.heap.childrenOf tree.rootInstance = first ++ [last] →
    [tree.rootInstance, last] <+: row

theorem DumpRow.lt_size {tree : ModuleTree} {row : List Nat} (dumpRow : DumpRow tree row)
    (instances : tree.heap.InstanceTree tree.rootInstance) {ref : Nat} (href : ref ∈ row) :
    ref < tree.heap.instances.size := by
  rcases (dumpRow.mem ref).mp href with rfl | hbelow
  · exact instances.root_lt
  · cases hbelow with
    | single hmem => exact (instances.forest.bounds hmem).2
    | tail _ hmem => exact (instances.forest.bounds hmem).2

/-- `dump` returns and writes the first module of each type that an instance below
the root has. -/
theorem dumped_run {tree : ModuleTree}
    (instances : tree.heap.InstanceTree tree.rootInstance) :
    ∃ row, DumpRow tree row ∧ tree.dumped = .ok (newModules tree.heap row []) := by
  obtain ⟨met, left, names, walk⟩ :=
    instances.forest.exists_walk id [tree.rootInstance] []
  have hapart : Walk.Apart tree.heap.childrenOf [tree.rootInstance] := by
    refine ⟨List.nodup_singleton _, fun a ha b hb hbelow => ?_⟩
    rw [List.mem_singleton.mp ha, List.mem_singleton.mp hb] at hbelow
    exact instances.forest.not_below_self _ hbelow
  have hnodup := walk.met_nodup instances.forest hapart
  have hroot := walk.met_of_pending (.head _)
  have hchildren : ∀ ref ∈ met, ∀ child ∈ tree.heap.childrenOf ref, child ∈ met := by
    intro ref href
    obtain ⟨before, after, hsplit⟩ := List.append_of_mem href
    apply walk.children_met hsplit List.not_mem_nil
    rw [hsplit, List.nodup_middle, List.nodup_cons, List.mem_append, not_or] at hnodup
    rw [List.map_id]
    exact hnodup.1.1
  have hmem : ∀ ref, ref ∈ met ↔ ref = tree.rootInstance ∨
      Forest.Below tree.heap.childrenOf tree.rootInstance ref := by
    intro ref
    constructor
    · intro href
      rcases walk.pending_or_below href with hpending | ⟨top, htop, hbelow⟩
      · exact Or.inl (List.mem_singleton.mp hpending)
      · exact Or.inr (List.mem_singleton.mp htop ▸ hbelow)
    · rintro (rfl | hbelow)
      · exact hroot
      · induction hbelow with
        | single hchild => exact hchildren _ hroot _ hchild
        | tail _ hchild ih => exact hchildren _ ih _ hchild
  have hrow : DumpRow tree met := by
    refine ⟨hmem, fun first last hlast => ?_⟩
    cases walk with
    | pass known _ => exact absurd known List.not_mem_nil
    | enter _ below _ =>
        rw [hlast, List.reverse_append, List.reverse_singleton, List.singleton_append] at below
        obtain ⟨met', rfl⟩ := below.exists_met_cons
        exact ⟨_, rfl⟩
  have hlength : met.length ≤ tree.heap.instances.size := by
    have hsubset : met ⊆ List.range tree.heap.instances.size := by
      intro ref href
      exact List.mem_range.mpr (hrow.lt_size instances href)
    have hle := (List.subperm_of_subset hnodup hsubset).length_le
    rwa [List.length_range] at hle
  refine ⟨met, hrow, ?_⟩
  have hloop := dumpLoop_walk walk hnodup (fun _ _ => List.not_mem_nil)
    (tree.heap.instances.size - met.length) [] []
  rw [Nat.add_sub_cancel' hlength, List.append_nil] at hloop
  rw [dumped, hloop, dumpLoop, Except.map, List.append_nil]

end ModuleTree

end FaultInjection
