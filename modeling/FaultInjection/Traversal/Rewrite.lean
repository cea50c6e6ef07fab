import FaultInjection.Marking.Routing

/-!
# One call of `inject_faults`

What a call on one instance does to the objects: with no recorded path nothing;
otherwise the instance gets a fresh module object with the rewritten text, and
every other object stays as it is.
-/

namespace FaultInjection

open Text

namespace Heap

/-- The number of the module object of an instance. -/
def moduleRef (heap : Heap) (ref : Nat) : Nat := (heap.instances.cell ref).module

/-- The module objects of all instances have been allocated. -/
def Bound (heap : Heap) : Prop :=
  ∀ ref, ref < heap.instances.size → heap.moduleRef ref < heap.modules.size

/-- The heap after the module of an instance has been copied. -/
def copyModule (heap : Heap) (self : Nat) : Heap :=
  { heap with
    modules := heap.modules.alloc (heap.moduleOf self)
    instances := heap.instances.modify self fun inst =>
      { inst with module := heap.modules.size } }

/-- The heap after the copy has been changed. -/
def replaceModule (heap : Heap) (self : Nat) (module : Module) (drawn : Nat) : Heap :=
  { heap.copyModule self with
    modules := (heap.copyModule self).modules.modify heap.modules.size fun _ => module
    drawn := drawn }

/-- Later heaps of a run: links, paths and old modules are kept. -/
structure Extends (heap heap' : Heap) : Prop where
  links : SameLinks heap heap'
  paths : ∀ ref, heap'.pathsOf ref = heap.pathsOf ref
  modules_size : heap.modules.size ≤ heap'.modules.size
  modules_cell : ∀ ref, ref < heap.modules.size →
    heap'.modules.cell ref = heap.modules.cell ref

namespace Extends

theorem refl (heap : Heap) : Extends heap heap :=
  ⟨.refl heap, fun _ => rfl, Nat.le_refl _, fun _ _ => rfl⟩

theorem trans {heap heap' heap'' : Heap} (first : Extends heap heap')
    (second : Extends heap' heap'') : Extends heap heap'' where
  links := first.links.trans second.links
  paths ref := (second.paths ref).trans (first.paths ref)
  modules_size := Nat.le_trans first.modules_size second.modules_size
  modules_cell ref href := by
    rw [second.modules_cell ref (Nat.lt_of_lt_of_le href first.modules_size),
      first.modules_cell ref href]

end Extends

theorem copyModule_cell_of_ne (heap : Heap) {self ref : Nat} (hne : ref ≠ self) :
    (heap.copyModule self).instances.cell ref = heap.instances.cell ref := by
  rw [copyModule, Store.modify_cell_of_ne _ _ hne]

theorem copyModule_view {β : Type} (view : ModuleInstance → β)
    (hview : ∀ inst ref, view { inst with module := ref } = view inst)
    (heap : Heap) (self ref : Nat) :
    view ((heap.copyModule self).instances.cell ref) = view (heap.instances.cell ref) := by
  by_cases href : ref = self
  · rw [href, copyModule, Store.modify_cell_self]
    exact hview _ _
  · rw [copyModule_cell_of_ne heap href]

theorem copyModule_links (heap : Heap) (self : Nat) :
    SameLinks heap (heap.copyModule self) where
  size := rfl
  children := copyModule_view ModuleInstance.children (fun _ _ => rfl) heap self
  name := copyModule_view ModuleInstance.name (fun _ _ => rfl) heap self

theorem copyModule_paths (heap : Heap) (self ref : Nat) :
    (heap.copyModule self).pathsOf ref = heap.pathsOf ref :=
  copyModule_view ModuleInstance.faultyChildPaths (fun _ _ => rfl) heap self ref

theorem replaceModule_extends (heap : Heap) (self : Nat) (module : Module) (drawn : Nat) :
    Extends heap (heap.replaceModule self module drawn) where
  links := ⟨rfl, (heap.copyModule_links self).children, (heap.copyModule_links self).name⟩
  paths := heap.copyModule_paths self
  modules_size := Nat.le_succ _
  modules_cell ref href := by
    rw [replaceModule, Store.modify_cell_of_ne _ _ (Nat.ne_of_lt href)]
    exact heap.modules.alloc_cell_of_lt _ href

theorem replaceModule_moduleRef_self (heap : Heap) (self : Nat) (module : Module)
    (drawn : Nat) : (heap.replaceModule self module drawn).moduleRef self =
      heap.modules.size := by
  rw [replaceModule, moduleRef, copyModule, Store.modify_cell_self]

theorem replaceModule_moduleRef_of_ne (heap : Heap) {self ref : Nat} (hne : ref ≠ self)
    (module : Module) (drawn : Nat) :
    (heap.replaceModule self module drawn).moduleRef ref = heap.moduleRef ref :=
  congrArg ModuleInstance.module (heap.copyModule_cell_of_ne hne)

theorem replaceModule_moduleOf_self (heap : Heap) (self : Nat) (module : Module)
    (drawn : Nat) : (heap.replaceModule self module drawn).moduleOf self = module := by
  have href := heap.replaceModule_moduleRef_self self module drawn
  rw [moduleRef] at href
  rw [moduleOf, href, replaceModule, Store.modify_cell_self]

theorem replaceModule_bound {heap : Heap} (hbound : heap.Bound) (self : Nat)
    (module : Module) (drawn : Nat) : (heap.replaceModule self module drawn).Bound := by
  intro ref href
  by_cases hself : ref = self
  · rw [hself, replaceModule_moduleRef_self]
    exact Nat.lt_succ_self _
  · rw [replaceModule_moduleRef_of_ne heap hself]
    exact Nat.lt_succ_of_lt (hbound ref href)

end Heap

open Heap

variable [UnicodeData]

theorem MarkedAll.bound {heap heap' : Heap} {root : Nat} {paths : List Text}
    (marked : MarkedAll heap heap' root paths) (hbound : heap.Bound) : heap'.Bound := by
  intro ref href
  rw [marked.sameLinks.size] at href
  rw [marked.modules, moduleRef, marked.module]
  exact hbound ref href

theorem injectFault_type {module module' : Module} {wire input output : Text}
    {bit : Option BusIndex} {draw : Nat}
    (hrun : module.injectFault wire input output bit draw = .ok module') :
    module'.type = module.type := by
  unfold Module.injectFault at hrun
  split at hrun
  · obtain ⟨substitution, -, hrun⟩ := bind_eq_ok.mp hrun
    obtain ⟨text, -, hrun⟩ := bind_eq_ok.mp hrun
    cases hrun
    rfl
  · split at hrun
    · cases hrun
    · obtain ⟨redirected, -, hrun⟩ := bind_eq_ok.mp hrun
      split at hrun
      · cases hrun
      · obtain ⟨substitution, -, hrun⟩ := bind_eq_ok.mp hrun
        obtain ⟨text, -, hrun⟩ := bind_eq_ok.mp hrun
        cases hrun
        rfl

theorem organizeFault_type {draws : Nat → Nat} {count : Nat} {state state' : Organized}
    {entry : Text × Nat} (hrun : organizeFault draws count state entry = .ok state') :
    state'.module.type = state.module.type := by
  obtain ⟨path, index⟩ := entry
  simp only [organizeFault] at hrun
  split at hrun
  · cases hrun
  · split at hrun
    · cases hrun
    · obtain ⟨module, hmodule, hrun⟩ := bind_eq_ok.mp hrun
      cases hrun
      exact injectFault_type hmodule
  · cases hrun
    rfl

theorem organizeFaults_type {draws : Nat → Nat} {drawn : Nat} {module : Module}
    {paths : List Text} {organized : Organized}
    (hrun : organizeFaults draws drawn module paths = .ok organized) :
    organized.module.type = module.type := by
  apply foldlM_induction (fun _ state => state.module.type = module.type) hrun rfl
  intro done entry rest state state' _ htype hstep
  exact (organizeFault_type hstep).trans htype

/-- The stages of a call on an instance with recorded paths. -/
structure Rewriting (heap : Heap) (ref : Nat) (faultDriver : Option Text) where
  organized : Organized
  rewired : Text
  text : Text
  organize : organizeFaults heap.draws heap.drawn (heap.moduleOf ref)
    (heap.pathsOf ref) = .ok organized
  rewire : rewireChildren (heap.copyModule ref) ref organized.module.moduleText
    organized.childFaults = .ok rewired
  header : rewriteHeader organized.module.type
    (newModuleType organized.module.type rewired) (heap.pathsOf ref).length
    faultDriver rewired = .ok text

namespace Rewriting

variable {heap : Heap} {ref : Nat} {faultDriver : Option Text}

/-- The module that the instance gets. -/
def module (rewriting : Rewriting heap ref faultDriver) : Module :=
  { rewriting.organized.module with
    type := newModuleType rewriting.organized.module.type rewriting.rewired
    moduleText := rewriting.text }

/-- The heap after the call. -/
def result (rewriting : Rewriting heap ref faultDriver) : Heap :=
  heap.replaceModule ref rewriting.module rewriting.organized.drawn

theorem result_cell (rewriting : Rewriting heap ref faultDriver) :
    rewriting.result.modules.cell heap.modules.size = rewriting.module := by
  rw [result, replaceModule, Store.modify_cell_self]

end Rewriting

/-- A call changes nothing or gives the instance a rewritten module of its own. -/
theorem injectFaults_cases {heap heap' : Heap} {self : Nat} {faultDriver : Option Text}
    (hrun : injectFaults heap self faultDriver = .ok heap') :
    (heap.pathsOf self = [] ∧ heap' = heap) ∨
      (heap.pathsOf self ≠ [] ∧
        ∃ rewriting : Rewriting heap self faultDriver, heap' = rewriting.result) := by
  unfold injectFaults at hrun
  by_cases hempty : heap.pathsOf self = []
  · have hlength : (heap.instances.cell self).faultyChildPaths.length = 0 :=
      List.length_eq_zero_iff.mpr hempty
    rw [if_pos hlength] at hrun
    cases hrun
    exact Or.inl ⟨hempty, rfl⟩
  · have hlength : ¬ (heap.instances.cell self).faultyChildPaths.length = 0 :=
      fun hzero => hempty (List.length_eq_zero_iff.mp hzero)
    rw [if_neg hlength, bind_eq_ok] at hrun
    obtain ⟨organized, horganize, hrun⟩ := hrun
    obtain ⟨rewired, hrewire, hrun⟩ := bind_eq_ok.mp hrun
    obtain ⟨text, hheader, hrun⟩ := bind_eq_ok.mp hrun
    cases hrun
    have horganize' : organizeFaults heap.draws heap.drawn (heap.moduleOf self)
        (heap.pathsOf self) = .ok organized := by
      rw [Store.alloc_cell_new] at horganize
      exact horganize
    exact Or.inr ⟨hempty, ⟨organized, rewired, text, horganize', hrewire, hheader⟩, rfl⟩

theorem injectFaults_of_rewriting {heap : Heap} {self : Nat} {faultDriver : Option Text}
    (hne : heap.pathsOf self ≠ []) (rewriting : Rewriting heap self faultDriver) :
    injectFaults heap self faultDriver = .ok rewriting.result := by
  have hlength : ¬ (heap.instances.cell self).faultyChildPaths.length = 0 :=
    fun hzero => hne (List.length_eq_zero_iff.mp hzero)
  unfold injectFaults
  rw [if_neg hlength, bind_eq_ok]
  refine ⟨rewriting.organized, ?_, bind_eq_ok.mpr ⟨rewriting.rewired, rewriting.rewire,
    bind_eq_ok.mpr ⟨rewriting.text, rewriting.header, rfl⟩⟩⟩
  rw [Store.alloc_cell_new]
  exact rewriting.organize

theorem injectFaults_extends {heap heap' : Heap} {self : Nat} {faultDriver : Option Text}
    (hrun : injectFaults heap self faultDriver = .ok heap') : Extends heap heap' := by
  rcases injectFaults_cases hrun with ⟨-, rfl⟩ | ⟨-, rewriting, rfl⟩
  · exact .refl _
  · exact heap.replaceModule_extends self _ _

theorem injectFaults_bound {heap heap' : Heap} {self : Nat} {faultDriver : Option Text}
    (hrun : injectFaults heap self faultDriver = .ok heap') (hbound : heap.Bound) :
    heap'.Bound := by
  rcases injectFaults_cases hrun with ⟨-, rfl⟩ | ⟨-, rewriting, rfl⟩
  · exact hbound
  · exact replaceModule_bound hbound self _ _

end FaultInjection
