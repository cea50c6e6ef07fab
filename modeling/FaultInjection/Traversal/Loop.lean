import Mathlib.Data.List.Perm.Subperm
import FaultInjection.Memory.Walk
import FaultInjection.Traversal.Rewrite

/-!
# The loop of `inject_faults`

The loop with its explicit stack calls `inject_faults` on the instances in the
order in which a walk through the tree leaves them.  Along the calls every
instance that is called keeps the module that its own call made for it.
-/

namespace FaultInjection

open Text Heap

/-- A walk through the instances below the root, the last child first. -/
def Heap.Visits (heap : Heap) (root : Nat) (met left : List Nat) : Prop :=
  ∃ names, Walk heap.childrenOf heap.nameOf (heap.childrenOf root).reverse []
    met left names

theorem Heap.InstanceTree.visits {heap : Heap} {root : Nat}
    (tree : InstanceTree heap root) : ∃ met left, heap.Visits root met left := by
  obtain ⟨met, left, names, hwalk⟩ :=
    tree.forest.exists_walk heap.nameOf (heap.childrenOf root).reverse []
  exact ⟨met, left, names, hwalk⟩

namespace Heap.Visits

variable {heap : Heap} {root : Nat} {met left : List Nat}

theorem lt_size (tree : InstanceTree heap root) (visits : heap.Visits root met left)
    {ref : Nat} (href : ref ∈ met) : root < ref ∧ ref < heap.instances.size := by
  obtain ⟨names, walk⟩ := visits
  rcases walk.pending_or_below href with hchild | ⟨top, htop, hbelow⟩
  · exact tree.forest.bounds (List.mem_reverse.mp hchild)
  · have htop := tree.forest.bounds (List.mem_reverse.mp htop)
    refine ⟨Nat.lt_trans htop.1 (tree.forest.lt_of_below hbelow), ?_⟩
    cases hbelow with
    | single hmem => exact (tree.forest.bounds hmem).2
    | tail _ hmem => exact (tree.forest.bounds hmem).2

theorem unique (visits : heap.Visits root met left) {met' left' : List Nat}
    (other : heap.Visits root met' left') : met' = met ∧ left' = left := by
  obtain ⟨names, walk⟩ := visits
  obtain ⟨names', walk'⟩ := other
  obtain ⟨hmet, hleft, -⟩ := walk.unique walk'
  exact ⟨hmet, hleft⟩

theorem mem_left_iff (visits : heap.Visits root met left) {ref : Nat} :
    ref ∈ left ↔ ref ∈ met := by
  obtain ⟨names, walk⟩ := visits
  exact walk.left_perm.mem_iff

theorem met_nodup (tree : InstanceTree heap root) (visits : heap.Visits root met left) :
    met.Nodup := by
  obtain ⟨names, walk⟩ := visits
  exact walk.met_nodup tree.forest (Walk.apart_children tree.forest root)

theorem left_nodup (tree : InstanceTree heap root) (visits : heap.Visits root met left) :
    left.Nodup := by
  have hnodup := visits.met_nodup tree
  obtain ⟨names, walk⟩ := visits
  exact walk.left_perm.nodup_iff.mpr hnodup

theorem met_length_le (tree : InstanceTree heap root)
    (visits : heap.Visits root met left) : met.length ≤ heap.instances.size := by
  have hsubset : met ⊆ List.range heap.instances.size := by
    intro ref href
    exact List.mem_range.mpr (visits.lt_size tree href).2
  have hlength := (List.subperm_of_subset (visits.met_nodup tree) hsubset).length_le
  rwa [List.length_range] at hlength

end Heap.Visits

variable [UnicodeData]

/-- The calls of `inject_faults` on a row of instances. -/
def injectRow (heap : Heap) (row : List Nat) : Except PythonError Heap :=
  row.foldlM (fun heap inst => injectFaults heap inst none) heap

theorem injectRow_extends {heap heap' : Heap} {row : List Nat}
    (hrun : injectRow heap row = .ok heap') : Extends heap heap' := by
  apply foldlM_induction (fun _ state => Extends heap state) hrun (.refl heap)
  intro done inst rest state state' _ hdone hstep
  exact hdone.trans (injectFaults_extends hstep)

theorem injectRow_cons (heap : Heap) (inst : Nat) (row : List Nat) :
    injectRow heap (inst :: row) =
      injectFaults heap inst none >>= fun heap => injectRow heap row := by
  rw [injectRow, List.foldlM_cons]
  rfl

theorem injectRow_of_unmarked {heap : Heap} {row : List Nat}
    (hrow : ∀ inst ∈ row, heap.pathsOf inst = []) : injectRow heap row = .ok heap := by
  induction row with
  | nil => rfl
  | cons inst row ih =>
      have hlength : (heap.instances.cell inst).faultyChildPaths.length = 0 :=
        List.length_eq_zero_iff.mpr (hrow inst (.head _))
      have hcall : injectFaults heap inst none = .ok heap := by
        unfold injectFaults
        rw [if_pos hlength]
        rfl
      rw [injectRow_cons, hcall]
      exact ih fun other hother => hrow other (.tail _ hother)

/-! ## The calls of the loop -/

/-- How the loop ends: it returns, a call raises, or it is still running. -/
inductive LoopEnd where
  | returned (heap : Heap)
  | raised (exception : PythonError)
  | unfinished

namespace LoopEnd

def result : LoopEnd → Except PythonError Heap
  | .returned heap => .ok heap
  | .raised exception => .error exception
  | .unfinished => .error .recursionError

end LoopEnd

/-- The instances on which `inject_faults` was called, in order, and the end. -/
structure LoopRun where
  calls : List Nat
  ending : LoopEnd

namespace LoopRun

def call (heap : Heap) (inst : Nat) : LoopRun :=
  match injectFaults heap inst none with
  | .ok heap => ⟨[inst], .returned heap⟩
  | .error exception => ⟨[inst], .raised exception⟩

/-- Go on where the first run has returned. -/
def andThen (run : LoopRun) (next : Heap → LoopRun) : LoopRun :=
  match run.ending with
  | .returned heap => ⟨run.calls ++ (next heap).calls, (next heap).ending⟩
  | _ => run

/-- `injectLoop` with its calls. -/
def ofLoop : Nat → Heap → List Nat → List Text → LoopRun
  | _, heap, [], _ => ⟨[], .returned heap⟩
  | 0, _, _ :: _, _ => ⟨[], .unfinished⟩
  | fuel + 1, heap, inst :: stack, visited =>
      let object := heap.instances.cell inst
      if object.name ∉ visited then
        ofLoop fuel heap (object.children.reverse ++ inst :: stack) (object.name :: visited)
      else (call heap inst).andThen fun heap => ofLoop fuel heap stack visited

/-- `injectRow` with its calls. -/
def ofRow (heap : Heap) : List Nat → LoopRun
  | [] => ⟨[], .returned heap⟩
  | inst :: row => (call heap inst).andThen fun heap => ofRow heap row

theorem call_result (heap : Heap) (inst : Nat) :
    (call heap inst).ending.result = injectFaults heap inst none := by
  rw [call]
  cases injectFaults heap inst none <;> rfl

omit [UnicodeData] in
theorem andThen_result (run : LoopRun) (next : Heap → LoopRun) :
    (run.andThen next).ending.result =
      run.ending.result >>= fun heap => (next heap).ending.result := by
  obtain ⟨calls, ending⟩ := run
  cases ending <;> rfl

omit [UnicodeData] in
theorem andThen_assoc (run : LoopRun) (next last : Heap → LoopRun) :
    (run.andThen next).andThen last = run.andThen fun heap => (next heap).andThen last := by
  obtain ⟨calls, ending⟩ := run
  cases ending with
  | returned heap =>
      simp only [andThen]
      obtain ⟨more, ending⟩ := next heap
      cases ending with
      | returned heap' => simp
      | raised exception => rfl
      | unfinished => rfl
  | raised exception => rfl
  | unfinished => rfl

omit [UnicodeData] in
theorem andThen_congr {run : LoopRun} {next next' : Heap → LoopRun}
    (hnext : ∀ heap, run.ending.result = .ok heap → next heap = next' heap) :
    run.andThen next = run.andThen next' := by
  obtain ⟨calls, ending⟩ := run
  cases ending with
  | returned heap => simp only [andThen, hnext heap rfl]
  | raised exception => rfl
  | unfinished => rfl

theorem ofLoop_result (fuel : Nat) (heap : Heap) (stack : List Nat) (visited : List Text) :
    (ofLoop fuel heap stack visited).ending.result =
      ModuleTree.injectLoop fuel heap stack visited := by
  induction fuel generalizing heap stack visited with
  | zero => cases stack <;> rfl
  | succ fuel ih =>
      cases stack with
      | nil => rfl
      | cons inst stack =>
          simp only [ofLoop, ModuleTree.injectLoop]
          split
          · exact ih _ _ _
          · simp only [andThen_result, call_result, ih]

theorem ofRow_result (heap : Heap) (row : List Nat) :
    (ofRow heap row).ending.result = injectRow heap row := by
  induction row generalizing heap with
  | nil => rfl
  | cons inst row ih =>
      rw [ofRow, andThen_result, call_result, injectRow_cons]
      simp only [ih]

theorem ofRow_append (heap : Heap) (row more : List Nat) :
    ofRow heap (row ++ more) = (ofRow heap row).andThen fun heap => ofRow heap more := by
  induction row generalizing heap with
  | nil => rfl
  | cons inst row ih =>
      rw [List.cons_append, ofRow, ofRow, andThen_assoc]
      simp only [ih]

theorem ofRow_calls (heap : Heap) (row : List Nat) :
    (ofRow heap row).ending ≠ .unfinished ∧ (ofRow heap row).calls <+: row ∧
      ∀ heap', (ofRow heap row).ending = .returned heap' → (ofRow heap row).calls = row := by
  induction row generalizing heap with
  | nil => exact ⟨LoopEnd.noConfusion, List.prefix_refl _, fun _ _ => rfl⟩
  | cons inst row ih =>
      rw [ofRow, call]
      cases injectFaults heap inst none with
      | error exception =>
          exact ⟨LoopEnd.noConfusion, ⟨row, rfl⟩, fun _ hending => LoopEnd.noConfusion hending⟩
      | ok heap =>
          obtain ⟨hfinished, hcalls, hall⟩ := ih heap
          refine ⟨hfinished, (List.prefix_cons_inj inst).mpr hcalls, fun heap' hending => ?_⟩
          exact congrArg (inst :: ·) (hall heap' hending)

/--
The loop takes the instances of a walk off the stack, calling `inject_faults` in
the order in which the walk leaves them, and goes on with the rest of the stack.
-/
theorem ofLoop_walk {first : Heap} {pending met left : List Nat} {names names' : List Text}
    (walk : Walk first.childrenOf first.nameOf pending names met left names') :
    ∃ cost, cost ≤ 2 * met.length ∧ ∀ heap, SameLinks first heap → ∀ fuel stack,
      ofLoop (cost + fuel) heap (pending ++ stack) names =
        (ofRow heap left).andThen fun heap => ofLoop fuel heap stack names' := by
  induction walk with
  | done names =>
      refine ⟨0, Nat.zero_le _, fun heap _ fuel stack => ?_⟩
      rw [Nat.zero_add, List.nil_append]
      rfl
  | @pass node rest names names' met left known _ ih =>
      obtain ⟨cost, hcost, hloop⟩ := ih
      refine ⟨cost + 1, ?_, fun heap links fuel stack => ?_⟩
      · rw [List.length_cons]
        omega
      · have hname : (heap.instances.cell node).name = first.nameOf node := links.name node
        rw [Nat.add_right_comm, List.cons_append, ofLoop, hname,
          if_neg (not_not_intro known), ofRow, andThen_assoc]
        refine andThen_congr fun heap' hstep => ?_
        rw [call_result] at hstep
        exact hloop heap' (links.trans (injectFaults_extends hstep).links) fuel stack
  | @enter node rest names names₁ names₂ met₁ met₂ left₁ left₂ fresh below _ ih₁ ih₂ =>
      obtain ⟨cost₁, hcost₁, hloop₁⟩ := ih₁
      obtain ⟨cost₂, hcost₂, hloop₂⟩ := ih₂
      refine ⟨cost₁ + (cost₂ + 1) + 1, ?_, fun heap links fuel stack => ?_⟩
      · rw [List.length_cons, List.length_append]
        omega
      · have hname : (heap.instances.cell node).name = first.nameOf node := links.name node
        have hchildren : (heap.instances.cell node).children = first.childrenOf node :=
          links.children node
        rw [Nat.add_right_comm, List.cons_append, ofLoop, hname, if_pos fresh,
          hchildren, Nat.add_assoc cost₁, hloop₁ heap links, ofRow_append, andThen_assoc]
        refine andThen_congr fun heap₁ hrow => ?_
        rw [ofRow_result] at hrow
        have links₁ := links.trans (injectRow_extends hrow).links
        have hname₁ : (heap₁.instances.cell node).name = first.nameOf node :=
          links₁.name node
        have hknown : first.nameOf node ∈ names₁ :=
          (below.mem_names _).mpr (Or.inl (.head _))
        rw [Nat.add_right_comm, ofLoop, hname₁, if_neg (not_not_intro hknown), ofRow,
          andThen_assoc]
        refine andThen_congr fun heap₂ hstep => ?_
        rw [call_result] at hstep
        exact hloop₂ heap₂ (links₁.trans (injectFaults_extends hstep).links) fuel stack

/-- With enough fuel the whole loop is the row of calls in the order of the walk. -/
theorem ofLoop_eq_ofRow {heap : Heap} {root : Nat} (tree : InstanceTree heap root)
    {met left : List Nat} (visits : heap.Visits root met left) {fuel : Nat}
    (hfuel : 2 * heap.instances.size ≤ fuel) :
    ofLoop fuel heap (heap.childrenOf root).reverse [] = ofRow heap left := by
  have hlength := visits.met_length_le tree
  obtain ⟨names, walk⟩ := visits
  obtain ⟨cost, hcost, hloop⟩ := ofLoop_walk walk
  have hsplit : fuel = cost + (fuel - cost) := by omega
  have hrun := hloop heap (.refl heap) (fuel - cost) []
  rw [← hsplit, List.append_nil] at hrun
  rw [hrun]
  have hdone : ∀ fuel heap', ofLoop fuel heap' [] names = ⟨[], .returned heap'⟩ := by
    intro fuel heap'
    cases fuel <;> rfl
  simp only [hdone]
  obtain ⟨calls, ending⟩ := ofRow heap left
  cases ending <;> simp [andThen]

end LoopRun

/-- The whole loop is the row of calls in the order of the walk. -/
theorem injectLoop_eq_injectRow {heap : Heap} {root : Nat} (tree : InstanceTree heap root)
    {met left : List Nat} (visits : heap.Visits root met left) :
    ModuleTree.injectLoop (2 * heap.instances.size) heap (heap.childrenOf root).reverse [] =
      injectRow heap left := by
  rw [← LoopRun.ofLoop_result, LoopRun.ofLoop_eq_ofRow tree visits (Nat.le_refl _),
    LoopRun.ofRow_result]

/-! ## What a row of calls leaves behind -/

/-- The call on an instance during a run, and the module that it still has after. -/
structure CalledOn (heap heap' : Heap) (inst : Nat) (faultDriver : Option Text) where
  before : Heap
  rewriting : Rewriting before inst faultDriver
  earlier : Extends heap before
  later : Extends rewriting.result heap'
  module_before : before.moduleRef inst = heap.moduleRef inst
  module_after : heap'.moduleRef inst = before.modules.size

namespace CalledOn

variable {heap heap' : Heap} {inst : Nat} {faultDriver : Option Text}

theorem moduleOf_after (called : CalledOn heap heap' inst faultDriver) :
    heap'.moduleOf inst = called.rewriting.module := by
  have href : heap'.moduleOf inst = heap'.modules.cell called.before.modules.size := by
    rw [moduleOf, ← called.module_after]
    rfl
  rw [href, called.later.modules_cell _ (Nat.lt_succ_self _), Rewriting.result_cell]

theorem fresh (called : CalledOn heap heap' inst faultDriver) :
    heap.modules.size ≤ heap'.moduleRef inst ∧
      heap'.moduleRef inst < heap'.modules.size := by
  rw [called.module_after]
  exact ⟨called.earlier.modules_size,
    Nat.lt_of_lt_of_le (Nat.lt_succ_self _) called.later.modules_size⟩

end CalledOn

/-- The effect of the calls on a row of instances, each with its own driver type. -/
structure InjectedRow (heap heap' : Heap) (driverOf : Nat → Option Text)
    (row : List Nat) : Prop where
  grown : Extends heap heap'
  bound : heap.Bound → heap'.Bound
  untouched : ∀ inst, (inst ∉ row ∨ heap.pathsOf inst = []) →
    heap'.moduleRef inst = heap.moduleRef inst
  called : ∀ inst ∈ row, heap.pathsOf inst ≠ [] →
    Nonempty (CalledOn heap heap' inst (driverOf inst))
  own : heap.Bound → ∀ inst ∈ row, heap.pathsOf inst ≠ [] →
    ∀ other, other < heap.instances.size → other ≠ inst →
      heap'.moduleRef other ≠ heap'.moduleRef inst

theorem CalledOn.step {heap heap' heap'' : Heap} {inst other : Nat}
    {faultDriver faultDriver' : Option Text}
    (called : CalledOn heap heap' inst faultDriver)
    (hrun : injectFaults heap' other faultDriver' = .ok heap'') (hne : inst ≠ other) :
    ∃ later : CalledOn heap heap'' inst faultDriver, later.before = called.before := by
  refine ⟨⟨called.before, called.rewriting, called.earlier,
    called.later.trans (injectFaults_extends hrun), called.module_before, ?_⟩, rfl⟩
  rcases injectFaults_cases hrun with ⟨-, rfl⟩ | ⟨-, rewriting, rfl⟩
  · exact called.module_after
  · rw [Rewriting.result, replaceModule_moduleRef_of_ne heap' hne]
    exact called.module_after

theorem InjectedRow.step {heap heap' heap'' : Heap} {driverOf : Nat → Option Text}
    {row : List Nat} {inst : Nat} (injected : InjectedRow heap heap' driverOf row)
    (hinst : inst ∉ row) (hrun : injectFaults heap' inst (driverOf inst) = .ok heap'') :
    InjectedRow heap heap'' driverOf (row ++ [inst]) where
  grown := injected.grown.trans (injectFaults_extends hrun)
  bound hbound := injectFaults_bound hrun (injected.bound hbound)
  untouched other hother := by
    rw [List.mem_append, List.mem_singleton, not_or] at hother
    rcases injectFaults_cases hrun with ⟨-, rfl⟩ | ⟨hpaths, rewriting, rfl⟩
    · exact injected.untouched other (hother.imp And.left id)
    · have hne : other ≠ inst := by
        rintro rfl
        rw [injected.grown.paths] at hpaths
        exact hother.elim (fun hnot => hnot.2 rfl) hpaths
      rw [Rewriting.result, replaceModule_moduleRef_of_ne heap' hne]
      exact injected.untouched other (hother.imp And.left id)
  called other hother hpaths := by
    rcases List.mem_append.mp hother with hother | hother
    · obtain ⟨called⟩ := injected.called other hother hpaths
      obtain ⟨later, -⟩ := called.step hrun fun heq => hinst (heq ▸ hother)
      exact ⟨later⟩
    · rw [List.mem_singleton] at hother
      subst hother
      rcases injectFaults_cases hrun with ⟨hempty, rfl⟩ | ⟨-, rewriting, rfl⟩
      · rw [injected.grown.paths] at hempty
        exact absurd hempty hpaths
      · exact ⟨heap', rewriting, injected.grown, .refl _,
          injected.untouched other (Or.inl hinst),
          heap'.replaceModule_moduleRef_self other _ _⟩
  own hbound other hother hpaths third hthird hne := by
    have hsize : ∀ ref, ref < heap.instances.size →
        heap'.moduleRef ref < heap'.modules.size := by
      intro ref href
      exact injected.bound hbound ref (injected.grown.links.size.symm ▸ href)
    rcases injectFaults_cases hrun with ⟨hempty, rfl⟩ | ⟨-, rewriting, rfl⟩
    · have hrow : other ∈ row := by
        rcases List.mem_append.mp hother with hother | hother
        · exact hother
        · rw [List.mem_singleton] at hother
          rw [injected.grown.paths, ← hother] at hempty
          exact absurd hempty hpaths
      exact injected.own hbound other hrow hpaths third hthird hne
    · rw [Rewriting.result]
      by_cases hthirdInst : third = inst
      · -- the third instance has just got a module that is new
        subst hthirdInst
        have hrow : other ∈ row := by
          rcases List.mem_append.mp hother with hother | hother
          · exact hother
          · exact absurd (List.mem_singleton.mp hother).symm hne
        obtain ⟨called⟩ := injected.called other hrow hpaths
        rw [replaceModule_moduleRef_self, replaceModule_moduleRef_of_ne heap' hne.symm]
        exact Nat.ne_of_gt called.fresh.2
      · rw [replaceModule_moduleRef_of_ne heap' hthirdInst]
        rcases List.mem_append.mp hother with hrow | hother
        · have hotherInst : other ≠ inst := by
            rintro rfl
            exact hinst hrow
          rw [replaceModule_moduleRef_of_ne heap' hotherInst]
          exact injected.own hbound other hrow hpaths third hthird hne
        · rw [List.mem_singleton] at hother
          rw [hother, replaceModule_moduleRef_self]
          exact Nat.ne_of_lt (hsize third hthird)

theorem injectRow_run {heap heap' : Heap} {driverOf : Nat → Option Text} {row : List Nat}
    (hnodup : row.Nodup) (hdriver : ∀ inst ∈ row, driverOf inst = none)
    (hrun : injectRow heap row = .ok heap') : InjectedRow heap heap' driverOf row := by
  refine foldlM_induction (fun done state => InjectedRow heap state driverOf done) hrun ?_ ?_
  · refine ⟨.refl heap, id, fun _ _ => rfl, ?_, ?_⟩
    · intro inst hinst
      cases hinst
    · intro _ inst hinst
      cases hinst
  · intro done inst rest state state' hrow hdone hstep
    have hnone : driverOf inst = none := by
      apply hdriver inst
      rw [hrow]
      exact List.mem_append_right _ (.head _)
    refine hdone.step ?_ (hnone.symm ▸ hstep)
    rw [hrow, List.nodup_append] at hnodup
    exact fun hinst => hnodup.2.2 inst hinst inst (.head _) rfl

/-- The call on an instance finds the heap that the calls in front of it leave. -/
theorem exists_calledOn {heap heap' : Heap} {done rest : List Nat} {inst : Nat}
    (hnodup : (done ++ inst :: rest).Nodup) (hpaths : heap.pathsOf inst ≠ [])
    (hrun : injectRow heap (done ++ inst :: rest) = .ok heap') :
    ∃ called : CalledOn heap heap' inst none, injectRow heap done = .ok called.before := by
  obtain ⟨before, hdone, hcalls⟩ := foldlM_append_eq_ok.mp hrun
  obtain ⟨after, hcall, hrest⟩ := foldlM_cons_eq_ok.mp hcalls
  rw [List.nodup_append, List.nodup_cons] at hnodup
  obtain ⟨hnodupDone, ⟨hrestInst, hnodupRest⟩, hdisjoint⟩ := hnodup
  have hdoneInst : inst ∉ done := fun hmem => hdisjoint inst hmem inst (.head _) rfl
  have earlier : InjectedRow heap before (fun _ => none) done :=
    injectRow_run hnodupDone (fun _ _ => rfl) hdone
  have later : InjectedRow after heap' (fun _ => none) rest :=
    injectRow_run hnodupRest (fun _ _ => rfl) hrest
  rcases injectFaults_cases hcall with ⟨hempty, -⟩ | ⟨-, rewriting, rfl⟩
  · rw [earlier.grown.paths] at hempty
    exact absurd hempty hpaths
  · refine ⟨⟨before, rewriting, earlier.grown, later.grown,
      earlier.untouched inst (Or.inl hdoneInst), ?_⟩, hdone⟩
    rw [later.untouched inst (Or.inl hrestInst)]
    exact before.replaceModule_moduleRef_self inst _ _

end FaultInjection
