import FaultInjection.Injector.Tree
import FaultInjection.Marking.FaultPath
import FaultInjection.Memory.Forest
import FaultInjection.Python.Result

/-!
# Routing of marked faults

A call of `mark_fault` records one entry in every instance of a chain that
starts at the instance it is called on.  The entries of a child are those of its
parent that lead to it, each without its first component.
-/

namespace FaultInjection

open Text

namespace Heap

def childrenOf (heap : Heap) (ref : Nat) : List Nat :=
  (heap.instances.cell ref).children

def nameOf (heap : Heap) (ref : Nat) : Text := (heap.instances.cell ref).name

def pathsOf (heap : Heap) (ref : Nat) : List Text :=
  (heap.instances.cell ref).faultyChildPaths

theorem childNamed?_eq_find (heap : Heap) (ref : Nat) (childName : Text) :
    heap.childNamed? ref childName =
      (heap.childrenOf ref).find? fun child => heap.nameOf child == childName := rfl

theorem mem_of_childNamed? {heap : Heap} {ref child : Nat} {childName : Text}
    (hchild : heap.childNamed? ref childName = some child) :
    child ∈ heap.childrenOf ref :=
  List.mem_of_find?_eq_some hchild

theorem name_of_childNamed? {heap : Heap} {ref child : Nat} {childName : Text}
    (hchild : heap.childNamed? ref childName = some child) :
    heap.nameOf child = childName := by
  have hfound := List.find?_some hchild
  exact beq_iff_eq.mp hfound

/-- The instances form a tree below the root. -/
structure InstanceTree (heap : Heap) (root : Nat) : Prop where
  forest : Forest heap.childrenOf heap.instances.size
  root_lt : root < heap.instances.size
  root_top : ∀ parent, root ∉ heap.childrenOf parent

/-- Two heaps with the same instances up to the recorded paths and the modules. -/
structure SameLinks (heap heap' : Heap) : Prop where
  size : heap'.instances.size = heap.instances.size
  children : ∀ ref, heap'.childrenOf ref = heap.childrenOf ref
  name : ∀ ref, heap'.nameOf ref = heap.nameOf ref

namespace SameLinks

theorem refl (heap : Heap) : SameLinks heap heap :=
  ⟨rfl, fun _ => rfl, fun _ => rfl⟩

theorem symm {heap heap' : Heap} (same : SameLinks heap heap') :
    SameLinks heap' heap :=
  ⟨same.size.symm, fun ref => (same.children ref).symm, fun ref => (same.name ref).symm⟩

theorem trans {heap heap' heap'' : Heap} (first : SameLinks heap heap')
    (second : SameLinks heap' heap'') : SameLinks heap heap'' :=
  ⟨second.size.trans first.size,
    fun ref => (second.children ref).trans (first.children ref),
    fun ref => (second.name ref).trans (first.name ref)⟩

theorem childNamed? {heap heap' : Heap} (same : SameLinks heap heap') (ref : Nat)
    (childName : Text) : heap'.childNamed? ref childName = heap.childNamed? ref childName := by
  rw [childNamed?_eq_find, childNamed?_eq_find, same.children]
  congr 1
  funext child
  rw [same.name]

theorem instanceTree {heap heap' : Heap} (same : SameLinks heap heap') {root : Nat}
    (tree : InstanceTree heap root) : InstanceTree heap' root where
  forest := by
    rw [same.size]
    exact tree.forest.congr same.children
  root_lt := same.size ▸ tree.root_lt
  root_top parent hmem := tree.root_top parent (same.children parent ▸ hmem)

end SameLinks

end Heap

open Heap

/-! ## The chain of a call -/

/-- The entries that a chain records in one instance. -/
def addedAt (chain : List (Nat × Text)) (ref : Nat) : List Text :=
  chain.filterMap fun entry => if entry.1 = ref then some entry.2 else none

theorem addedAt_cons (self : Nat) (path : Text) (chain : List (Nat × Text)) (ref : Nat) :
    addedAt ((self, path) :: chain) ref =
      (if self = ref then [path] else []) ++ addedAt chain ref := by
  rw [addedAt, List.filterMap_cons]
  by_cases hself : self = ref
  · simp [hself, addedAt]
  · simp [hself, addedAt]

/-- The heap after a call: the entries of the chain have been appended. -/
structure Recorded (heap heap' : Heap) (chain : List (Nat × Text)) : Prop where
  modules : heap'.modules = heap.modules
  draws : heap'.draws = heap.draws
  drawn : heap'.drawn = heap.drawn
  size : heap'.instances.size = heap.instances.size
  cell : ∀ ref, heap'.instances.cell ref =
    { heap.instances.cell ref with
      faultyChildPaths := heap.pathsOf ref ++ addedAt chain ref }

namespace Recorded

variable {heap heap' : Heap} {chain : List (Nat × Text)}

theorem paths (recorded : Recorded heap heap' chain) (ref : Nat) :
    heap'.pathsOf ref = heap.pathsOf ref ++ addedAt chain ref := by
  rw [pathsOf, recorded.cell]

theorem sameLinks (recorded : Recorded heap heap' chain) : SameLinks heap heap' where
  size := recorded.size
  children ref := by rw [childrenOf, recorded.cell]; rfl
  name ref := by rw [nameOf, recorded.cell]; rfl

theorem module (recorded : Recorded heap heap' chain) (ref : Nat) :
    (heap'.instances.cell ref).module = (heap.instances.cell ref).module := by
  rw [recorded.cell]

end Recorded

theorem modifyInstance_recorded (heap : Heap) (self : Nat) (path : Text) :
    Recorded heap (heap.modifyInstance self fun inst =>
      { inst with faultyChildPaths := inst.faultyChildPaths ++ [path] })
      [(self, path)] where
  modules := rfl
  draws := rfl
  drawn := rfl
  size := rfl
  cell ref := by
    rw [addedAt_cons]
    by_cases href : self = ref
    · subst href
      rw [modifyInstance, Store.modify_cell_self, if_pos rfl]
      rfl
    · rw [modifyInstance, Store.modify_cell_of_ne _ _ (Ne.symm href), if_neg href]
      simp [addedAt, pathsOf]

theorem Recorded.trans {heap heap' heap'' : Heap} {self : Nat} {path : Text}
    {chain : List (Nat × Text)} (first : Recorded heap heap' [(self, path)])
    (second : Recorded heap' heap'' chain) :
    Recorded heap heap'' ((self, path) :: chain) where
  modules := second.modules.trans first.modules
  draws := second.draws.trans first.draws
  drawn := second.drawn.trans first.drawn
  size := second.size.trans first.size
  cell ref := by
    rw [second.cell, first.paths, first.cell, addedAt_cons, addedAt_cons]
    simp [addedAt]

variable [UnicodeData]

/-- The instances that a path leads through, each with the entry it records. -/
inductive Routes (heap : Heap) : Nat → Text → List (Nat × Text) → Prop where
  | last {self : Nat} {path part : Text} (parts : pathParts path = [part]) :
      Routes heap self path [(self, path)]
  | step {self child : Nat} {path first second remainder : Text} {others : List Text}
      {chain : List (Nat × Text)} (parts : pathParts path = first :: second :: others)
      (found : heap.childNamed? self (second.drop 1) = some child)
      (rest : pathRemainder? path = some remainder)
      (routes : Routes heap child remainder chain) :
      Routes heap self path ((self, path) :: chain)

theorem Routes.congr {heap heap' : Heap} (same : SameLinks heap heap') {self : Nat}
    {path : Text} {chain : List (Nat × Text)} (routes : Routes heap self path chain) :
    Routes heap' self path chain := by
  induction routes with
  | last parts => exact .last parts
  | step parts found rest _ ih =>
      exact .step parts ((same.childNamed? _ _).trans found) rest ih

/-- A call that returns records the entries of a chain and changes nothing else. -/
theorem markFaultWithin_returns {depth : Nat} {heap heap' : Heap} {self : Nat}
    {path : Text} (hrun : markFaultWithin depth heap self path = .ok heap') :
    ∃ chain, Routes heap self path chain ∧ Recorded heap heap' chain := by
  induction depth generalizing heap self path with
  | zero => cases hrun
  | succ depth ih =>
      have hself := modifyInstance_recorded heap self path
      unfold markFaultWithin at hrun
      cases hparts : pathParts path with
      | nil =>
          rw [hparts] at hrun
          cases hrun
      | cons first others =>
          cases others with
          | nil =>
              rw [hparts] at hrun
              cases hrun
              exact ⟨_, .last hparts, hself⟩
          | cons second others =>
              simp only [hparts] at hrun
              split at hrun
              · cases hrun
              · rename_i child hchild
                split at hrun
                · cases hrun
                · rename_i remainder hremainder
                  obtain ⟨chain, hroutes, hrecorded⟩ := ih hrun
                  rw [hself.sameLinks.childNamed?] at hchild
                  exact ⟨_, .step hparts hchild hremainder
                    (hroutes.congr hself.sameLinks.symm), hself.trans hrecorded⟩

/-- What a parent hands to the child of a name for one of its entries. -/
def routeTo (childName path : Text) : Option Text :=
  match pathParts path with
  | _ :: second :: _ => if second.drop 1 = childName then pathRemainder? path else none
  | _ => none

theorem routeTo_single {childName path part : Text} (hparts : pathParts path = [part]) :
    routeTo childName path = none := by
  rw [routeTo, hparts]

theorem routeTo_of_parts {path first second : Text} {others : List Text}
    (hparts : pathParts path = first :: second :: others) (childName : Text) :
    routeTo childName path =
      if second.drop 1 = childName then pathRemainder? path else none := by
  rw [routeTo, hparts]

/-- Every entry that a chain records in a child comes from its parent's entry;
only the first child of its name gets any. -/
theorem addedAt_child {heap : Heap} {root : Nat} (tree : InstanceTree heap root)
    {self : Nat} {path : Text} {chain : List (Nat × Text)}
    (hroutes : Routes heap self path chain) {parent child : Nat} {childName : Text}
    (hmem : child ∈ heap.childrenOf parent) (hname : heap.nameOf child = childName) :
    addedAt chain child = (if self = child then [path] else []) ++
      if heap.childNamed? parent childName = some child then
        (addedAt chain parent).filterMap (routeTo childName)
      else [] := by
  induction hroutes with
  | @last self path part hparts =>
      rw [addedAt_cons, addedAt_cons]
      by_cases hparent : self = parent
      · simp [addedAt, hparent, routeTo_single hparts]
      · simp [addedAt, hparent]
  | @step self next path first second remainder others chain hparts hfound hrest _ ih =>
      have hnextMem := mem_of_childNamed? hfound
      have hnextName := name_of_childNamed? hfound
      rw [addedAt_cons, addedAt_cons, ih]
      by_cases hparent : self = parent
      · subst hparent
        by_cases hsecond : second.drop 1 = childName
        · by_cases hnext : next = child
          · subst hnext
            rw [hsecond] at hfound
            simp [hfound, routeTo_of_parts hparts, hsecond, hrest]
          · rw [hsecond] at hfound
            have hfirst : heap.childNamed? self childName ≠ some child := by
              rw [hfound]
              exact fun heq => hnext (Option.some.inj heq)
            simp [hnext, hfirst]
        · have hnext : next ≠ child := by
            rintro rfl
            exact hsecond (hnextName.symm.trans hname)
          have hroute : routeTo childName path = none := by
            rw [routeTo_of_parts hparts, if_neg hsecond]
          simp [hnext, hroute]
      · have hnext : next ≠ child := by
          rintro rfl
          exact hparent (tree.forest.parent_unique hnextMem hmem)
        simp [hnext, hparent]

theorem Routes.self_or_child {heap : Heap} {self : Nat} {path : Text}
    {chain : List (Nat × Text)} (hroutes : Routes heap self path chain) {ref : Nat}
    (href : addedAt chain ref ≠ []) :
    ref = self ∨ ∃ parent, addedAt chain parent ≠ [] ∧ ref ∈ heap.childrenOf parent := by
  induction hroutes with
  | @last self path part hparts =>
      rw [addedAt_cons] at href
      by_cases hself : self = ref
      · exact Or.inl hself.symm
      · simp [addedAt, hself] at href
  | @step self next path first second remainder others chain hparts hfound hrest _ ih =>
      by_cases hself : self = ref
      · exact Or.inl hself.symm
      · rw [addedAt_cons, if_neg hself, List.nil_append] at href
        apply Or.inr
        rcases ih href with rfl | ⟨parent, hparent, hmem⟩
        · refine ⟨self, ?_, mem_of_childNamed? hfound⟩
          rw [addedAt_cons, if_pos rfl]
          exact List.cons_ne_nil _ _
        · refine ⟨parent, ?_, hmem⟩
          rw [addedAt_cons]
          exact List.append_ne_nil_of_right_ne_nil _ hparent

/-- An entry is for the instance itself, or leads to a child with its remainder. -/
def Handed (heap : Heap) (ref : Nat) (path : Text) : Prop :=
  (∃ part, pathParts path = [part]) ∨
    ∃ first second others child remainder, pathParts path = first :: second :: others ∧
      heap.childNamed? ref (second.drop 1) = some child ∧
      pathRemainder? path = some remainder

theorem Handed.congr {heap heap' : Heap} (same : SameLinks heap heap') {ref : Nat}
    {path : Text} (handed : Handed heap ref path) : Handed heap' ref path := by
  rcases handed with hsingle | ⟨first, second, others, child, remainder, hparts, hchild, hrest⟩
  · exact Or.inl hsingle
  · exact Or.inr ⟨first, second, others, child, remainder, hparts,
      (same.childNamed? _ _).trans hchild, hrest⟩

theorem Routes.handed {heap : Heap} {self : Nat} {path : Text} {chain : List (Nat × Text)}
    (hroutes : Routes heap self path chain) {ref : Nat} {entry : Text}
    (hentry : entry ∈ addedAt chain ref) : Handed heap ref entry := by
  induction hroutes with
  | @last self path part hparts =>
      rw [addedAt_cons] at hentry
      by_cases hself : self = ref
      · have hpath : entry = path := by simpa [hself, addedAt] using hentry
        exact Or.inl ⟨part, hpath ▸ hparts⟩
      · simp [hself, addedAt] at hentry
  | @step self next path first second remainder others chain hparts hfound hrest _ ih =>
      rw [addedAt_cons, List.mem_append] at hentry
      rcases hentry with hentry | hentry
      · by_cases hself : self = ref
        · have hpath : entry = path := by simpa [hself] using hentry
          rw [hpath, ← hself]
          exact Or.inr ⟨first, second, others, next, remainder, hparts, hfound, hrest⟩
        · simp [hself] at hentry
      · exact ih hentry

/-! ## The invariant -/

/-- The lists of all instances correspond to the lists of their parents. -/
structure Routed (heap : Heap) (root : Nat) : Prop where
  child : ∀ parent child, child ∈ heap.childrenOf parent →
    heap.pathsOf child =
      if heap.childNamed? parent (heap.nameOf child) = some child then
        (heap.pathsOf parent).filterMap (routeTo (heap.nameOf child))
      else []
  above : ∀ ref, heap.pathsOf ref ≠ [] →
    ref = root ∨ ∃ parent, heap.pathsOf parent ≠ [] ∧ ref ∈ heap.childrenOf parent
  handed : ∀ ref, ∀ path ∈ heap.pathsOf ref, Handed heap ref path

theorem Routed.of_empty {heap : Heap} (hempty : ∀ ref, heap.pathsOf ref = [])
    (root : Nat) : Routed heap root where
  child parent child _ := by
    rw [hempty, hempty]
    simp
  above ref href := absurd (hempty ref) href
  handed ref path hpath := by
    rw [hempty] at hpath
    cases hpath

theorem Routed.congr {heap heap' : Heap} {root : Nat} (routed : Routed heap root)
    (links : SameLinks heap heap') (paths : ∀ ref, heap'.pathsOf ref = heap.pathsOf ref) :
    Routed heap' root where
  child parent child hmem := by
    rw [links.children] at hmem
    rw [paths, paths, links.name, links.childNamed?]
    exact routed.child parent child hmem
  above ref href := by
    rw [paths] at href
    rcases routed.above ref href with hroot | ⟨parent, hparent, hmem⟩
    · exact Or.inl hroot
    · refine Or.inr ⟨parent, ?_, ?_⟩
      · rwa [paths]
      · rwa [links.children]
  handed ref path hpath := by
    rw [paths] at hpath
    exact (routed.handed ref path hpath).congr links

/-- The effect of one call on the root. -/
structure MarkedOnce (heap heap' : Heap) (root : Nat) (path : Text) : Prop where
  sameLinks : SameLinks heap heap'
  modules : heap'.modules = heap.modules
  draws : heap'.draws = heap.draws
  drawn : heap'.drawn = heap.drawn
  module : ∀ ref, (heap'.instances.cell ref).module = (heap.instances.cell ref).module
  root_paths : heap'.pathsOf root = heap.pathsOf root ++ [path]
  routed : Routed heap root → Routed heap' root

theorem markFault_step {heap heap' : Heap} {root : Nat}
    (tree : InstanceTree heap root) {path : Text}
    (hrun : markFault heap root path = .ok heap') :
    MarkedOnce heap heap' root path := by
  obtain ⟨chain, hroutes, hrecorded⟩ := markFaultWithin_returns hrun
  have same := hrecorded.sameLinks
  have hrootPaths : addedAt chain root = [path] := by
    have hhead : ∃ rest, chain = (root, path) :: rest ∧ addedAt rest root = [] := by
      cases hroutes with
      | last => exact ⟨[], rfl, rfl⟩
      | @step _ next _ _ _ remainder _ rest _ hfound _ hroutes =>
          refine ⟨rest, rfl, ?_⟩
          by_contra hne
          rcases hroutes.self_or_child hne with heq | ⟨parent, -, hmem⟩
          · have hmem := mem_of_childNamed? hfound
            rw [← heq] at hmem
            exact tree.root_top root hmem
          · exact tree.root_top parent hmem
    obtain ⟨rest, rfl, hrest⟩ := hhead
    rw [addedAt_cons, if_pos rfl, hrest]
    rfl
  refine ⟨same, hrecorded.modules, hrecorded.draws, hrecorded.drawn, hrecorded.module,
    ?_, fun hrouted => ⟨?_, ?_, ?_⟩⟩
  · rw [hrecorded.paths, hrootPaths]
  · intro parent child hmem
    rw [same.children] at hmem
    have hroot : root ≠ child := by
      rintro rfl
      exact tree.root_top parent hmem
    rw [hrecorded.paths, hrecorded.paths, same.name, same.childNamed?,
      hrouted.child parent child hmem, addedAt_child tree hroutes hmem rfl,
      if_neg hroot, List.nil_append]
    by_cases hfirst : heap.childNamed? parent (heap.nameOf child) = some child
    · simp only [if_pos hfirst, List.filterMap_append]
    · simp only [if_neg hfirst, List.append_nil]
  · intro ref href
    rw [hrecorded.paths] at href
    have hparent : ∀ parent, (heap.pathsOf parent ≠ [] ∨ addedAt chain parent ≠ []) →
        heap'.pathsOf parent ≠ [] := by
      rintro parent (hold | hnew)
      · rw [hrecorded.paths]
        exact List.append_ne_nil_of_left_ne_nil hold _
      · rw [hrecorded.paths]
        exact List.append_ne_nil_of_right_ne_nil _ hnew
    by_cases hold : heap.pathsOf ref = []
    · rw [hold, List.nil_append] at href
      rcases hroutes.self_or_child href with rfl | ⟨parent, hne, hmem⟩
      · exact Or.inl rfl
      · exact Or.inr ⟨parent, hparent parent (Or.inr hne), same.children parent ▸ hmem⟩
    · rcases hrouted.above ref hold with rfl | ⟨parent, hne, hmem⟩
      · exact Or.inl rfl
      · exact Or.inr ⟨parent, hparent parent (Or.inl hne), same.children parent ▸ hmem⟩
  · intro ref entry hentry
    rw [hrecorded.paths, List.mem_append] at hentry
    rcases hentry with hold | hnew
    · exact (hrouted.handed ref entry hold).congr same
    · exact (hroutes.handed hnew).congr same

/-- The effect of a sequence of calls on the root. -/
structure MarkedAll (heap heap' : Heap) (root : Nat) (paths : List Text) : Prop where
  sameLinks : SameLinks heap heap'
  modules : heap'.modules = heap.modules
  draws : heap'.draws = heap.draws
  drawn : heap'.drawn = heap.drawn
  module : ∀ ref, (heap'.instances.cell ref).module = (heap.instances.cell ref).module
  root_paths : heap'.pathsOf root = heap.pathsOf root ++ paths
  routed : Routed heap root → Routed heap' root

/-- A sequence of calls on the root keeps the correspondence of the lists. -/
theorem markFaults_run {heap heap' : Heap} {root : Nat}
    (tree : InstanceTree heap root) {paths : List Text}
    (hrun : markFaults heap root paths = .ok heap') :
    MarkedAll heap heap' root paths := by
  refine foldlM_induction (fun done state => MarkedAll heap state root done) hrun ?_ ?_
  · exact ⟨.refl heap, rfl, rfl, rfl, fun _ => rfl, (List.append_nil _).symm, id⟩
  · intro done path rest state state' _ hdone hstep
    have honce := markFault_step (hdone.sameLinks.instanceTree tree) hstep
    refine ⟨hdone.sameLinks.trans honce.sameLinks, honce.modules.trans hdone.modules,
      honce.draws.trans hdone.draws, honce.drawn.trans hdone.drawn,
      fun ref => (honce.module ref).trans (hdone.module ref), ?_,
      fun hrouted => honce.routed (hdone.routed hrouted)⟩
    rw [honce.root_paths, hdone.root_paths, List.append_assoc]

end FaultInjection
