import FaultInjection.Traversal.Tree

/-!
# Order and termination of the traversal

The loop of `inject_faults` ends within two rounds for every instance.  It calls
an instance at most once and never after an instance above it, and what lies
below an instance that it leaves out is left out as well.
-/

namespace FaultInjection

open Text Heap

theorem Heap.Visits.met_of_below {heap : Heap} {root : Nat} {met left : List Nat}
    (tree : InstanceTree heap root) (visits : heap.Visits root met left) {inst below : Nat}
    (hinst : Forest.Below heap.childrenOf root inst)
    (hbelow : Forest.Below heap.childrenOf inst below) (hmet : below ∈ met) : inst ∈ met := by
  obtain ⟨names, walk⟩ := visits
  -- an instance that is met and does not hang under the root has its parent met
  have hparent : ∀ parent child, child ∈ heap.childrenOf parent → parent ≠ root →
      child ∈ met → parent ∈ met := by
    intro parent child hchild hne hmet
    rcases walk.met_parent hmet with hpending | ⟨before, other, after, rfl, hother, -, -⟩
    · have hroot := tree.forest.parent_unique hchild (List.mem_reverse.mp hpending)
      exact absurd hroot hne
    · rw [tree.forest.parent_unique hchild hother]
      exact List.mem_append_right _ (.head _)
  have hne : ∀ node, inst = node ∨ Forest.Below heap.childrenOf inst node → node ≠ root := by
    rintro node hnode rfl
    rcases hnode with rfl | hnode
    · exact tree.forest.not_below_self _ hinst
    · exact tree.forest.not_below_self _ (hinst.trans hnode)
  induction hbelow with
  | single hchild => exact hparent _ _ hchild (hne _ (Or.inl rfl)) hmet
  | tail habove hchild ih => exact ih (hparent _ _ hchild (hne _ (Or.inr habove)) hmet)

section Runs

variable [UnicodeData]

/-- The calls of a run of the loop over the instances below a root. -/
structure BottomUp (heap : Heap) (root : Nat) (run : LoopRun) : Prop where
  finished : run.ending ≠ .unfinished
  once : run.calls.Nodup
  order : run.calls.Pairwise fun earlier later =>
    ¬ Forest.Below heap.childrenOf earlier later
  /-- The row of all calls; a run that returns makes them all. -/
  skips : ∃ row, run.calls <+: row ∧
    (∀ heap', run.ending = .returned heap' → run.calls = row) ∧
    ∀ inst, Forest.Below heap.childrenOf root inst → inst ∉ row →
      ∀ below, Forest.Below heap.childrenOf inst below → below ∉ row

/-- The loop ends, and calls its instances bottom-up. -/
theorem LoopRun.ofLoop_bottomUp {heap : Heap} {root : Nat} (tree : InstanceTree heap root) {fuel : Nat}
    (hfuel : 2 * heap.instances.size ≤ fuel) :
    (ofLoop fuel heap (heap.childrenOf root).reverse []).ending.result =
        ModuleTree.injectLoop fuel heap (heap.childrenOf root).reverse [] ∧
      BottomUp heap root (ofLoop fuel heap (heap.childrenOf root).reverse []) := by
  refine ⟨ofLoop_result _ _ _ _, ?_⟩
  obtain ⟨met, left, visits⟩ := tree.visits
  rw [ofLoop_eq_ofRow tree visits hfuel]
  obtain ⟨hfinished, hcalls, hall⟩ := ofRow_calls heap left
  have hbottomUp : left.Pairwise fun earlier later =>
      ¬ Forest.Below heap.childrenOf earlier later := by
    obtain ⟨names, walk⟩ := visits
    exact walk.left_bottomUp tree.forest (Walk.apart_children tree.forest root)
  refine ⟨hfinished, (visits.left_nodup tree).sublist hcalls.sublist,
    hbottomUp.sublist hcalls.sublist, left, hcalls, hall, ?_⟩
  intro inst hinst hskipped below hbelow hleft
  rw [visits.mem_left_iff] at hskipped hleft
  exact hskipped (visits.met_of_below tree hinst hbelow hleft)

end Runs

section Nested

attribute [local instance] UnicodeData.ascii

theorem LoopRun.ofLoop_bottomUp_nested :
    ∃ tree, ModuleTree.IsSetUp ModuleTree.nestedDesign "Core" tree ∧
      BottomUp tree.heap tree.rootInstance (ofLoop (2 * tree.heap.instances.size) tree.heap
        (tree.heap.childrenOf tree.rootInstance).reverse []) := by
  obtain ⟨tree, marked, injected, setUp, -⟩ := ModuleTree.nestedDesign_run
  obtain ⟨parsed, -, built⟩ := setUp.built
  exact ⟨tree, setUp, (ofLoop_bottomUp built.sound.instances (Nat.le_refl _)).2⟩

end Nested

end FaultInjection
