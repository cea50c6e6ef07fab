import Mathlib.Data.List.Perm.Subperm
import FaultInjection.Marking.Correspondence
import FaultInjection.Marking.Reading

/-!
# Where a path text leads

For any text `mark_fault` looks for the names that it reads, one below the other.
It reports an error of its own when a name is not found or no component is left, and
raises when the second expression matches nothing.  Otherwise the instances that
record an entry are those that the names lead through, and they are the ones that all
components spell exactly when the components adjoin.
-/

namespace FaultInjection

open Text Heap

section Runs

variable [UnicodeData]

theorem markFaultWithin_reads {path : Text} {names : List Text} {ending : PathEnd}
    (reads : Reads path names ending) {depth : Nat} (hdepth : names.length < depth)
    (heap : Heap) (self : Nat) :
    (heap.childAlong? self names = none ∨ ending = .invalid →
        markFaultWithin depth heap self path = .error (.systemExit 1)) ∧
      (heap.childAlong? self names ≠ none → ending = .broken →
        markFaultWithin depth heap self path = .error .indexError) ∧
      (heap.childAlong? self names ≠ none → ending = .last →
        ∃ heap', markFaultWithin depth heap self path = .ok heap') := by
  induction reads generalizing depth heap self with
  | invalid parts =>
      cases depth with
      | zero => cases hdepth
      | succ depth =>
          unfold markFaultWithin
          simp [parts]
  | last parts =>
      cases depth with
      | zero => cases hdepth
      | succ depth =>
          unfold markFaultWithin
          simp [parts, childAlong?]
  | @broken path first second others parts rest =>
      cases depth with
      | zero => cases hdepth
      | succ depth =>
          have same := (modifyInstance_recorded heap self path).sameLinks
          unfold markFaultWithin
          simp only [parts, childAlong?, same.childNamed?]
          cases hchild : heap.childNamed? self (second.drop 1) with
          | none => simp
          | some child => simp [rest]
  | @step path first second remainder others names ending parts rest _ ih =>
      cases depth with
      | zero => cases hdepth
      | succ depth =>
          have same := (modifyInstance_recorded heap self path).sameLinks
          have hdepth' : names.length < depth := Nat.lt_of_succ_lt_succ hdepth
          unfold markFaultWithin
          simp only [parts, childAlong?, same.childNamed?]
          cases hchild : heap.childNamed? self (second.drop 1) with
          | none => simp
          | some child =>
              have hbelow := ih hdepth' (heap.modifyInstance self fun inst =>
                { inst with faultyChildPaths := inst.faultyChildPaths ++ [path] }) child
              rw [same.childAlong?] at hbelow
              simpa [rest] using hbelow

theorem markFault_reads {path : Text} {names : List Text} {ending : PathEnd}
    (reads : Reads path names ending) (heap : Heap) (self : Nat) :
    (heap.childAlong? self names = none ∨ ending = .invalid →
        markFault heap self path = .error (.systemExit 1)) ∧
      (heap.childAlong? self names ≠ none → ending = .broken →
        markFault heap self path = .error .indexError) ∧
      (heap.childAlong? self names ≠ none → ending = .last →
        ∃ heap', markFault heap self path = .ok heap') :=
  markFaultWithin_reads reads
    (Nat.lt_succ_of_le (Nat.le_trans reads.length_le (length_pathParts_le path))) heap self

theorem Routes.reads {heap : Heap} {self : Nat} {path : Text} {chain : List (Nat × Text)}
    (routes : Routes heap self path chain) :
    ∃ names, Reads path names .last ∧ Spells heap self names (chain.map Prod.fst) := by
  induction routes with
  | last parts => exact ⟨[], .last parts, .here _⟩
  | step parts found rest _ ih =>
      obtain ⟨names, reads, spells⟩ := ih
      exact ⟨_, .step parts rest reads, .down found spells⟩

/-- Of the entries of a chain only the last one has a single component. -/
theorem Routes.single_iff {heap : Heap} {self : Nat} {path : Text} {chain : List (Nat × Text)}
    (routes : Routes heap self path chain) (hnodup : (chain.map Prod.fst).Nodup) :
    ∀ ref entry, (ref, entry) ∈ chain →
      ((∃ part, pathParts entry = [part]) ↔ (chain.map Prod.fst).getLast? = some ref) := by
  induction routes with
  | @last self path part parts =>
      intro ref entry hentry
      rw [List.mem_singleton, Prod.mk.injEq] at hentry
      obtain ⟨rfl, rfl⟩ := hentry
      exact ⟨fun _ => rfl, fun _ => ⟨part, parts⟩⟩
  | @step self child path first second remainder others chain parts found rest routes ih =>
      rw [List.map_cons, List.nodup_cons] at hnodup
      have hne : chain.map Prod.fst ≠ [] := by
        cases routes <;> exact List.cons_ne_nil _ _
      have hlast : (((self, path) :: chain).map Prod.fst).getLast? =
          (chain.map Prod.fst).getLast? := by
        obtain ⟨other, more, hcons⟩ := List.exists_cons_of_ne_nil hne
        rw [List.map_cons, hcons, List.getLast?_cons_cons]
      intro ref entry hentry
      rw [hlast]
      rcases List.mem_cons.mp hentry with heq | hentry
      · rw [Prod.mk.injEq] at heq
        obtain ⟨rfl, rfl⟩ := heq
        constructor
        · rintro ⟨part, hpart⟩
          rw [parts] at hpart
          cases hpart
        · intro hself
          exact absurd (List.mem_of_getLast? hself) hnodup.1
      · exact ih hnodup.2 ref entry hentry

omit [UnicodeData] in
theorem addedAt_of_not_mem {chain : List (Nat × Text)} {ref : Nat}
    (hnot : ref ∉ chain.map Prod.fst) : addedAt chain ref = [] := by
  rw [addedAt, List.filterMap_eq_nil_iff]
  rintro ⟨other, entry⟩ hentry
  apply if_neg
  rintro rfl
  exact hnot (List.mem_map.mpr ⟨_, hentry, rfl⟩)

omit [UnicodeData] in
theorem addedAt_of_mem {chain : List (Nat × Text)} (hnodup : (chain.map Prod.fst).Nodup)
    {ref : Nat} {entry : Text} (hentry : (ref, entry) ∈ chain) :
    addedAt chain ref = [entry] := by
  induction chain with
  | nil => cases hentry
  | cons head chain ih =>
      obtain ⟨other, path⟩ := head
      rw [List.map_cons, List.nodup_cons] at hnodup
      rw [addedAt_cons]
      rcases List.mem_cons.mp hentry with heq | hentry
      · rw [Prod.mk.injEq] at heq
        obtain ⟨rfl, rfl⟩ := heq
        rw [if_pos rfl, addedAt_of_not_mem hnodup.1, List.append_nil]
      · have hne : other ≠ ref := by
          rintro rfl
          exact hnodup.1 (List.mem_map.mpr ⟨_, hentry, rfl⟩)
        rw [if_neg hne, List.nil_append, ih hnodup.2 hentry]

/-- The instances of a chain, each with the one entry that it records. -/
structure GrownAlong (heap heap' : Heap) (nodes : List Nat) : Prop where
  others : ∀ ref, ref ∉ nodes → heap'.pathsOf ref = heap.pathsOf ref
  once : ∀ ref ∈ nodes, ∃ entry, heap'.pathsOf ref = heap.pathsOf ref ++ [entry] ∧
    ((∃ part, pathParts entry = [part]) ↔ nodes.getLast? = some ref)

/-- The instances that record an entry are those that the names read lead through. -/
theorem markFault_grows {heap heap' : Heap} {root : Nat} (tree : InstanceTree heap root)
    {self : Nat} {path : Text} (hrun : markFault heap self path = .ok heap') :
    ∃ names nodes, Reads path names .last ∧ Spells heap self names nodes ∧
      GrownAlong heap heap' nodes := by
  obtain ⟨chain, routes, recorded⟩ := markFaultWithin_returns hrun
  obtain ⟨names, reads, spells⟩ := routes.reads
  obtain ⟨last, line⟩ := spells.exists_line
  have hnodup := line.nodup tree.forest
  refine ⟨names, _, reads, spells, fun ref href => ?_, fun ref href => ?_⟩
  · rw [recorded.paths, addedAt_of_not_mem href, List.append_nil]
  · obtain ⟨⟨other, entry⟩, hentry, rfl⟩ := List.mem_map.mp href
    refine ⟨entry, ?_, routes.single_iff hnodup _ _ hentry⟩
    rw [recorded.paths, addedAt_of_mem hnodup hentry]

theorem GrownAlong.subset {heap heap' : Heap} {nodes nodes' : List Nat}
    (grown : GrownAlong heap heap' nodes) (grown' : GrownAlong heap heap' nodes') :
    nodes ⊆ nodes' := by
  intro ref href
  by_contra hnot
  obtain ⟨entry, hentry, -⟩ := grown.once ref href
  rw [grown'.others ref hnot] at hentry
  exact List.cons_ne_nil entry [] (List.append_cancel_left (hentry.symm.trans
    (List.append_nil _).symm))

/-- The call reports an error of its own, or it records one entry in each of the
instances that all components of the text spell, and a single component in the last. -/
def RejectedOrRouted (heap : Heap) (root : Nat) (path : Text) : Prop :=
  markFault heap root path = .error (.systemExit 1) ∨
    ∃ heap' nodes, markFault heap root path = .ok heap' ∧
      Spells heap root ((pathParts path).tail.map (List.drop 1)) nodes ∧
      GrownAlong heap heap' nodes

/-- A text is rejected or routed to the instance that it spells exactly when its
components adjoin, or one of the names that the calls read is not found, or the
calls come to a text without components. -/
theorem rejectedOrRouted_iff {heap : Heap} {root : Nat} (tree : InstanceTree heap root)
    (path : Text) :
    RejectedOrRouted heap root path ↔
      Adjoined path ∨ ∃ names ending, Reads path names ending ∧
        (heap.childAlong? root names = none ∨ ending = .invalid) := by
  constructor
  · rintro (hexit | ⟨heap', nodes, hrun, spells, grown⟩)
    · obtain ⟨names, ending, reads⟩ := exists_reads path
      by_cases hfound : heap.childAlong? root names = none ∨ ending = .invalid
      · exact Or.inr ⟨names, ending, reads, hfound⟩
      · rw [not_or] at hfound
        obtain ⟨-, hbroken, hlast⟩ := markFault_reads reads heap root
        cases ending with
        | invalid => exact absurd rfl hfound.2
        | last =>
            obtain ⟨heap', hrun⟩ := hlast hfound.1 rfl
            rw [hexit] at hrun
            cases hrun
        | broken =>
            rw [hbroken hfound.1 rfl] at hexit
            cases hexit
    · obtain ⟨names, nodes', reads, spells', grown'⟩ := markFault_grows tree hrun
      obtain ⟨last, line⟩ := spells.exists_line
      have hle := (List.subperm_of_subset (line.nodup tree.forest) (grown.subset grown')).length_le
      have hless := reads.length_lt
      rw [spells.length, spells'.length, List.length_map, List.length_tail] at hle
      exact Or.inl (reads.adjoined (by omega))
  · intro hcondition
    obtain ⟨names, ending, reads⟩ := exists_reads path
    by_cases hfound : heap.childAlong? root names = none ∨ ending = .invalid
    · exact Or.inl ((markFault_reads reads heap root).1 hfound)
    · rcases hcondition with adjoined | ⟨names', ending', reads', hfound'⟩
      · rw [not_or] at hfound
        by_cases hhas : HasComponent path
        · obtain ⟨rfl, rfl⟩ := reads.unique (adjoined.reads hhas)
          obtain ⟨heap', hrun⟩ := (markFault_reads reads heap root).2.2 hfound.1 rfl
          obtain ⟨names', nodes, reads', spells, grown⟩ := markFault_grows tree hrun
          obtain ⟨rfl, -⟩ := reads.unique reads'
          exact Or.inr ⟨heap', nodes, hrun, spells, grown⟩
        · have hinvalid := Reads.invalid (pathParts_of_not_hasComponent hhas)
          exact absurd (reads.unique hinvalid).2 hfound.2
      · obtain ⟨rfl, rfl⟩ := reads.unique reads'
        exact absurd hfound' hfound

end Runs

section Nested

attribute [local instance] UnicodeData.ascii

theorem rejectedOrRouted_iff_nested :
    ∃ tree, ModuleTree.IsSetUp ModuleTree.nestedDesign "Core" tree ∧
      (RejectedOrRouted tree.heap tree.rootInstance "/Root/alu/alu:w" ↔
        Adjoined "/Root/alu/alu:w" ∨ ∃ names ending, Reads "/Root/alu/alu:w" names ending ∧
          (tree.heap.childAlong? tree.rootInstance names = none ∨ ending = .invalid)) := by
  have hrun : (ModuleTree.setUp ModuleTree.nestedDesign "Core" (fun _ => 0) 5).isOk = true := by
    decide +kernel
  obtain ⟨tree, htree⟩ := isOk_iff.mp hrun
  have hsetup : ModuleTree.IsSetUp ModuleTree.nestedDesign "Core" tree := ⟨_, _, htree⟩
  obtain ⟨parsed, -, built⟩ := hsetup.built
  exact ⟨tree, hsetup, rejectedOrRouted_iff built.sound.instances _⟩

/-- A wire in the middle of a path: the child is found, the remainder is not. -/
theorem markFault_raises_indexError :
    ∃ tree, ModuleTree.IsSetUp ModuleTree.nestedDesign "Core" tree ∧
      markFault tree.heap tree.rootInstance "/Root:w/alu" = .error .indexError ∧
      ¬ RejectedOrRouted tree.heap tree.rootInstance "/Root:w/alu" := by
  have hrun : (ModuleTree.setUp ModuleTree.nestedDesign "Core" (fun _ => 0) 5).map (fun tree =>
      match markFault tree.heap tree.rootInstance "/Root:w/alu" with
      | .error .indexError => true
      | _ => false) = .ok true := by
    decide +kernel
  obtain ⟨tree, htree, hresult⟩ := map_eq_ok.mp hrun
  have hraises : markFault tree.heap tree.rootInstance "/Root:w/alu" = .error .indexError := by
    split at hresult
    · assumption
    · cases hresult
  refine ⟨tree, ⟨_, _, htree⟩, hraises, ?_⟩
  rintro (hexit | ⟨heap', nodes, hreturns, -⟩)
  · rw [hraises] at hexit
    cases hexit
  · rw [hraises] at hreturns
    cases hreturns

end Nested

end FaultInjection
