import FaultInjection.Traversal.Rewrite

/-!
# Positions of faults

An instance divides the positions of its recorded paths among its own wires and
its children.  The positions given to a child are in the order of the child's
own list.
-/

namespace FaultInjection

open Text Heap

section Dictionaries

variable {κ α : Type} [DecidableEq κ]

theorem Dict.get?_push (d : Dict κ (List α)) (key other : κ) (value : α) :
    (d.push key value).get? other =
      if other = key then some ((d.get? key).getD [] ++ [value]) else d.get? other :=
  get?_set d key other _

end Dictionaries

variable [UnicodeData]

/-- The child that a path leads to. -/
def towards? (path : Text) : Option Text :=
  match pathParts path with
  | _ :: second :: _ => some (second.drop 1)
  | _ => none

theorem towards?_of_parts {path first second : Text} {others : List Text}
    (hparts : pathParts path = first :: second :: others) :
    towards? path = some (second.drop 1) := by
  rw [towards?, hparts]

theorem towards?_single {path part : Text} (hparts : pathParts path = [part]) :
    towards? path = none := by
  rw [towards?, hparts]

theorem routeTo_eq (childName path : Text) :
    routeTo childName path =
      if towards? path = some childName then pathRemainder? path else none := by
  cases hparts : pathParts path with
  | nil =>
      rw [routeTo, towards?, hparts]
      rfl
  | cons first others =>
      cases others with
      | nil =>
          rw [routeTo_single hparts, towards?_single hparts]
          rfl
      | cons second others =>
          simp only [routeTo_of_parts hparts, towards?_of_parts hparts, Option.some.injEq]

def addPosition (faults : Dict Text (List Nat)) (entry : Text × Nat) :
    Dict Text (List Nat) :=
  match towards? entry.1 with
  | some childName => faults.push childName entry.2
  | none => faults

/-- The positions of the paths that lead to each child. -/
def childPositions (paths : List Text) : Dict Text (List Nat) :=
  paths.zipIdx.foldl addPosition []

theorem organizeFault_childFaults {draws : Nat → Nat} {count : Nat}
    {state state' : Organized} {entry : Text × Nat}
    (hrun : organizeFault draws count state entry = .ok state') :
    state'.childFaults = addPosition state.childFaults entry := by
  obtain ⟨path, index⟩ := entry
  simp only [organizeFault] at hrun
  split at hrun
  · cases hrun
  · rename_i part hparts
    rw [addPosition, towards?_single hparts]
    split at hrun
    · cases hrun
    · obtain ⟨module, -, hrun⟩ := bind_eq_ok.mp hrun
      cases hrun
      rfl
  · rename_i first second others hparts
    rw [addPosition, towards?_of_parts hparts]
    cases hrun
    rfl

theorem organizeFaults_childFaults {draws : Nat → Nat} {drawn : Nat} {module : Module}
    {paths : List Text} {organized : Organized}
    (hrun : organizeFaults draws drawn module paths = .ok organized) :
    organized.childFaults = childPositions paths := by
  refine foldlM_induction (fun done state => state.childFaults = done.foldl addPosition [])
    hrun rfl ?_
  intro done entry rest state state' _ hstate hstep
  rw [organizeFault_childFaults hstep, hstate, List.foldl_append]
  rfl

/-- The entries that lead to a child, with their positions. -/
def entriesTo (childName : Text) (entries : List (Text × Nat)) : List (Text × Nat) :=
  entries.filter fun entry => towards? entry.1 = some childName

/-- The positions of the paths that lead to a child. -/
def positionsOf (childName : Text) (paths : List Text) : List Nat :=
  (entriesTo childName paths.zipIdx).map Prod.snd

theorem foldl_addPosition_get? (entries : List (Text × Nat)) (childName : Text) :
    (entries.foldl addPosition []).get? childName =
      if entriesTo childName entries = [] then none
      else some ((entriesTo childName entries).map Prod.snd) := by
  induction entries using List.reverseRecOn with
  | nil => rfl
  | append_singleton entries entry ih =>
      rw [List.foldl_append, List.foldl_cons, List.foldl_nil, addPosition, entriesTo,
        List.filter_append, ← entriesTo]
      cases htowards : towards? entry.1 with
      | none => simp [htowards, ih]
      | some other =>
          by_cases hother : childName = other
          · subst hother
            by_cases hnone : entriesTo childName entries = []
            · simp [Dict.get?_push, ih, htowards, hnone]
            · simp [Dict.get?_push, ih, htowards, hnone]
          · have hne : other ≠ childName := Ne.symm hother
            simp [Dict.get?_push, ih, htowards, hother, hne]

theorem childPositions_get? (paths : List Text) (childName : Text) :
    (childPositions paths).get? childName =
      if positionsOf childName paths = [] then none
      else some (positionsOf childName paths) := by
  rw [childPositions, foldl_addPosition_get?, positionsOf]
  simp only [List.map_eq_nil_iff]

theorem get?_childPositions_eq_some {paths : List Text} {childName : Text}
    {indices : List Nat} (hget : (childPositions paths).get? childName = some indices) :
    indices = positionsOf childName paths ∧ indices ≠ [] := by
  rw [childPositions_get?] at hget
  split at hget
  · cases hget
  · rename_i hne
    cases hget
    exact ⟨rfl, hne⟩

theorem childPositions_keys_nodup (paths : List Text) :
    (childPositions paths).keys.Nodup := by
  rw [childPositions]
  induction paths.zipIdx using List.reverseRecOn with
  | nil => exact List.nodup_nil
  | append_singleton entries entry ih =>
      rw [List.foldl_append, List.foldl_cons, List.foldl_nil, addPosition]
      split
      · exact Dict.nodup_keys_set ih _ _
      · exact ih

theorem mem_childPositions {paths : List Text} {childName : Text} {indices : List Nat} :
    (childName, indices) ∈ childPositions paths ↔
      (childPositions paths).get? childName = some indices :=
  Dict.mem_iff_get? (childPositions_keys_nodup paths)

theorem mem_positionsOf {childName : Text} {paths : List Text} {index : Nat} :
    index ∈ positionsOf childName paths ↔
      ∃ path, paths[index]? = some path ∧ towards? path = some childName := by
  rw [positionsOf, entriesTo, List.mem_map]
  constructor
  · rintro ⟨⟨path, index'⟩, hmem, rfl⟩
    rw [List.mem_filter, List.mem_zipIdx_iff_getElem?, decide_eq_true_eq] at hmem
    exact ⟨path, hmem.1, hmem.2⟩
  · rintro ⟨path, hpath, htowards⟩
    refine ⟨(path, index), ?_, rfl⟩
    rw [List.mem_filter, List.mem_zipIdx_iff_getElem?, decide_eq_true_eq]
    exact ⟨hpath, htowards⟩

/-- The list of a child is made of the remainders of the entries that lead to it,
in order. -/
theorem filterMap_routeTo_eq_map {heap : Heap} {ref : Nat} {paths : List Text}
    (handed : ∀ path ∈ paths, Handed heap ref path) (childName : Text) :
    paths.filterMap (routeTo childName) =
      (entriesTo childName paths.zipIdx).map fun entry =>
        (pathRemainder? entry.1).getD [] := by
  have hoffset : ∀ offset, paths.filterMap (routeTo childName) =
      (entriesTo childName (paths.zipIdx offset)).map fun entry =>
        (pathRemainder? entry.1).getD [] := by
    induction paths with
    | nil => exact fun _ => rfl
    | cons path paths ih =>
        intro offset
        have hrest := ih (fun other hother => handed other (.tail _ hother)) (offset + 1)
        rw [List.zipIdx_cons, entriesTo, List.filter_cons, List.filterMap_cons, routeTo_eq,
          hrest, ← entriesTo]
        by_cases htowards : towards? path = some childName
        · rcases handed path (.head _) with
            ⟨part, hparts⟩ | ⟨first, second, others, child, remainder, -, -, hremainder⟩
          · rw [towards?_single hparts] at htowards
            cases htowards
          · simp [htowards, hremainder]
        · simp [htowards]
  exact hoffset 0

/-- The entry at a position is handed to the child at the rank of the position. -/
theorem getElem?_idxOf {heap : Heap} {ref : Nat} {paths : List Text}
    (handed : ∀ path ∈ paths, Handed heap ref path) {childName path : Text} {index : Nat}
    (hpath : paths[index]? = some path) (htowards : towards? path = some childName) :
    (paths.filterMap (routeTo childName))[(positionsOf childName paths).idxOf index]? =
      pathRemainder? path := by
  have hmem : index ∈ positionsOf childName paths :=
    mem_positionsOf.mpr ⟨path, hpath, htowards⟩
  have hrank := List.getElem?_idxOf hmem
  rw [filterMap_routeTo_eq_map handed, List.getElem?_map]
  rw [positionsOf, List.getElem?_map] at hrank
  obtain ⟨⟨path', index'⟩, hentry, hindex⟩ := Option.map_eq_some_iff.mp hrank
  have hzip := List.mem_of_mem_filter (List.mem_of_getElem? hentry)
  rw [List.mem_zipIdx_iff_getElem?] at hzip
  have heq : path' = path := by
    rw [← hindex] at hpath
    exact Option.some.inj (hzip.symm.trans hpath)
  rw [positionsOf, hentry, Option.map_some, heq]
  rcases handed path (List.mem_of_getElem? hpath) with
    ⟨part, hparts⟩ | ⟨first, second, others, child, remainder, -, -, hremainder⟩
  · rw [towards?_single hparts] at htowards
    cases htowards
  · rw [hremainder, Option.getD_some]

/-- An entry that leads to a child stands in the child's list at the rank of its
position. -/
theorem Routed.entry_below {heap : Heap} {root inst index : Nat} {path childName : Text}
    (routed : Routed heap root) (recorded : (heap.pathsOf inst)[index]? = some path)
    (leads : towards? path = some childName) :
    ∃ child remainder, heap.childNamed? inst childName = some child ∧
      pathRemainder? path = some remainder ∧
      (heap.pathsOf child)[(positionsOf childName (heap.pathsOf inst)).idxOf index]? =
        some remainder := by
  rcases routed.handed inst path (List.mem_of_getElem? recorded) with
    ⟨part, hparts⟩ | ⟨first, second, others, child, remainder, hparts, hfound, hremainder⟩
  · rw [towards?_single hparts] at leads
    cases leads
  · have hname := towards?_of_parts hparts
    rw [leads, Option.some.injEq] at hname
    rw [← hname] at hfound
    have hpaths := routed.child inst child (mem_of_childNamed? hfound)
    rw [name_of_childNamed? hfound, if_pos hfound] at hpaths
    refine ⟨child, remainder, hfound, hremainder, ?_⟩
    rw [hpaths, getElem?_idxOf (routed.handed inst) recorded leads, hremainder]

end FaultInjection
