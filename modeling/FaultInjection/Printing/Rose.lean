import FaultInjection.Memory.Forest

/-!
# Rose trees and their outlines

A rose tree listed in preorder, every node with its depth, can be read back: the
nodes below a node are those that follow it with a greater depth.
-/

namespace FaultInjection

/-- Trees whose nodes have any number of children. -/
inductive Rose (α : Type) where
  | node (label : α) (children : List (Rose α))

namespace Rose

variable {α β : Type}

mutual

/-- The nodes of a tree in preorder, with their depths. -/
def outline (depth : Nat) : Rose α → List (Nat × α)
  | .node label children => (depth, label) :: outlines (depth + 1) children

/-- The nodes of a row of trees. -/
def outlines (depth : Nat) : List (Rose α) → List (Nat × α)
  | [] => []
  | tree :: row => outline depth tree ++ outlines depth row

end

/-- A tree that was read lies deeper than a node. -/
def isDeeper (depth : Nat) (tree : Nat × Rose α) : Bool := depth < tree.1

/-- Read an outline from its end: a node takes the deeper trees behind it. -/
def regrow : List (Nat × α) → List (Nat × Rose α)
  | [] => []
  | (depth, label) :: rest =>
      let behind := regrow rest
      (depth, .node label ((behind.takeWhile (isDeeper depth)).map Prod.snd)) ::
        behind.dropWhile (isDeeper depth)

/-- Nothing that has been read so far lies below a node of this depth. -/
def Clear (depth : Nat) (behind : List (Nat × Rose α)) : Prop :=
  ∀ tree ∈ behind.head?, tree.1 ≤ depth

theorem clear_nil (depth : Nat) : Clear depth ([] : List (Nat × Rose α)) :=
  fun _ hmem => by cases hmem

theorem clear_cons {depth : Nat} {tree : Nat × Rose α} {behind : List (Nat × Rose α)} :
    Clear depth (tree :: behind) ↔ tree.1 ≤ depth := by
  constructor
  · intro hall
    exact hall tree rfl
  · intro hle other hmem
    cases Option.some.inj hmem
    exact hle

theorem Clear.succ {depth : Nat} {behind : List (Nat × Rose α)} (clear : Clear depth behind) :
    Clear (depth + 1) behind :=
  fun tree hmem => Nat.le_succ_of_le (clear tree hmem)

/-- A node takes the row of trees in front of what is clear of it. -/
theorem split_row {depth : Nat} (row : List (Rose α)) {behind : List (Nat × Rose α)}
    (clear : Clear depth behind) :
    ((row.map fun tree => (depth + 1, tree)) ++ behind).takeWhile (isDeeper depth) =
        row.map (fun tree => (depth + 1, tree)) ∧
      ((row.map fun tree => (depth + 1, tree)) ++ behind).dropWhile (isDeeper depth) =
        behind := by
  induction row with
  | nil =>
      cases behind with
      | nil => exact ⟨rfl, rfl⟩
      | cons tree behind =>
          have hdeep : ¬ isDeeper depth tree = true := by
            rw [isDeeper, decide_eq_true_eq]
            exact Nat.not_lt.mpr (clear_cons.mp clear)
          exact ⟨List.takeWhile_cons_of_neg hdeep, List.dropWhile_cons_of_neg hdeep⟩
  | cons tree row ih =>
      have hdeep : isDeeper depth (depth + 1, tree) = true :=
        decide_eq_true (Nat.lt_succ_self depth)
      rw [List.map_cons, List.cons_append, List.takeWhile_cons_of_pos hdeep,
        List.dropWhile_cons_of_pos hdeep, ih.1]
      exact ⟨rfl, ih.2⟩

mutual

/-- Reading an outline back gives the tree, in front of what follows it. -/
theorem regrow_outline (depth : Nat) (tree : Rose α) (rest : List (Nat × α))
    (clear : Clear depth (regrow rest)) :
    regrow (outline depth tree ++ rest) = (depth, tree) :: regrow rest := by
  match tree with
  | .node label children =>
      obtain ⟨htake, hdrop⟩ := split_row children clear
      rw [outline, List.cons_append, regrow, regrow_outlines (depth + 1) children rest clear.succ,
        htake, hdrop, List.map_map]
      exact congrArg (fun row => (depth, Rose.node label row) :: regrow rest) (List.map_id' _)

theorem regrow_outlines (depth : Nat) (row : List (Rose α)) (rest : List (Nat × α))
    (clear : Clear depth (regrow rest)) :
    regrow (outlines depth row ++ rest) =
      (row.map fun tree => (depth, tree)) ++ regrow rest := by
  match row with
  | [] => rfl
  | tree :: row =>
      have hrow := regrow_outlines depth row rest clear
      have hclear : Clear depth (regrow (outlines depth row ++ rest)) := by
        rw [hrow]
        cases row with
        | nil => exact clear
        | cons next row => exact clear_cons.mpr (Nat.le_refl depth)
      rw [outlines, List.append_assoc, regrow_outline depth tree _ hclear, hrow]
      rfl

end

theorem regrow_outline_self (depth : Nat) (tree : Rose α) :
    regrow (outline depth tree) = [(depth, tree)] := by
  have hread := regrow_outline depth tree [] (clear_nil depth)
  rwa [List.append_nil] at hread

/-- The tree below a numbered node, down to a bound on the depth. -/
def unfold (children : Nat → List Nat) (label : Nat → α) : Nat → Nat → Rose α
  | 0, ref => .node (label ref) []
  | depth + 1, ref => .node (label ref) ((children ref).map (unfold children label depth))

/-- In a forest the bound does not matter once no numbers are left beyond it. -/
theorem unfold_stable {children : Nat → List Nat} {size : Nat} (forest : Forest children size)
    (label : Nat → α) {ref depth depth' : Nat} (hdepth : size ≤ ref + depth)
    (hdepth' : size ≤ ref + depth') :
    unfold children label depth ref = unfold children label depth' ref := by
  have hnone : size ≤ ref → children ref = [] := by
    intro hsize
    refine List.eq_nil_iff_forall_not_mem.mpr fun child hchild => ?_
    have hbounds := forest.bounds hchild
    omega
  induction depth generalizing ref depth' with
  | zero =>
      cases depth' with
      | zero => rfl
      | succ depth' => rw [unfold, unfold, hnone hdepth, List.map_nil]
  | succ depth ih =>
      cases depth' with
      | zero => rw [unfold, unfold, hnone hdepth', List.map_nil]
      | succ depth' =>
          rw [unfold, unfold]
          congr 1
          refine List.map_congr_left fun child hchild => ?_
          have hbounds := forest.bounds hchild
          refine ih (by omega) (by omega) fun hsize => ?_
          omega

end Rose

end FaultInjection
