import FaultInjection.Printing.Rose
import FaultInjection.Traversal.Rewrite

/-!
# Drawing the tree

`_inst_str` draws the tree with one line for each instance: guides that show where it
hangs, its type and its name, the name in yellow when faults lie below it.  The lines
can be read back.
-/

namespace FaultInjection

open Text

/-- `\033` -/
def escapeChar : Char := '\x1b'

def yellow : Text := "\x1b[93m"

def blue : Text := "\x1b[94m"

def uncoloured : Text := "\x1b[00m"

/-- What lies below the last child hangs free, the rest beside a line. -/
def guide (lastChild : Bool) : Text := if lastChild then "  " else "\u2502 "

def treeSymbol (lastChild : Bool) : Text := if lastChild then "\u2514" else "\u251c"

/-- What a line shows of an instance. -/
structure Shown where
  type : Text
  name : Text
  faulty : Bool
  deriving DecidableEq, Repr

def Shown.text (shown : Shown) : Text :=
  blue ++ shown.type ++ uncoloured ++ " " ++
    if shown.faulty then yellow ++ shown.name ++ uncoloured else shown.name

def Heap.shown (heap : Heap) (ref : Nat) : Shown where
  type := (heap.moduleOf ref).type
  name := (heap.instances.cell ref).name
  faulty := decide (0 < (heap.instances.cell ref).faultyChildPaths.length)

/-- The loop body of `_inst_str`: put one child below what has been drawn. -/
def drawChild (instStr : Nat → Bool → Except PythonError Text) (spaces : Text) (count : Nat)
    (drawn : Text) (entry : Nat × Nat) : Except PythonError Text :=
  let lastChild := entry.2 + 1 == count
  (instStr entry.1 lastChild).map fun below =>
    drawn ++ "\n" ++ spaces ++ treeSymbol lastChild ++ "\u2500" ++ below

/-- `_inst_str` with a bound on the depth of the recursion. -/
def instStr (heap : Heap) : Nat → Nat → Text → Bool → Except PythonError Text
  | 0, _, _, _ => .error .recursionError
  | depth + 1, moduleInst, layer, lastChild =>
      let spaces := layer ++ guide lastChild
      let children := (heap.instances.cell moduleInst).children
      children.zipIdx.foldlM
        (drawChild (fun child => instStr heap depth child spaces) spaces children.length)
        (heap.shown moduleInst).text

/-- `__str__` of the tree. -/
def ModuleTree.str (depth : Nat) (tree : ModuleTree) : Except PythonError Text :=
  instStr tree.heap depth tree.rootInstance [] true

mutual

/-- The drawing of a tree behind the guides of its first line. -/
def drawn (layer : Text) (lastChild : Bool) : Rose Shown → Text
  | .node shown children => shown.text ++ drawnBelow (layer ++ guide lastChild) children

/-- The lines of a row of children. -/
def drawnBelow (spaces : Text) : List (Rose Shown) → Text
  | [] => []
  | child :: row =>
      '\n' :: (spaces ++ treeSymbol row.isEmpty ++ ['\u2500'] ++
        (drawn spaces row.isEmpty child ++ drawnBelow spaces row))

end

theorem foldlM_drawChild {instStr : Nat → Bool → Except PythonError Text} {spaces : Text}
    (tree : Nat → Rose Shown) {count : Nat} {children : List Nat}
    (hbelow : ∀ child ∈ children, ∀ last,
      instStr child last = .ok (drawn spaces last (tree child)))
    {start : Nat} (hcount : start + children.length = count) (before : Text) :
    (children.zipIdx start).foldlM (drawChild instStr spaces count) before =
      .ok (before ++ drawnBelow spaces (children.map tree)) := by
  induction children generalizing start before with
  | nil =>
      rw [List.map_nil, drawnBelow, List.append_nil]
      rfl
  | cons child children ih =>
      rw [List.length_cons] at hcount
      have hlast : (start + 1 == count) = children.isEmpty := by
        rw [← hcount]
        cases children with
        | nil => exact beq_self_eq_true _
        | cons next children => simp
      rw [List.zipIdx_cons, List.foldlM_cons, drawChild, hlast, hbelow child (.head _)]
      refine (ih (fun child' hchild' => hbelow child' (.tail _ hchild')) (by omega) _).trans ?_
      rw [List.map_cons, drawnBelow, List.isEmpty_map]
      simp only [List.append_assoc]
      rfl

/-- In a forest `_inst_str` returns and draws the tree below the instance. -/
theorem instStr_eq {heap : Heap} {size : Nat} (forest : Forest heap.childrenOf size)
    {depth inst : Nat} (hinst : inst < size) (hdepth : size ≤ inst + depth) (layer : Text)
    (lastChild : Bool) :
    instStr heap depth inst layer lastChild =
      .ok (drawn layer lastChild (Rose.unfold heap.childrenOf heap.shown size inst)) := by
  induction depth generalizing inst layer lastChild with
  | zero => omega
  | succ depth ih =>
      have hunfold : Rose.unfold heap.childrenOf heap.shown size inst =
          .node (heap.shown inst)
            ((heap.childrenOf inst).map (Rose.unfold heap.childrenOf heap.shown size)) := by
        have hdeeper : size ≤ inst + (size + 1) := by omega
        rw [Rose.unfold_stable forest heap.shown (by omega) hdeeper, Rose.unfold]
      have hbelow : ∀ child ∈ heap.childrenOf inst, ∀ last,
          instStr heap depth child (layer ++ guide lastChild) last =
            .ok (drawn (layer ++ guide lastChild) last
              (Rose.unfold heap.childrenOf heap.shown size child)) := by
        intro child hchild last
        have hbounds := forest.bounds hchild
        exact ih hbounds.2 (by omega) _ _
      rw [instStr, hunfold, drawn]
      exact foldlM_drawChild _ hbelow (Nat.zero_add _) _

end FaultInjection
