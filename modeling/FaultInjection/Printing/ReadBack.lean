import FaultInjection.Output.Links
import FaultInjection.Printing.Drawing

/-!
# Reading a drawing

The length of the guides in front of a line gives the depth of its instance, the colours
its type, its name and whether faults lie below it.
-/

namespace FaultInjection

open Text

def isShown (c : Char) : Bool := c != escapeChar

/-- The depth of an instance, from the length of the guides in front of it. -/
def guidedDepth (length : Nat) : Nat := length / 2 - 1

/-- What a line shows, behind its guides. -/
def readShown (line : Text) : Shown :=
  let type := (line.drop blue.length).takeWhile isShown
  let name := line.drop (blue.length + type.length + uncoloured.length + 1)
  if name.head? = some escapeChar then
    ⟨type, (name.drop yellow.length).takeWhile isShown, true⟩
  else ⟨type, name, false⟩

def readLine (line : Text) : Nat × Shown :=
  (guidedDepth (line.takeWhile isShown).length, readShown (line.dropWhile isShown))

def readLines (text : Text) : List (Nat × Shown) := (split '\n' text).map readLine

/-- Read a drawing back. -/
def readTree (text : Text) : Option (Rose Shown) :=
  match Rose.regrow (readLines text) with
  | [(_, tree)] => some tree
  | _ => none

/-- Texts without colours and line ends. -/
def IsPrint (text : Text) : Prop := ∀ c ∈ text, c ≠ escapeChar ∧ c ≠ '\n'

/-- Type and name leave the colours and the line ends alone. -/
structure Shown.IsPrint (shown : Shown) : Prop where
  type : FaultInjection.IsPrint shown.type
  name : FaultInjection.IsPrint shown.name

theorem IsPrint.append {text more : Text} (first : IsPrint text) (second : IsPrint more) :
    IsPrint (text ++ more) := by
  intro c hc
  rcases List.mem_append.mp hc with hc | hc
  · exact first c hc
  · exact second c hc

theorem isPrint_guide (lastChild : Bool) : IsPrint (guide lastChild) := by
  have hall : (guide lastChild).all (fun c => c != escapeChar && c != '\n') = true := by
    cases lastChild <;> decide
  intro c hc
  have hboth := List.all_eq_true.mp hall c hc
  rwa [Bool.and_eq_true, bne_iff_ne, bne_iff_ne] at hboth

theorem isPrint_treeSymbol (lastChild : Bool) :
    IsPrint (treeSymbol lastChild ++ ['\u2500']) := by
  have hall : (treeSymbol lastChild ++ ['\u2500']).all
      (fun c => c != escapeChar && c != '\n') = true := by
    cases lastChild <;> decide
  intro c hc
  have hboth := List.all_eq_true.mp hall c hc
  rwa [Bool.and_eq_true, bne_iff_ne, bne_iff_ne] at hboth

theorem length_guide (lastChild : Bool) : (guide lastChild).length = 2 := by
  cases lastChild <;> rfl

theorem length_treeSymbol (lastChild : Bool) :
    (treeSymbol lastChild ++ ['\u2500']).length = 2 := by
  cases lastChild <;> rfl

theorem takeWhile_isPrint {text : Text} (print : IsPrint text) (rest : Text) :
    (text ++ escapeChar :: rest).takeWhile isShown = text ∧
      (text ++ escapeChar :: rest).dropWhile isShown = escapeChar :: rest := by
  have hall : ∀ c ∈ text, isShown c = true := fun c hc => bne_iff_ne.mpr (print c hc).1
  have hescape : ¬ isShown escapeChar = true := by decide
  rw [List.takeWhile_append_of_pos hall, List.dropWhile_append_of_pos hall,
    List.takeWhile_cons_of_neg hescape, List.dropWhile_cons_of_neg hescape, List.append_nil]
  exact ⟨rfl, rfl⟩

theorem takeWhile_uncoloured {text : Text} (print : IsPrint text) (rest : Text) :
    (text ++ (uncoloured ++ rest)).takeWhile isShown = text :=
  (takeWhile_isPrint print _).1

theorem readShown_text {shown : Shown} (print : shown.IsPrint) : readShown shown.text = shown := by
  obtain ⟨type, name, faulty⟩ := shown
  have htype : ∀ rest, ((blue ++ type ++ uncoloured ++ " " ++ rest).drop
      blue.length).takeWhile isShown = type := by
    intro rest
    rw [List.append_assoc, List.append_assoc, List.append_assoc, List.drop_left]
    exact takeWhile_uncoloured print.type _
  have hname : ∀ rest, (blue ++ type ++ uncoloured ++ " " ++ rest).drop
      (blue.length + type.length + uncoloured.length + 1) = rest := by
    intro rest
    refine List.drop_left' ?_
    rw [List.length_append, List.length_append, List.length_append]
    rfl
  cases faulty with
  | true =>
      have hyellow : (yellow ++ name ++ uncoloured).head? = some escapeChar := rfl
      have hread : ((yellow ++ name ++ uncoloured).drop yellow.length).takeWhile isShown =
          name := by
        rw [List.append_assoc, List.drop_left]
        exact (congrArg _ (congrArg _ (List.append_nil _).symm)).trans
          (takeWhile_uncoloured print.name [])
      rw [readShown, Shown.text, if_pos rfl, htype, hname, if_pos hyellow, hread]
  | false =>
      have hplain : ¬ name.head? = some escapeChar := fun hhead =>
        (print.name escapeChar (List.mem_of_head? hhead)).1 rfl
      rw [readShown, Shown.text, if_neg Bool.false_ne_true, htype, hname, if_neg hplain]

theorem readLine_text {guides : Text} (hguides : IsPrint guides) {shown : Shown}
    (print : shown.IsPrint) :
    readLine (guides ++ shown.text) = (guidedDepth guides.length, shown) := by
  obtain ⟨rest, hrest⟩ : ∃ rest, shown.text = escapeChar :: rest := ⟨_, rfl⟩
  rw [readLine, hrest, (takeWhile_isPrint hguides rest).1, (takeWhile_isPrint hguides rest).2,
    ← hrest, readShown_text print]

theorem newline_not_mem_text {shown : Shown} (print : shown.IsPrint) : '\n' ∉ shown.text := by
  have hcolours : '\n' ∉ blue ∧ '\n' ∉ uncoloured ∧ '\n' ∉ yellow ∧
      '\n' ∉ (" ".toList : Text) := by decide
  have htype : '\n' ∉ shown.type := fun hc => (print.type _ hc).2 rfl
  have hname : '\n' ∉ shown.name := fun hc => (print.name _ hc).2 rfl
  rw [Shown.text]
  cases shown.faulty <;> simp [hcolours, htype, hname]

/-- What is read from the line end that a text begins with. -/
def readBelow : Text → List (Nat × Shown)
  | [] => []
  | _ :: rest => readLines rest

/-- A text is empty or begins with a line end. -/
def EndsInstance (rest : Text) : Prop := rest = [] ∨ ∃ more, rest = '\n' :: more

theorem readLines_append {line : Text} (hline : '\n' ∉ line) {rest : Text}
    (ends : EndsInstance rest) :
    readLines (line ++ rest) = readLine line :: readBelow rest := by
  have hplain : ∀ c ∈ line, (c == '\n') = false := by
    intro c hc
    rw [beq_eq_false_iff_ne]
    rintro rfl
    exact hline hc
  rw [readLines, split, List.splitOn]
  rcases ends with rfl | ⟨more, rfl⟩
  · rw [List.append_nil, List.splitOnP_eq_singleton hplain]
    rfl
  · rw [List.splitOnP_append_cons (p := fun c => c == '\n') _ _ (beq_self_eq_true '\n'),
      List.splitOnP_eq_singleton hplain]
    rfl

theorem endsInstance_drawnBelow (spaces : Text) (row : List (Rose Shown)) {rest : Text}
    (ends : EndsInstance rest) : EndsInstance (drawnBelow spaces row ++ rest) := by
  cases row with
  | nil => exact ends
  | cons child row =>
      rw [drawnBelow]
      exact Or.inr ⟨_, rfl⟩

mutual

theorem readLines_drawn (tree : Rose Shown) {depth : Nat} {guides layer : Text}
    (hguides : IsPrint guides) (hlayer : IsPrint layer) (hdepth : guidedDepth guides.length = depth)
    (hlength : layer.length = 2 * depth) (lastChild : Bool)
    (print : ∀ entry ∈ Rose.outline depth tree, entry.2.IsPrint) {rest : Text}
    (ends : EndsInstance rest) :
    readLines (guides ++ (drawn layer lastChild tree ++ rest)) =
      Rose.outline depth tree ++ readBelow rest := by
  match tree with
  | .node shown children =>
      have hshown : shown.IsPrint := print (depth, shown) (.head _)
      have hline : '\n' ∉ guides ++ shown.text := by
        rw [List.mem_append, not_or]
        exact ⟨fun hc => (hguides _ hc).2 rfl, newline_not_mem_text hshown⟩
      have hspaces : (layer ++ guide lastChild).length = 2 * (depth + 1) := by
        rw [List.length_append, length_guide, hlength]
        rfl
      have hbelow := readBelow_drawnBelow children (hlayer.append (isPrint_guide lastChild))
        hspaces (fun entry hentry => print entry (.tail _ hentry)) ends
      rw [drawn, Rose.outline, ← List.append_assoc, ← List.append_assoc, List.append_assoc _ _ rest,
        readLines_append hline (endsInstance_drawnBelow _ _ ends), readLine_text hguides hshown,
        hdepth, hbelow]
      rfl

theorem readBelow_drawnBelow (row : List (Rose Shown)) {depth : Nat} {spaces : Text}
    (hspaces : IsPrint spaces) (hlength : spaces.length = 2 * depth)
    (print : ∀ entry ∈ Rose.outlines depth row, entry.2.IsPrint) {rest : Text}
    (ends : EndsInstance rest) :
    readBelow (drawnBelow spaces row ++ rest) = Rose.outlines depth row ++ readBelow rest := by
  match row with
  | [] => rfl
  | child :: row =>
      have hguides : IsPrint (spaces ++ (treeSymbol row.isEmpty ++ ['\u2500'])) :=
        hspaces.append (isPrint_treeSymbol _)
      have hdepth : guidedDepth (spaces ++ (treeSymbol row.isEmpty ++ ['\u2500'])).length =
          depth := by
        rw [List.length_append, length_treeSymbol, hlength, guidedDepth]
        omega
      have hfirst := readLines_drawn child hguides hspaces hdepth hlength row.isEmpty
        (fun entry hentry => print entry (List.mem_append_left _ hentry))
        (endsInstance_drawnBelow spaces row ends)
      have hlater := readBelow_drawnBelow row hspaces hlength
        (fun entry hentry => print entry (List.mem_append_right _ hentry)) ends
      rw [drawnBelow, Rose.outlines, List.append_assoc (Rose.outline depth child), ← hlater,
        ← hfirst]
      simp only [List.cons_append, List.append_assoc]
      rfl

end

theorem readTree_drawn (tree : Rose Shown) (lastChild : Bool)
    (print : ∀ entry ∈ Rose.outline 0 tree, entry.2.IsPrint) :
    readTree (drawn [] lastChild tree) = some tree := by
  have hblank : IsPrint [] := fun _ hc => by cases hc
  have hlines := readLines_drawn tree hblank hblank rfl rfl lastChild print (Or.inl rfl)
  rw [List.nil_append, List.append_nil, readBelow, List.append_nil] at hlines
  rw [readTree, hlines, Rose.regrow_outline_self]

end FaultInjection
