import Mathlib.Data.List.Basic

/-!
# Prioritised patterns

A fragment of backtracking regular expressions over an arbitrary alphabet.
Repetition ranges over a character class, greedily or lazily; everything else is
the usual syntax.  The meaning of a pattern at a position is the list of all its
readings there, in the order in which a backtracking matcher tries them, so the
match that the matcher reports is the head of that list.
-/

namespace FaultInjection.Regex

/-- Patterns whose repetitions range over a class of characters. -/
inductive Pattern (α : Type) where
  | empty : Pattern α
  | one (accepts : α → Bool) : Pattern α
  | many (accepts : α → Bool) : Pattern α
  | few (accepts : α → Bool) : Pattern α
  | seq (first second : Pattern α) : Pattern α
  | alt (first second : Pattern α) : Pattern α
  | group (index : Nat) (body : Pattern α) : Pattern α

namespace Pattern

variable {α : Type}

/-- A literal word. -/
def word [BEq α] : List α → Pattern α
  | [] => .empty
  | c :: rest => .seq (.one (· == c)) (word rest)

/-- Patterns one after the other. -/
def chain : List (Pattern α) → Pattern α
  | [] => .empty
  | [last] => last
  | first :: second :: rest => .seq first (chain (second :: rest))

/-- `p?`, tried with `p` first. -/
def maybe (body : Pattern α) : Pattern α := .alt body .empty

/-- `p+` for a class `p`. -/
def some (accepts : α → Bool) : Pattern α := .seq (.one accepts) (.many accepts)

/-- `p+?` for a class `p`. -/
def someFew (accepts : α → Bool) : Pattern α := .seq (.one accepts) (.few accepts)

end Pattern

/-- One reading of a pattern at a position: what it took, what is left, and the
texts of the groups it closed, the latest first. -/
structure Match (α : Type) where
  taken : List α
  rest : List α
  groups : List (Nat × List α)
  deriving DecidableEq, Repr

namespace Match

variable {α : Type}

/-- The text of a group, empty when the group took no part in the match. -/
def group (m : Match α) (index : Nat) : List α :=
  (m.groups.lookup index).getD []

/-- Put text taken earlier, with the groups closed there, before a reading. -/
def after (earlier : Match α) (m : Match α) : Match α :=
  ⟨earlier.taken ++ m.taken, m.rest, m.groups ++ earlier.groups⟩

/-- Record the text of a reading as the text of a group. -/
def close (index : Nat) (m : Match α) : Match α :=
  { m with groups := (index, m.taken) :: m.groups }

end Match

variable {α : Type}

/-- The ways to cut a word after characters of one class, the shortest first. -/
def cuts (accepts : α → Bool) : List α → List (List α × List α)
  | [] => [([], [])]
  | c :: rest =>
      ([], c :: rest) ::
        if accepts c then
          (cuts accepts rest).map fun cut => (c :: cut.1, cut.2)
        else []

/-- All readings of a pattern at the start of a word, in backtracking order. -/
def readings : Pattern α → List α → List (Match α)
  | .empty, input => [⟨[], input, []⟩]
  | .one _, [] => []
  | .one accepts, c :: rest => if accepts c then [⟨[c], rest, []⟩] else []
  | .many accepts, input =>
      (cuts accepts input).reverse.map fun cut => ⟨cut.1, cut.2, []⟩
  | .few accepts, input => (cuts accepts input).map fun cut => ⟨cut.1, cut.2, []⟩
  | .seq first second, input =>
      (readings first input).flatMap fun m =>
        (readings second m.rest).map m.after
  | .alt first second, input => readings first input ++ readings second input
  | .group index body, input => (readings body input).map (Match.close index)

theorem readings_empty (input : List α) : readings .empty input = [⟨[], input, []⟩] := rfl

theorem readings_one_nil (accepts : α → Bool) : readings (.one accepts) [] = [] := rfl

theorem readings_one (accepts : α → Bool) (c : α) (rest : List α) :
    readings (.one accepts) (c :: rest) = if accepts c then [⟨[c], rest, []⟩] else [] := rfl

theorem readings_many (accepts : α → Bool) (input : List α) :
    readings (.many accepts) input =
      (cuts accepts input).reverse.map fun cut => ⟨cut.1, cut.2, []⟩ := rfl

theorem readings_few (accepts : α → Bool) (input : List α) :
    readings (.few accepts) input = (cuts accepts input).map fun cut => ⟨cut.1, cut.2, []⟩ := rfl

theorem readings_seq (first second : Pattern α) (input : List α) :
    readings (.seq first second) input =
      (readings first input).flatMap fun m => (readings second m.rest).map m.after := rfl

theorem readings_alt (first second : Pattern α) (input : List α) :
    readings (.alt first second) input = readings first input ++ readings second input := rfl

theorem readings_group (index : Nat) (body : Pattern α) (input : List α) :
    readings (.group index body) input = (readings body input).map (Match.close index) := rfl

/-- The match reported at the start of a word. -/
def matchAt (pattern : Pattern α) (input : List α) : Option (Match α) :=
  (readings pattern input).head?

/-- A scanned word is cut into characters passed over and matches. -/
inductive Piece (α : Type) where
  | skip (c : α)
  | hit (m : Match α)

/--
Leftmost non-overlapping scan.  The counter holds how many characters of the
last match are still to be consumed.  Patterns that match the empty word are
not scanned with this function.
-/
def scan (pattern : Pattern α) : Nat → List α → List (Piece α)
  | _, [] => []
  | pending + 1, _ :: rest => scan pattern pending rest
  | 0, c :: rest =>
      match matchAt pattern (c :: rest) with
      | none => .skip c :: scan pattern 0 rest
      | some m => .hit m :: scan pattern (m.taken.length - 1) rest

def Piece.hit? : Piece α → Option (Match α)
  | .skip _ => none
  | .hit m => some m

def Piece.render (replacement : Match α → List α) : Piece α → List α
  | .skip c => [c]
  | .hit m => replacement m

/-- `re.finditer`. -/
def findall (pattern : Pattern α) (input : List α) : List (Match α) :=
  (scan pattern 0 input).filterMap Piece.hit?

/-- `re.sub` with a replacement function. -/
def sub (pattern : Pattern α) (replacement : Match α → List α) (input : List α) :
    List α :=
  (scan pattern 0 input).flatMap (Piece.render replacement)

end FaultInjection.Regex
