import FaultInjection.Verilog.Grammar

/-!
# Declarations and continuous assignments

What a text declares and what it assigns, read off its tokens without the rest of the
grammar.  A keyword ends the statement in front of it, so that an outline goes on where
a semicolon is missing.
-/

namespace FaultInjection.Verilog

/-- The keywords that declare a port, a wire or a register. -/
def declaringWords : List (List Char) :=
  ["input", "output", "inout", "wire", "reg"].map String.toList

def reservedWords : List (List Char) := keywords ++ ["inout", "signed"].map String.toList

/-- Where the outline stands in a statement: in front of a name, in the bounds in front
of it, behind a name, in the bounds behind it, in the target of an assignment, or in an
expression, where `depth` counts open brackets. -/
inductive Spot where
  | code
  | declaring
  | range
  | declared (name : List Char)
  | memory (name : List Char)
  | target (read : List Token)
  | driver (declares : Bool) (depth : Nat)
  deriving DecidableEq, Repr

/-- The declared names and the assigned targets, both the last one first. -/
structure Outline where
  declared : List (List Char)
  targets : List (List Token)
  spot : Spot
  deriving DecidableEq, Repr

namespace Outline

def start : Outline := ⟨[], [], .code⟩

def word (outline : Outline) (text : List Char) : Outline :=
  if declaringWords.contains text then { outline with spot := .declaring }
  else if text = "assign".toList then { outline with spot := .target [] }
  else if keywords.contains text then { outline with spot := .code }
  else
    match outline.spot with
    | .declaring =>
        if isName text && text != "signed".toList then
          ⟨text :: outline.declared, outline.targets, .declared text⟩
        else outline
    | .declared _ => { outline with spot := .code }
    | .target read => { outline with spot := .target (read ++ [.word text]) }
    | .code | .range | .memory _ | .driver _ _ => outline

def symbol (outline : Outline) (c : Char) : Outline :=
  match outline.spot with
  | .code => outline
  | .declaring =>
      if c = '[' then { outline with spot := .range }
      else if c = ';' then { outline with spot := .code }
      else outline
  | .range => if c = ']' then { outline with spot := .declaring } else outline
  | .declared name =>
      if c = ',' then { outline with spot := .declaring }
      else if c = '[' then { outline with spot := .memory name }
      else if c = '=' then
        ⟨outline.declared, [.word name] :: outline.targets, .driver true 0⟩
      else { outline with spot := .code }
  | .memory name => if c = ']' then { outline with spot := .declared name } else outline
  | .target read =>
      if c = '=' then ⟨outline.declared, read :: outline.targets, .driver false 0⟩
      else if c = ';' then { outline with spot := .code }
      else { outline with spot := .target (read ++ [.symbol c]) }
  | .driver declares depth =>
      if c = ';' then { outline with spot := .code }
      else if Reader.opens c then { outline with spot := .driver declares (depth + 1) }
      else if Reader.closes c then
        { outline with spot := if depth = 0 then .code else .driver declares (depth - 1) }
      else if c = ',' ∧ depth = 0 then
        { outline with spot := if declares then .declaring else .target [] }
      else outline

def step (outline : Outline) (token : Token) : Outline :=
  match token with
  | .word text => outline.word text
  | .symbol c => outline.symbol c
  | .quoted => outline

def read (outline : Outline) (tokens : List Token) : Outline := tokens.foldl step outline

/-- The outline with names and targets read earlier. -/
def after (outline : Outline) (declared : List (List Char)) (targets : List (List Token)) :
    Outline :=
  ⟨outline.declared ++ declared, outline.targets ++ targets, outline.spot⟩

theorem step_after (outline : Outline) (declared : List (List Char))
    (targets : List (List Token)) (token : Token) :
    (outline.after declared targets).step token =
      (outline.step token).after declared targets := by
  obtain ⟨names, driven, spot⟩ := outline
  cases token with
  | quoted => rfl
  | word text =>
      simp only [step, word, after]
      cases spot <;> (simp only; split_ifs <;> rfl)
  | symbol c =>
      simp only [step, symbol, after]
      cases spot with
      | code => rfl
      | declaring | range | declared | memory | target | driver =>
          simp only
          split_ifs <;> rfl

theorem read_after (outline : Outline) (declared : List (List Char))
    (targets : List (List Token)) (tokens : List Token) :
    (outline.after declared targets).read tokens =
      (outline.read tokens).after declared targets := by
  induction tokens generalizing outline with
  | nil => rfl
  | cons token tokens ih =>
      show ((outline.after declared targets).step token).read tokens = _
      rw [step_after, ih]
      rfl

theorem after_after (outline : Outline) (declared earlier : List (List Char))
    (targets before : List (List Token)) :
    (outline.after declared targets).after earlier before =
      outline.after (declared ++ earlier) (targets ++ before) := by
  simp only [after, List.append_assoc]

theorem read_append (outline : Outline) (tokens more : List Token) :
    outline.read (tokens ++ more) = (outline.read tokens).read more :=
  List.foldl_append

end Outline

def outline (text : List Char) : Outline := Outline.start.read (tokens text)

/-- The names that a text declares as ports, wires or registers. -/
def declared (text : List Char) : List (List Char) := (outline text).declared

/-- The targets of the continuous assignments of a text. -/
def targets (text : List Char) : List (List Token) := (outline text).targets

example : declared ("module m(\n  input [3:0] a, b,\n  output reg c\n);\n" ++
    "  wire w = a[0] & b; // wire x;\n  reg [7:0] r [0:15]\n  wire v;\nendmodule").toList =
      ["v", "r", "w", "c", "b", "a"].map String.toList := by
  decide +kernel

end FaultInjection.Verilog
