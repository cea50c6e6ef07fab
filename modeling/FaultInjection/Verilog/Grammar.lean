import Mathlib.Data.List.Infix
import Mathlib.Tactic.SplitIfs

/-!
# Module definitions

A lexer and a reader for module definitions of the kind that hardware compilers
emit: a header with its ports, declarations, assignments, instantiations and
procedural blocks, where a name is declared before it is used.  Both take one item
after the other, so what stands in front is read in the same way whatever follows.
-/

namespace FaultInjection.Verilog

/-! ## Tokens -/

inductive Token where
  | word (text : List Char)
  | symbol (c : Char)
  | quoted
  deriving DecidableEq, Repr

/-- Where the lexer stands.  In code it knows whether the line is blank so far. -/
inductive Mode where
  | code (blank : Bool)
  | slash
  | comment
  | quoted
  | escape
  deriving DecidableEq, Repr

/-- The tokens and the characters of the word under way, both the last one first. -/
structure Lexer where
  tokens : List Token
  word : List Char
  mode : Mode
  deriving DecidableEq, Repr

/-- The grave accent, which begins a directive or a macro. -/
def grave : Char := Char.ofNat 96

/-- The characters of names, numbers and macros. -/
def inWord (c : Char) : Bool :=
  c.isAlphanum || c == '_' || c == '$' || c == '\'' || c == grave

namespace Lexer

def start : Lexer := ⟨[], [], .code true⟩

/-- End the word under way. -/
def flush (lexer : Lexer) : Lexer :=
  if lexer.word = [] then lexer
  else { lexer with tokens := .word lexer.word.reverse :: lexer.tokens, word := [] }

/-- A character of code.  A directive takes up its line. -/
def code (lexer : Lexer) (blank : Bool) (c : Char) : Lexer :=
  if c == grave && blank then { lexer.flush with mode := .comment }
  else if inWord c || (c == '.' && lexer.word.getLast?.any Char.isDigit) then
    { lexer with word := c :: lexer.word, mode := .code false }
  else if c == '\n' then { lexer.flush with mode := .code true }
  else if c.isWhitespace then { lexer.flush with mode := .code blank }
  else if c == '/' then { lexer.flush with mode := .slash }
  else if c == '"' then { lexer.flush with mode := .quoted }
  else ⟨.symbol c :: lexer.flush.tokens, [], .code false⟩

def step (lexer : Lexer) (c : Char) : Lexer :=
  match lexer.mode with
  | .code blank => lexer.code blank c
  | .slash =>
      if c == '/' then { lexer with mode := .comment }
      else { lexer with tokens := .symbol '/' :: lexer.tokens }.code false c
  | .comment => if c == '\n' then { lexer.flush with mode := .code true } else lexer
  | .quoted =>
      if c == '"' then { lexer with tokens := .quoted :: lexer.tokens, mode := .code false }
      else if c == '\n' then { lexer.flush with mode := .code true }
      else if c == '\\' then { lexer with mode := .escape }
      else lexer
  | .escape =>
      if c == '\n' then { lexer.flush with mode := .code true } else { lexer with mode := .quoted }

def read (lexer : Lexer) (text : List Char) : Lexer := text.foldl step lexer

/-- The tokens when the text is over. -/
def finish (lexer : Lexer) : List Token :=
  match lexer.mode with
  | .slash => .symbol '/' :: lexer.tokens
  | _ => lexer.flush.tokens

/-- The lexer with tokens read earlier. -/
def after (lexer : Lexer) (earlier : List Token) : Lexer :=
  { lexer with tokens := lexer.tokens ++ earlier }

theorem read_append (lexer : Lexer) (text more : List Char) :
    lexer.read (text ++ more) = (lexer.read text).read more :=
  List.foldl_append

theorem flush_after (lexer : Lexer) (earlier : List Token) :
    (lexer.after earlier).flush = lexer.flush.after earlier := by
  unfold flush
  by_cases hword : lexer.word = []
  · rw [if_pos hword]
    exact if_pos hword
  · rw [if_neg hword]
    exact if_neg hword

theorem code_after (lexer : Lexer) (earlier : List Token) (blank : Bool) (c : Char) :
    (lexer.after earlier).code blank c = (lexer.code blank c).after earlier := by
  unfold code
  rw [flush_after]
  have hword : (lexer.after earlier).word = lexer.word := rfl
  rw [hword]
  split_ifs <;> rfl

theorem step_after (lexer : Lexer) (earlier : List Token) (c : Char) :
    (lexer.after earlier).step c = (lexer.step c).after earlier := by
  unfold step
  have hmode : (lexer.after earlier).mode = lexer.mode := rfl
  rw [hmode]
  cases lexer.mode with
  | code blank => exact lexer.code_after earlier blank c
  | slash =>
      simp only
      split_ifs
      · rfl
      · exact code_after ⟨.symbol '/' :: lexer.tokens, lexer.word, .slash⟩ earlier false c
  | comment =>
      simp only
      rw [flush_after]
      split_ifs <;> rfl
  | quoted =>
      simp only
      rw [flush_after]
      split_ifs <;> rfl
  | escape =>
      simp only
      rw [flush_after]
      split_ifs <;> rfl

theorem read_after (lexer : Lexer) (earlier : List Token) (text : List Char) :
    (lexer.after earlier).read text = (lexer.read text).after earlier := by
  induction text generalizing lexer with
  | nil => rfl
  | cons c text ih =>
      show ((lexer.after earlier).step c).read text = _
      rw [step_after, ih]
      rfl

/-- Characters that are a token each. -/
def isSymbol (c : Char) : Bool :=
  !inWord c && c != '.' && c != '\n' && !c.isWhitespace && c != '/' && c != '"'

theorem step_symbol {lexer : Lexer} {blank : Bool} (hmode : lexer.mode = .code blank)
    {c : Char} (hc : isSymbol c = true) :
    lexer.step c = (⟨[.symbol c], [], .code false⟩ : Lexer).after lexer.flush.tokens := by
  simp only [isSymbol, Bool.and_eq_true, Bool.not_eq_true', bne_iff_ne] at hc
  obtain ⟨⟨⟨⟨⟨hword, hpoint⟩, hnewline⟩, hblank⟩, hslash⟩, hquote⟩ := hc
  have hgrave : (c == grave) = false := by
    rw [beq_eq_false_iff_ne]
    rintro rfl
    exact absurd hword (by decide)
  unfold step
  rw [hmode]
  simp [code, hgrave, hword, hpoint, hnewline, hblank, hslash, hquote, after]

theorem read_digits {lexer : Lexer} {blank : Bool} (hmode : lexer.mode = .code blank)
    {digits : List Char} (hdigits : ∀ c ∈ digits, c.isDigit = true) :
    ∃ blank', (lexer.read digits).mode = .code blank' := by
  induction digits generalizing lexer blank with
  | nil => exact ⟨blank, hmode⟩
  | cons c digits ih =>
      have hdigit := hdigits c (.head _)
      have hgrave : (c == grave) = false := by
        rw [beq_eq_false_iff_ne]
        rintro rfl
        exact absurd hdigit (by decide)
      have hword : inWord c = true := by
        simp [inWord, Char.isAlphanum, hdigit]
      have hstep : (lexer.step c).mode = .code false := by
        unfold step
        rw [hmode]
        simp [code, hgrave, hword]
      exact ih hstep fun d hd => hdigits d (.tail _ hd)

theorem tokens_suffix_step (lexer : Lexer) (c : Char) : lexer.tokens <:+ (lexer.step c).tokens := by
  have hlexer : lexer = (⟨[], lexer.word, lexer.mode⟩ : Lexer).after lexer.tokens := rfl
  rw [hlexer, step_after]
  exact ⟨_, rfl⟩

theorem tokens_suffix_read (lexer : Lexer) (text : List Char) :
    lexer.tokens <:+ (lexer.read text).tokens := by
  induction text generalizing lexer with
  | nil => exact List.suffix_refl _
  | cons c text ih => exact (lexer.tokens_suffix_step c).trans (ih (lexer.step c))

theorem tokens_suffix_finish (lexer : Lexer) : lexer.tokens <:+ lexer.finish := by
  have hflush : lexer.tokens <:+ lexer.flush.tokens := by
    unfold flush
    split_ifs
    · exact List.suffix_refl _
    · exact List.suffix_cons _ _
  unfold finish
  cases lexer.mode with
  | slash => exact List.suffix_cons _ _
  | code | comment | quoted | escape => exact hflush

end Lexer

/-- The tokens of a text. -/
def tokens (text : List Char) : List Token := (Lexer.start.read text).finish.reverse

/-- The tokens of a text begin with those that the lexer has behind a first part. -/
theorem tokens_prefix (before following : List Char) :
    (Lexer.start.read before).tokens.reverse <+: tokens (before ++ following) := by
  rw [tokens, List.reverse_prefix, Lexer.read_append]
  exact ((Lexer.start.read before).tokens_suffix_read following).trans
    (Lexer.tokens_suffix_finish _)

/-! ## The grammar -/

/-- What the reader expects next.  `depth` counts open brackets or blocks. -/
inductive Place where
  | header
  | type
  | ports
  | port (first : Bool)
  | range (port : Bool)
  | bounds (port : Bool)
  | name (port : Bool)
  | portEnd
  | headerEnd
  | item
  | declared
  | memory
  | target
  | selection
  | assigned
  | expression (depth : Nat) (empty : Bool)
  | block (depth : Nat)
  | instanceName
  | connections
  | connection (first : Bool)
  | formal
  | opening
  | actual (depth : Nat)
  | connectionEnd
  | instanceEnd
  | closed
  deriving DecidableEq, Repr

/-- The keywords of procedural code. -/
def procedureWords : List (List Char) :=
  ["if", "else", "for", "posedge", "negedge"].map String.toList

def keywords : List (List Char) :=
  procedureWords ++ ["module", "endmodule", "input", "output", "wire", "reg", "integer",
    "assign", "always", "initial", "begin", "end"].map String.toList

/-- Names begin with a letter or an underscore; numbers and macros do not. -/
def isName (text : List Char) : Bool :=
  text.head?.any (fun c => c.isAlpha || c == '_') && !keywords.contains text

/-- The names declared so far and the place in the grammar. -/
structure Reader where
  names : List (List Char)
  place : Place
  deriving DecidableEq, Repr

namespace Reader

def start : Reader := ⟨[], .header⟩

def goto (reader : Reader) (place : Place) : Option Reader := some { reader with place := place }

/-- Declare a name. -/
def declare (reader : Reader) (name : List Char) (place : Place) : Option Reader :=
  if isName name then some ⟨name :: reader.names, place⟩ else none

/-- A name is known when it has been declared, a number or a macro always. -/
def known (reader : Reader) (text : List Char) : Bool :=
  if isName text then reader.names.contains text else !keywords.contains text

def opens (c : Char) : Bool := c == '(' || c == '[' || c == '{'

def closes (c : Char) : Bool := c == ')' || c == ']' || c == '}'

/-- The first word of an item. -/
def item (reader : Reader) (text : List Char) : Option Reader :=
  if text = "wire".toList ∨ text = "reg".toList ∨ text = "integer".toList then
    reader.goto (.range false)
  else if text = "assign".toList then reader.goto .target
  else if text = "always".toList ∨ text = "initial".toList then reader.goto (.block 0)
  else if text = "endmodule".toList then reader.goto .closed
  else if isName text then reader.goto .instanceName
  else none

/-- A word of a procedural block. -/
def procedural (reader : Reader) (depth : Nat) (text : List Char) : Option Reader :=
  if text = "begin".toList then reader.goto (.block (depth + 1))
  else if text = "end".toList then
    match depth with
    | 0 => none
    | 1 => reader.goto .item
    | depth + 2 => reader.goto (.block (depth + 1))
  else if procedureWords.contains text || reader.known text then some reader
  else none

def word (reader : Reader) (text : List Char) : Option Reader :=
  match reader.place with
  | .header => if text = "module".toList then reader.goto .type else none
  | .type => if isName text then reader.goto .ports else none
  | .port _ =>
      if text = "input".toList ∨ text = "output".toList then reader.goto (.range true) else none
  | .range port | .name port =>
      reader.declare text (if port then .portEnd else .declared)
  | .item => reader.item text
  | .target => if reader.names.contains text then reader.goto .assigned else none
  | .expression depth _ => if reader.known text then reader.goto (.expression depth false) else none
  | .block depth => reader.procedural depth text
  | .instanceName => if isName text then reader.goto .connections else none
  | .formal => if isName text then reader.goto .opening else none
  | .bounds _ | .memory | .selection | .actual _ => if reader.known text then some reader else none
  | _ => none

def symbol (reader : Reader) (c : Char) : Option Reader :=
  match reader.place with
  | .ports => if c = '(' then reader.goto (.port true) else none
  | .port first => if c = ')' ∧ first then reader.goto .headerEnd else none
  | .range port => if c = '[' then reader.goto (.bounds port) else none
  | .bounds port =>
      if c = ':' then some reader else if c = ']' then reader.goto (.name port) else none
  | .portEnd =>
      if c = ',' then reader.goto (.port false)
      else if c = ')' then reader.goto .headerEnd else none
  | .headerEnd => if c = ';' then reader.goto .item else none
  | .declared =>
      if c = ';' then reader.goto .item
      else if c = '=' then reader.goto (.expression 0 true)
      else if c = '[' then reader.goto .memory else none
  | .memory =>
      if c = ':' then some reader else if c = ']' then reader.goto .declared else none
  | .assigned =>
      if c = '=' then reader.goto (.expression 0 true)
      else if c = '[' then reader.goto .selection else none
  | .selection =>
      if c = ':' then some reader else if c = ']' then reader.goto .assigned else none
  | .expression depth empty =>
      if c = ';' then if depth = 0 ∧ ¬ empty then reader.goto .item else none
      else if c = '.' then none
      else if opens c then reader.goto (.expression (depth + 1) false)
      else if closes c then
        if depth = 0 then none else reader.goto (.expression (depth - 1) false)
      else some reader
  | .block depth =>
      if c = ';' ∧ depth = 0 then reader.goto .item else if c = '.' then none else some reader
  | .connections => if c = '(' then reader.goto (.connection true) else none
  | .connection first =>
      if c = '.' then reader.goto .formal
      else if c = ')' ∧ first then reader.goto .instanceEnd else none
  | .opening => if c = '(' then reader.goto (.actual 0) else none
  | .actual depth =>
      if c = ';' ∨ c = '.' then none
      else if opens c then reader.goto (.actual (depth + 1))
      else if closes c then
        if depth = 0 then if c = ')' then reader.goto .connectionEnd else none
        else reader.goto (.actual (depth - 1))
      else some reader
  | .connectionEnd =>
      if c = ',' then reader.goto (.connection false)
      else if c = ')' then reader.goto .instanceEnd else none
  | .instanceEnd => if c = ';' then reader.goto .item else none
  | _ => none

def step (reader : Reader) (token : Token) : Option Reader :=
  match token with
  | .word text => reader.word text
  | .symbol c => reader.symbol c
  | .quoted =>
      match reader.place with
      | .block _ => some reader
      | _ => none

end Reader

/-- A text is a module definition of the grammar. -/
def WellFormed (text : List Char) : Prop :=
  ((tokens text).foldlM Reader.step Reader.start).map Reader.place = some .closed

instance (text : List Char) : Decidable (WellFormed text) :=
  inferInstanceAs (Decidable (_ = _))

example : WellFormed
    "module m(\n  input [3:0] a,\n  output b\n);\n  wire w = a[0] & b;\nendmodule".toList := by
  decide +kernel

example : ¬ WellFormed
    "module m(\n  output b\n);\n  assign b = w;\n  wire w = 1'h0;\nendmodule".toList := by
  decide +kernel

/-! ## Tokens that never follow each other -/

/-- No reading goes through the two tokens one after the other. -/
def Clash (first second : Token) : Prop :=
  ∀ reader reader' : Reader, reader.step first = some reader' → reader'.step second = none

/-- A semicolon ends an item, or it stands in a procedural block. -/
theorem Reader.symbol_semicolon {reader reader' : Reader}
    (hstep : reader.symbol ';' = some reader') :
    reader'.place = .item ∨ ∃ depth, reader'.place = .block depth := by
  obtain ⟨names, place⟩ := reader
  cases place with
  | headerEnd | declared | instanceEnd =>
      cases hstep
      exact Or.inl rfl
  | expression depth empty =>
      simp only [symbol, goto, if_true, Option.ite_none_right_eq_some,
        Option.some.injEq] at hstep
      obtain ⟨-, rfl⟩ := hstep
      exact Or.inl rfl
  | block depth =>
      simp only [symbol, goto] at hstep
      split at hstep
      · cases hstep
        exact Or.inl rfl
      · cases hstep
        exact Or.inr ⟨depth, rfl⟩
  | header | type | ports | port | range | bounds | name | portEnd | item | memory | target
    | selection | assigned | instanceName | connections | connection | formal | opening
    | actual | connectionEnd | closed => cases hstep

theorem Reader.word_output {reader : Reader}
    (hplace : reader.place = .item ∨ ∃ depth, reader.place = .block depth) :
    reader.word "output".toList = none := by
  have hname : isName "output".toList = false := by decide +kernel
  obtain ⟨names, place⟩ := reader
  rcases hplace with rfl | ⟨depth, rfl⟩
  · show item ⟨names, .item⟩ "output".toList = none
    rw [item, if_neg (by decide), if_neg (by decide), if_neg (by decide), if_neg (by decide),
      hname]
    rfl
  · have hkeyword : keywords.contains "output".toList = true := by decide +kernel
    have hprocedure : procedureWords.contains "output".toList = false := by decide +kernel
    show procedural ⟨names, .block depth⟩ depth "output".toList = none
    unfold procedural known
    rw [if_neg (by decide), if_neg (by decide), hname, hkeyword, hprocedure]
    rfl

theorem clash_semicolon_output : Clash (.symbol ';') (.word "output".toList) :=
  fun _ _ hstep => Reader.word_output (Reader.symbol_semicolon hstep)

/-- A text with a clash in it is no module definition, whatever stands around it. -/
theorem not_wellFormed_of_clash {before following : List Char} {first second : Token}
    (hclash : Clash first second)
    (hread : [second, first] <+: (Lexer.start.read before).tokens) :
    ¬ WellFormed (before ++ following) := by
  intro wellFormed
  obtain ⟨earlier, hread⟩ := hread
  obtain ⟨rest, hrest⟩ := tokens_prefix before following
  have htokens : tokens (before ++ following) =
      earlier.reverse ++ first :: second :: rest := by
    rw [← hrest, ← hread]
    simp
  rw [WellFormed, htokens, List.foldlM_append] at wellFormed
  obtain ⟨last, hlast, -⟩ := Option.map_eq_some_iff.mp wellFormed
  obtain ⟨reader, -, hlast⟩ := Option.bind_eq_some_iff.mp hlast
  rw [List.foldlM_cons] at hlast
  obtain ⟨reader', hfirst, hlast⟩ := Option.bind_eq_some_iff.mp hlast
  rw [List.foldlM_cons, hclash reader reader' hfirst] at hlast
  cases hlast

end FaultInjection.Verilog
