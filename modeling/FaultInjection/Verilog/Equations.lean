import FaultInjection.Verilog.Passage

/-!
# Equations

The equations of a text, one for each declaration with a driver and for each continuous
assignment, read off its tokens.
-/

namespace FaultInjection.Verilog

/-- What is driven, with its range where it is declared, and the expression that drives it. -/
structure Equation where
  target : List Token
  driver : List Token
  deriving DecidableEq, Repr

/-- The keywords of equations. -/
def drives : Token → Bool
  | .word text => text == "wire".toList || text == "assign".toList
  | .symbol _ | .quoted => false

/-- The equation behind the first keyword of a statement. -/
def equation? (statement : List Token) : Option Equation :=
  match statement.dropWhile fun token => !drives token with
  | [] => none
  | _ :: rest =>
      match rest.dropWhile (· != .symbol '=') with
      | [] => none
      | _ :: driver => some ⟨rest.takeWhile (· != .symbol '='), driver⟩

def equationsOf (tokens : List Token) : List Equation :=
  (tokens.splitOn (.symbol ';')).filterMap equation?

/-- The equations of a text in their order. -/
def equations (text : List Char) : List Equation := equationsOf (tokens text)

example : equations ("module m(\n  input [3:0] a\n);\n  wire [1:0] w = a[1:0]; // wire x = y;\n" ++
    "  reg r;\n  assign b = w == r;\n  always @(posedge c) begin\n    r <= b;\n  end\n" ++
    "  wire v;\nendmodule").toList =
      [⟨[.symbol '[', .word ['1'], .symbol ':', .word ['0'], .symbol ']', .word ['w']],
          [.word ['a'], .symbol '[', .word ['1'], .symbol ':', .word ['0'], .symbol ']']⟩,
        ⟨[.word ['b']], [.word ['w'], .symbol '=', .symbol '=', .word ['r']]⟩] := by
  decide +kernel

/-- A statement that begins with its keyword is cut at its first equals sign. -/
theorem equation?_cons {keyword : Token} (hkeyword : drives keyword = true)
    {target : List Token} (htarget : .symbol '=' ∉ target) (driver : List Token) :
    equation? (keyword :: (target ++ .symbol '=' :: driver)) = some ⟨target, driver⟩ := by
  have hother : ∀ token ∈ target, (token != .symbol '=') = true := by
    intro token htoken
    rw [bne_iff_ne]
    rintro rfl
    exact htarget htoken
  have hdrop : (keyword :: (target ++ .symbol '=' :: driver)).dropWhile (fun token => !drives token) =
      keyword :: (target ++ .symbol '=' :: driver) := by
    rw [List.dropWhile_cons_of_neg]
    rw [hkeyword]
    exact Bool.false_ne_true
  rw [equation?, hdrop]
  simp only
  rw [List.dropWhile_append_of_pos hother, List.takeWhile_append_of_pos hother,
    List.dropWhile_cons_of_neg (by decide), List.takeWhile_cons_of_neg (by decide),
    List.append_nil]

theorem equation?_append {front : List Token} (hfront : ∀ token ∈ front, drives token = false)
    (statement : List Token) : equation? (front ++ statement) = equation? statement := by
  rw [equation?, List.dropWhile_append_of_pos, ← equation?]
  intro token htoken
  rw [hfront token htoken]
  rfl

theorem equation?_eq_none {front : List Token} (hfront : ∀ token ∈ front, drives token = false) :
    equation? front = none := by
  have hnone := equation?_append hfront []
  rwa [List.append_nil] at hnone

section Statements

variable {statement : List Token} (hstatement : .symbol ';' ∉ statement)
include hstatement

theorem split_statement :
    ∀ token ∈ statement, (token == Token.symbol ';') = false := by
  intro token htoken
  rw [beq_eq_false_iff_ne]
  rintro rfl
  exact hstatement htoken

theorem equationsOf_single : equationsOf statement = (equation? statement).toList := by
  rw [equationsOf, List.splitOn, List.splitOnP_eq_singleton (split_statement hstatement),
    List.filterMap_cons]
  cases equation? statement <;> rfl

theorem equationsOf_cons (rest : List Token) :
    equationsOf (statement ++ .symbol ';' :: rest) =
      (equation? statement).toList ++ equationsOf rest := by
  have hsplit := List.splitOnP_append_cons (p := fun token => token == Token.symbol ';')
    statement rest (beq_self_eq_true _)
  rw [← equationsOf_single hstatement, equationsOf, List.splitOn, hsplit, List.filterMap_append]
  rfl

end Statements

/-- Every equation that begins in the tokens also ends there. -/
def Ended (tokens : List Token) : Prop :=
  ∀ front keyword back, tokens = front ++ keyword :: back → drives keyword = true →
    .symbol ';' ∈ back

/-- The first statement, and the rest behind its semicolon if it has one. -/
theorem exists_statement (tokens : List Token) : ∃ statement, .symbol ';' ∉ statement ∧
    (tokens = statement ∨ ∃ rest, tokens = statement ++ .symbol ';' :: rest) := by
  by_cases hmem : Token.symbol ';' ∈ tokens
  · obtain ⟨statement, rest, heq, hstatement⟩ := List.eq_append_cons_of_mem hmem
    exact ⟨statement, hstatement, Or.inr ⟨rest, heq⟩⟩
  · exact ⟨tokens, hmem, Or.inl rfl⟩

theorem equationsOf_append {front : List Token} (hended : Ended front) (back : List Token) :
    equationsOf (front ++ back) = equationsOf front ++ equationsOf back := by
  induction hlength : front.length using Nat.strongRecOn generalizing front with
  | ind length ih =>
      obtain ⟨statement, hstatement, rfl | ⟨rest, rfl⟩⟩ := exists_statement front
      · -- no equation begins behind the last semicolon
        have hquiet : ∀ token ∈ front, drives token = false := by
          intro token htoken
          rw [← Bool.not_eq_true]
          intro hdrives
          obtain ⟨before, after, heq⟩ := List.append_of_mem htoken
          refine hstatement ?_
          rw [heq]
          exact List.mem_append_right _ (.tail _ (hended before token after heq hdrives))
        have hnone : equationsOf front = [] := by
          rw [equationsOf_single hstatement, equation?_eq_none hquiet]
          rfl
        obtain ⟨first, hfirst, rfl | ⟨more, rfl⟩⟩ := exists_statement back
        · rw [hnone, List.nil_append, equationsOf_single hfirst, equationsOf_single,
            equation?_append hquiet]
          exact List.not_mem_append hstatement hfirst
        · rw [hnone, List.nil_append, equationsOf_cons hfirst, ← List.append_assoc,
            equationsOf_cons, equation?_append hquiet]
          exact List.not_mem_append hstatement hfirst
      · have hrest : Ended rest := by
          intro before keyword after heq hkeyword
          refine hended (statement ++ .symbol ';' :: before) keyword after ?_ hkeyword
          rw [heq, List.append_assoc, List.cons_append]
        have hlt : rest.length < length := by
          rw [← hlength, List.length_append, List.length_cons]
          omega
        rw [List.append_assoc, List.cons_append, equationsOf_cons hstatement,
          equationsOf_cons hstatement, ih rest.length hlt hrest rfl, List.append_assoc]

/-- What follows the equals sign of an equation does not depend on what stands before it. -/
theorem exists_driver (rest : List Token) : ∃ driver back, ∀ {keyword : Token} {target : List Token},
    drives keyword = true → .symbol '=' ∉ target → .symbol ';' ∉ keyword :: target →
      equationsOf (keyword :: (target ++ .symbol '=' :: rest)) = ⟨target, driver⟩ :: back := by
  have hequals : Token.symbol ';' ≠ .symbol '=' := by decide
  have hstatement : ∀ {keyword : Token} {target driver : List Token},
      .symbol ';' ∉ keyword :: target → .symbol ';' ∉ driver →
        .symbol ';' ∉ keyword :: (target ++ .symbol '=' :: driver) := by
    intro keyword target driver hkeyword hdriver
    rw [← List.cons_append]
    intro hmem
    rcases List.mem_append.mp hmem with hmem | hmem
    · exact hkeyword hmem
    · rcases List.mem_cons.mp hmem with hmem | hmem
      · exact hequals hmem
      · exact hdriver hmem
  obtain ⟨driver, hdriver, rfl | ⟨more, rfl⟩⟩ := exists_statement rest
  · refine ⟨rest, [], fun hkeyword htarget hclosed => ?_⟩
    rw [equationsOf_single (hstatement hclosed hdriver), equation?_cons hkeyword htarget]
    rfl
  · refine ⟨driver, equationsOf more, fun {keyword target} hkeyword htarget hclosed => ?_⟩
    have hcut : keyword :: (target ++ .symbol '=' :: (driver ++ .symbol ';' :: more)) =
        (keyword :: (target ++ .symbol '=' :: driver)) ++ .symbol ';' :: more := by
      simp
    rw [hcut, equationsOf_cons (hstatement hclosed hdriver), equation?_cons hkeyword htarget]
    rfl

theorem equationsOf_equation {keyword : Token} {target driver : List Token}
    (hkeyword : drives keyword = true) (htarget : .symbol '=' ∉ target)
    (hclosed : .symbol ';' ∉ keyword :: (target ++ .symbol '=' :: driver)) (rest : List Token) :
    equationsOf (keyword :: (target ++ .symbol '=' :: (driver ++ .symbol ';' :: rest))) =
      ⟨target, driver⟩ :: equationsOf rest := by
  have hcut : keyword :: (target ++ .symbol '=' :: (driver ++ .symbol ';' :: rest)) =
      (keyword :: (target ++ .symbol '=' :: driver)) ++ .symbol ';' :: rest := by
    simp
  rw [hcut, equationsOf_cons hclosed, equation?_cons hkeyword htarget]
  rfl

theorem Signal.symbol_not_mem (signal : Signal) {c : Char} (hc : c ≠ '[' ∧ c ≠ ']') :
    .symbol c ∉ signal.tokens := by
  unfold Signal.tokens
  cases signal.bit <;> simp [hc.1, hc.2]

/-- A text that is read as the given tokens wherever code begins a new word. -/
def Spells (text : List Char) (tokens : List Token) : Prop :=
  ∀ lexer : Lexer, lexer.Ready →
    (lexer.read text).Ready ∧ (lexer.read text).tokens = tokens.reverse ++ lexer.tokens

namespace Spells

variable {text text' : List Char} {read read' : List Token}

theorem literal (hreads : Lexer.reads text read = true) : Spells text read :=
  fun _ ready => Lexer.read_of_reads hreads ready

theorem append (first : Spells text read) (second : Spells text' read') :
    Spells (text ++ text') (read ++ read') := by
  intro lexer ready
  obtain ⟨ready', hfirst⟩ := first lexer ready
  obtain ⟨ready'', hsecond⟩ := second _ ready'
  rw [Lexer.read_append]
  refine ⟨ready'', ?_⟩
  rw [hsecond, hfirst, List.reverse_append, List.append_assoc]

theorem word (hword : Lexer.IsWord text) (hbreak : text'.head?.any Lexer.breaks = true)
    (more : Spells text' read') : Spells (text ++ text') (.word text :: read') := by
  intro lexer ready
  obtain ⟨ready', hmore⟩ := more ⟨.word text :: lexer.tokens, [], .code false⟩ ⟨rfl, rfl⟩
  rw [Lexer.read_append, hword.read ready, Lexer.read_flush rfl hbreak,
    Lexer.flush_word lexer.tokens hword.ne_nil]
  refine ⟨ready', ?_⟩
  rw [hmore, List.reverse_cons, List.append_assoc]
  rfl

theorem whitespace {blanks : List Char} (hblanks : ∀ c ∈ blanks, c.isWhitespace = true) :
    Spells blanks [] := by
  induction blanks with
  | nil => exact fun lexer ready => ⟨ready, rfl⟩
  | cons c blanks ih =>
      have hreads : Lexer.reads [c] [] = true := by
        have hc := hblanks c (.head _)
        simp only [Char.isWhitespace, Bool.or_eq_true, decide_eq_true_eq] at hc
        rcases hc with ((rfl | rfl) | rfl) | rfl <;> decide +kernel
      exact (literal hreads).append (ih fun d hd => hblanks d (.tail _ hd))

theorem signal (signal : Signal) (hbreak : text'.head?.any Lexer.breaks = true)
    (more : Spells text' read') : Spells (signal.text ++ text') (signal.tokens ++ read') := by
  have hword := isIdentifier.isWord signal.identifier
  unfold Signal.text Signal.tokens
  cases signal.bit with
  | none =>
      rw [List.append_nil]
      exact word hword hbreak more
  | some bit =>
      have hclose := (literal reads_bracket.2).append more
      have hindex := word (isWord_digits (isDigit_of_mem_toDigits bit) Nat.toDigits_ne_nil)
        (by rfl) hclose
      have hall := word hword (by rfl) ((literal reads_bracket.1).append hindex)
      rw [List.append_assoc, List.cons_append, List.append_assoc]
      exact hall

end Spells

theorem Lexer.code_blank (lexer : Lexer) (blank : Bool) :
    lexer.code blank ' ' = { lexer.flush with mode := .code blank } := by
  have hfacts : (' ' == grave) = false ∧ inWord ' ' = false ∧ (' ' == '.') = false ∧
      (' ' == '\n') = false ∧ ' '.isWhitespace = true := by
    decide
  simp [code, hfacts]

theorem Lexer.mode_equals (lexer : Lexer) (hcode : (lexer.read " = ".toList).mode.isCode = true) :
    (lexer.read " = ".toList).mode = .code false := by
  have htext : " = ".toList = [' ', '=', ' '] := by decide +kernel
  have hequals : isSymbol '=' = true := by decide
  have hcommon : ∀ lexer : Lexer, lexer.mode.isCode = true →
      ((lexer.step '=').step ' ').mode = .code false := by
    intro lexer hcode
    obtain ⟨blank, hmode⟩ := exists_code hcode
    rw [step_symbol hmode hequals]
    rfl
  rw [htext] at hcode ⊢
  change ((((lexer.step ' ').step '=').step ' ').mode.isCode = true) at hcode
  change (((lexer.step ' ').step '=').step ' ').mode = .code false
  obtain ⟨tokens, word, mode⟩ := lexer
  cases mode with
  | code blank =>
      refine hcommon _ ?_
      show (Lexer.code _ blank ' ').mode.isCode = true
      rw [code_blank]
      rfl
  | slash =>
      refine hcommon _ ?_
      show (Lexer.code _ false ' ').mode.isCode = true
      rw [code_blank]
      rfl
  | comment | quoted | escape => cases hcode

/-- The tokens of a text, put together at the end of a spelled piece of it. -/
theorem tokens_spelled {before text : List Char} {read : List Token}
    (ready : (Lexer.start.read before).Ready) (spells : Spells (text ++ " = ".toList) read)
    (after : List Char) :
    tokens (before ++ (text ++ (" = ".toList ++ after))) =
      (Lexer.start.read before).tokens.reverse ++ (read ++ tokensAfter after) := by
  obtain ⟨ready', htokens⟩ := spells _ ready
  have hmode := ((Lexer.start.read before).read text).mode_equals (by
    rw [← Lexer.read_append]
    exact ready'.2)
  rw [← Lexer.read_append] at hmode
  have hlexer : (Lexer.start.read before).read (text ++ " = ".toList) =
      (Lexer.fresh false).after (read.reverse ++ (Lexer.start.read before).tokens) := by
    rw [← htokens]
    generalize (Lexer.start.read before).read (text ++ " = ".toList) = lexer at ready' hmode ⊢
    obtain ⟨tokens, word, mode⟩ := lexer
    obtain ⟨hword, -⟩ := ready'
    simp only at hword hmode
    subst hword hmode
    rfl
  rw [← List.append_assoc text, tokens, Lexer.read_append, Lexer.read_append, hlexer,
    Lexer.read_after, Lexer.finish_after, List.reverse_append, List.reverse_append,
    List.reverse_reverse, List.append_assoc]
  rfl

end FaultInjection.Verilog
