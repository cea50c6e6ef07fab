import FaultInjection.Verilog.Comments
import FaultInjection.Verilog.Equations

/-!
# Lines

The lexer begins anew on every line, so that the tokens of a text are those of its
lines.  A line is read piece by piece: what stands in front, a piece that is spelled
and what follows it.
-/

namespace FaultInjection.Verilog

namespace Lexer

theorem word_of_slash {text : List Char} (hmode : (start.read text).mode = .slash) :
    (start.read text).word = [] := by
  obtain ⟨before, rfl, hcode⟩ := exists_slash hmode
  obtain ⟨blank, hblank⟩ := exists_code hcode
  have hfacts : ('/' == grave) = false ∧ inWord '/' = false ∧ ('/' == '.') = false ∧
      ('/' == '\n') = false ∧ '/'.isWhitespace = false := by
    decide
  rw [read_append]
  show ((start.read before).step '/').word = []
  unfold step
  rw [hblank]
  simp only [code, hfacts, Bool.false_and, Bool.false_or, Bool.false_eq_true, if_false,
    beq_self_eq_true, if_true]
  exact Passage.flush_word_nil _

theorem read_newline {lexer : Lexer} (hslash : lexer.mode = .slash → lexer.word = []) :
    lexer.read ['\n'] = start.after lexer.finish := by
  have hflush : ∀ lexer : Lexer, { lexer.flush with mode := .code true } =
      start.after lexer.flush.tokens := by
    intro lexer
    unfold flush
    split_ifs with hword
    · show (⟨lexer.tokens, lexer.word, .code true⟩ : Lexer) = _
      rw [hword]
      rfl
    · rfl
  have hcode : ∀ (lexer : Lexer) (blank : Bool),
      lexer.code blank '\n' = { lexer.flush with mode := .code true } := by
    intro lexer blank
    have hfacts : ('\n' == grave) = false ∧ inWord '\n' = false ∧ ('\n' == '.') = false := by
      decide
    simp [code, hfacts]
  show lexer.step '\n' = _
  unfold step finish
  cases hmode : lexer.mode with
  | code blank => exact (hcode lexer blank).trans (hflush lexer)
  | slash =>
      refine (hcode _ false).trans ((hflush _).trans ?_)
      rw [show lexer.word = [] from hslash hmode]
      rfl
  | comment | quoted | escape => exact hflush lexer

theorem read_line (before : List Char) :
    start.read (before ++ ['\n']) = start.after (start.read before).finish := by
  rw [read_append]
  exact read_newline word_of_slash

end Lexer

theorem tokens_append_newline (before after : List Char) :
    tokens (before ++ '\n' :: after) = tokens before ++ tokens after := by
  have hcut : before ++ '\n' :: after = before ++ ['\n'] ++ after := by simp
  rw [hcut, tokens, Lexer.read_append, Lexer.read_line, Lexer.read_after, Lexer.finish_after,
    List.reverse_append]
  rfl

theorem Spells.tokens_eq {text : List Char} {read : List Token} (spells : Spells text read) :
    tokens text = read := by
  obtain ⟨ready, htokens⟩ := spells Lexer.start ⟨rfl, rfl⟩
  have hfinish : (Lexer.start.read text).finish = (Lexer.start.read text).tokens := by
    obtain ⟨hword, hcode⟩ := ready
    obtain ⟨blank, hmode⟩ := Lexer.exists_code hcode
    unfold Lexer.finish Lexer.flush
    rw [hmode]
    exact congrArg Lexer.tokens (if_pos hword)
  rw [tokens, hfinish, htokens, List.reverse_append, List.reverse_reverse]
  rfl

theorem Lexer.mode_symbol {c : Char} (hc : isSymbol c = true) {lexer : Lexer}
    (hcode : (lexer.step c).mode.isCode = true) : (lexer.step c).mode = .code false := by
  have hfacts : inWord c = false ∧ c ≠ '.' ∧ c ≠ '\n' ∧ c.isWhitespace = false ∧ c ≠ '/' ∧
      c ≠ '"' := by
    simpa [isSymbol, and_assoc] using hc
  obtain ⟨hword, hpoint, hnewline, hblank, hslash, hquote⟩ := hfacts
  have hgrave : (c == grave) = false := by
    rw [beq_eq_false_iff_ne]
    rintro rfl
    exact absurd hword (by decide)
  have hplain : ∀ (lexer : Lexer) (blank : Bool), (lexer.code blank c).mode = .code false := by
    intro lexer blank
    simp [code, hgrave, hword, hpoint, hnewline, hblank, hslash, hquote]
  obtain ⟨tokens, word, mode⟩ := lexer
  cases mode with
  | code blank => exact hplain _ blank
  | slash =>
      unfold step
      simp only [beq_iff_eq, hslash, if_false]
      exact hplain _ false
  | comment => simp [step, hnewline, Mode.isCode] at hcode
  | quoted =>
      by_cases hescape : c = '\\'
      · simp [step, hescape, Mode.isCode] at hcode
      · simp [step, hnewline, hquote, hescape, Mode.isCode] at hcode
  | escape => simp [step, hnewline, Mode.isCode] at hcode

/-- The tokens of a text, put together behind a piece that ends with a symbol. -/
theorem tokens_symbol {before text : List Char} {c : Char} {read : List Token}
    (ready : (Lexer.start.read before).Ready) (spells : Spells (text ++ [c]) read)
    (hc : Lexer.isSymbol c = true) (after : List Char) :
    tokens (before ++ (text ++ c :: after)) =
      (Lexer.start.read before).tokens.reverse ++ (read ++ tokensAfter after) := by
  obtain ⟨ready', htokens⟩ := spells _ ready
  have hstep : (Lexer.start.read before).read (text ++ [c]) =
      ((Lexer.start.read before).read text).step c := by
    rw [Lexer.read_append]
    rfl
  have hlexer : (Lexer.start.read before).read (text ++ [c]) =
      (Lexer.fresh false).after (read.reverse ++ (Lexer.start.read before).tokens) := by
    rw [← htokens]
    have hmode := Lexer.mode_symbol hc (hstep ▸ ready'.2)
    rw [← hstep] at hmode
    generalize (Lexer.start.read before).read (text ++ [c]) = lexer at ready' hmode ⊢
    obtain ⟨tokens, word, mode⟩ := lexer
    obtain ⟨hword, -⟩ := ready'
    simp only at hword hmode
    subst hword hmode
    rfl
  have hcut : before ++ (text ++ c :: after) = before ++ (text ++ [c]) ++ after := by
    simp
  rw [hcut, tokens, Lexer.read_append, Lexer.read_append, hlexer, Lexer.read_after,
    Lexer.finish_after, List.reverse_append, List.reverse_append, List.reverse_reverse,
    List.append_assoc]
  rfl

/-- A piece that ends with a symbol, the rest of its line and the lines behind. -/
theorem tokens_line {before text : List Char} {c : Char} {read : List Token}
    (ready : (Lexer.start.read before).Ready) (spells : Spells (text ++ [c]) read)
    (hc : Lexer.isSymbol c = true) (trail after : List Char) :
    tokens (before ++ (text ++ c :: (trail ++ '\n' :: after))) =
      (Lexer.start.read before).tokens.reverse ++ (read ++ (tokensAfter trail ++ tokens after)) := by
  have hcut : before ++ (text ++ c :: (trail ++ '\n' :: after)) =
      (before ++ (text ++ c :: trail)) ++ '\n' :: after := by
    simp
  rw [hcut, tokens_append_newline, tokens_symbol ready spells hc]
  simp

theorem Spells.tokens_line {text : List Char} {c : Char} {read : List Token}
    (spells : Spells (text ++ [c]) read) (hc : Lexer.isSymbol c = true) (trail after : List Char) :
    tokens (text ++ c :: (trail ++ '\n' :: after)) = read ++ (tokensAfter trail ++ tokens after) := by
  have ready : (Lexer.start.read []).Ready := ⟨rfl, rfl⟩
  exact Verilog.tokens_line ready spells hc trail after

theorem Spells.tokens_equals {text : List Char} {read : List Token}
    (spells : Spells (text ++ " = ".toList) read) (after : List Char) :
    tokens (text ++ (" = ".toList ++ after)) = read ++ tokensAfter after := by
  have ready : (Lexer.start.read []).Ready := ⟨rfl, rfl⟩
  exact tokens_spelled ready spells after

theorem Spells.tokens_word {text name rest : List Char} {read : List Token}
    (spells : Spells text read) (hname : Lexer.IsWord name)
    (hrest : rest.head?.all Lexer.breaks = true) :
    tokens (text ++ (name ++ rest)) = read ++ .word name :: tokensAfter rest := by
  obtain ⟨ready, htokens⟩ := spells (Lexer.start.read []) ⟨rfl, rfl⟩
  exact @Verilog.tokens_word [] text name rest read ready htokens hname hrest

end FaultInjection.Verilog
