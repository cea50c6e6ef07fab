import FaultInjection.Verilog.Outline

/-!
# Passages

A passage is a piece of text that begins and ends between two words of code.  What it
adds to an outline does not depend on what stands around it, so that the outline of a
text is put together from those of its pieces.
-/

namespace FaultInjection.Verilog

def Mode.isCode : Mode → Bool
  | .code _ => true
  | _ => false

namespace Lexer

/-- The lexer stands in code and no word is under way. -/
def Ready (lexer : Lexer) : Prop := lexer.word = [] ∧ lexer.mode.isCode = true

instance (lexer : Lexer) : Decidable lexer.Ready := inferInstanceAs (Decidable (_ ∧ _))

/-- The lexer in code, with nothing read. -/
def fresh (blank : Bool) : Lexer := ⟨[], [], .code blank⟩

theorem exists_code {lexer : Lexer} (hcode : lexer.mode.isCode = true) :
    ∃ blank, lexer.mode = .code blank := by
  cases hmode : lexer.mode with
  | code blank => exact ⟨blank, rfl⟩
  | slash | comment | quoted | escape =>
      rw [hmode] at hcode
      cases hcode

theorem Ready.eq_after {lexer : Lexer} (ready : lexer.Ready) :
    ∃ blank, lexer = (fresh blank).after lexer.tokens := by
  obtain ⟨tokens, word, mode⟩ := lexer
  obtain ⟨hword, hcode⟩ := ready
  obtain ⟨blank, hmode⟩ := exists_code hcode
  simp only at hword hmode
  subst hword hmode
  exact ⟨blank, rfl⟩

theorem Ready.after {lexer : Lexer} (ready : lexer.Ready) (earlier : List Token) :
    (lexer.after earlier).Ready := ready

/-- A text that is read in the same way wherever code begins a new word. -/
def reads (text : List Char) (tokens : List Token) : Bool :=
  [true, false].all fun blank =>
    let lexer := (fresh blank).read text
    lexer.tokens == tokens.reverse && lexer.word.isEmpty && lexer.mode.isCode

theorem read_of_reads {text : List Char} {tokens : List Token} (hreads : reads text tokens = true)
    {lexer : Lexer} (ready : lexer.Ready) :
    (lexer.read text).Ready ∧ (lexer.read text).tokens = tokens.reverse ++ lexer.tokens := by
  obtain ⟨blank, hlexer⟩ := ready.eq_after
  have hblank : blank ∈ [true, false] := by cases blank <;> simp
  have hfresh := List.all_eq_true.mp hreads blank hblank
  simp only [Bool.and_eq_true, beq_iff_eq, List.isEmpty_iff] at hfresh
  obtain ⟨⟨htokens, hword⟩, hcode⟩ := hfresh
  rw [hlexer, read_after]
  refine ⟨⟨hword, hcode⟩, ?_⟩
  show ((fresh blank).read text).tokens ++ _ = tokens.reverse ++ ([] ++ _)
  rw [htokens, List.nil_append]

/-! ### Words -/

/-- The characters of a word that begins no directive. -/
structure IsWord (text : List Char) : Prop where
  ne_nil : text ≠ []
  inWord : ∀ c ∈ text, inWord c = true ∧ c ≠ grave

/-- A character that ends the word in front of it. -/
def breaks (c : Char) : Bool := !Verilog.inWord c && c != '.'

theorem step_inWord {lexer : Lexer} (hcode : lexer.mode.isCode = true) {c : Char}
    (hc : Verilog.inWord c = true ∧ c ≠ grave) :
    lexer.step c = ⟨lexer.tokens, c :: lexer.word, .code false⟩ := by
  obtain ⟨blank, hmode⟩ := exists_code hcode
  have hgrave : (c == grave) = false := beq_eq_false_iff_ne.mpr hc.2
  unfold step
  rw [hmode]
  simp [code, hgrave, hc.1]

theorem IsWord.read {text : List Char} (hword : IsWord text) {lexer : Lexer}
    (ready : lexer.Ready) : lexer.read text = ⟨lexer.tokens, text.reverse, .code false⟩ := by
  have hgeneral : ∀ (rest : List Char), (∀ c ∈ rest, Verilog.inWord c = true ∧ c ≠ grave) →
      ∀ word, (⟨lexer.tokens, word, .code false⟩ : Lexer).read rest =
        ⟨lexer.tokens, rest.reverse ++ word, .code false⟩ := by
    intro rest
    induction rest with
    | nil => intro _ word; rfl
    | cons c rest ih =>
        intro hrest word
        have hstep : (⟨lexer.tokens, word, .code false⟩ : Lexer).step c =
            ⟨lexer.tokens, c :: word, .code false⟩ := step_inWord rfl (hrest c (.head _))
        rw [List.reverse_cons, List.append_assoc]
        exact (congrArg (fun lexer => lexer.read rest) hstep).trans
          (ih (fun d hd => hrest d (.tail _ hd)) (c :: word))
  obtain ⟨hne, hinWord⟩ := hword
  cases text with
  | nil => exact absurd rfl hne
  | cons c rest =>
      have hstep := step_inWord ready.2 (hinWord c (.head _))
      rw [ready.1] at hstep
      rw [List.reverse_cons]
      exact (congrArg (fun lexer => lexer.read rest) hstep).trans
        (hgeneral rest (fun d hd => hinWord d (.tail _ hd)) [c])

theorem flush_flush (lexer : Lexer) : lexer.flush.flush = lexer.flush := by
  by_cases hword : lexer.word = []
  · have hflush : lexer.flush = lexer := if_pos hword
    rw [hflush, hflush]
  · have hflushed : lexer.flush.word = [] := by
      unfold flush
      rw [if_neg hword]
    exact if_pos hflushed

theorem step_flush {lexer : Lexer} (hcode : lexer.mode.isCode = true) {c : Char}
    (hc : breaks c = true) : lexer.step c = lexer.flush.step c := by
  obtain ⟨blank, hmode⟩ := exists_code hcode
  rw [breaks, Bool.and_eq_true, Bool.not_eq_true', bne_iff_ne] at hc
  have hflush : lexer.flush.mode = lexer.mode := by
    unfold flush
    split_ifs <;> rfl
  unfold step
  rw [hflush, hmode]
  simp [code, hc.1, hc.2, flush_flush]

theorem read_flush {lexer : Lexer} (hcode : lexer.mode.isCode = true) {rest : List Char}
    (hrest : rest.head?.any breaks = true) : lexer.read rest = lexer.flush.read rest := by
  cases rest with
  | nil => cases hrest
  | cons c rest =>
      exact congrArg (fun lexer => lexer.read rest) (step_flush hcode hrest)

theorem flush_word (tokens : List Token) {text : List Char} (hne : text ≠ []) (mode : Mode) :
    (⟨tokens, text.reverse, mode⟩ : Lexer).flush = ⟨.word text :: tokens, [], mode⟩ := by
  have hreverse : text.reverse ≠ [] := fun heq => hne (List.reverse_eq_nil_iff.mp heq)
  unfold flush
  rw [if_neg hreverse, List.reverse_reverse]

theorem finish_after (lexer : Lexer) (earlier : List Token) :
    (lexer.after earlier).finish = lexer.finish ++ earlier := by
  unfold finish
  have hmode : (lexer.after earlier).mode = lexer.mode := rfl
  rw [hmode, flush_after]
  cases lexer.mode <;> rfl

end Lexer

/-! ## Names -/

/-- Identifiers without escapes and dollar signs. -/
def isIdentifier (text : List Char) : Bool :=
  text.head?.any (fun c => c.isAlpha || c == '_') &&
    text.all (fun c => c.isAlphanum || c == '_') && !reservedWords.contains text

theorem inWord_of_isAlphanum {c : Char} (hc : (c.isAlphanum || c == '_') = true) :
    inWord c = true ∧ c ≠ grave := by
  refine ⟨?_, ?_⟩
  · rw [inWord, hc]
    rfl
  · rintro rfl
    exact absurd hc (by decide)

theorem inWord_of_isDigit {c : Char} (hdigit : c.isDigit = true) :
    inWord c = true ∧ c ≠ grave := by
  apply inWord_of_isAlphanum
  rw [Char.isAlphanum, hdigit, Bool.or_true]
  rfl

section Identifier

variable {text : List Char} (hidentifier : isIdentifier text = true)
include hidentifier

theorem isIdentifier.isWord : Lexer.IsWord text := by
  rw [isIdentifier, Bool.and_eq_true, Bool.and_eq_true, List.all_eq_true] at hidentifier
  obtain ⟨⟨hhead, hall⟩, -⟩ := hidentifier
  refine ⟨?_, fun c hc => inWord_of_isAlphanum (hall c hc)⟩
  rintro rfl
  cases hhead

theorem isIdentifier.not_reserved : text ∉ reservedWords := by
  rw [isIdentifier, Bool.and_eq_true, Bool.not_eq_true'] at hidentifier
  intro hmem
  rw [List.contains_iff_mem.mpr hmem] at hidentifier
  exact absurd hidentifier.2 Bool.noConfusion

theorem isIdentifier.isName : isName text = true := by
  have hkeyword : keywords.contains text = false := by
    rw [← Bool.not_eq_true, List.contains_iff_mem]
    exact fun hmem => isIdentifier.not_reserved hidentifier (List.mem_append_left _ hmem)
  rw [isIdentifier, Bool.and_eq_true, Bool.and_eq_true] at hidentifier
  rw [Verilog.isName, hidentifier.1.1, hkeyword]
  rfl

theorem isIdentifier.append {ending : List Char}
    (hending : ending.all (fun c => c.isAlphanum || c == '_') = true)
    (hreserved : reservedWords.all (fun word => !ending.isSuffixOf word) = true) :
    isIdentifier (text ++ ending) = true := by
  have hnot : reservedWords.contains (text ++ ending) = false := by
    rw [← Bool.not_eq_true, List.contains_iff_mem]
    intro hmem
    have hno := List.all_eq_true.mp hreserved _ hmem
    rw [Bool.not_eq_true', ← Bool.not_eq_true, List.isSuffixOf_iff_suffix] at hno
    exact hno (List.suffix_append _ _)
  rw [isIdentifier, Bool.and_eq_true, Bool.and_eq_true] at hidentifier ⊢
  obtain ⟨⟨hhead, hall⟩, -⟩ := hidentifier
  refine ⟨⟨?_, ?_⟩, ?_⟩
  · cases text with
    | nil => cases hhead
    | cons c rest => exact hhead
  · rw [List.all_append, hall, hending]
    rfl
  · rw [hnot]
    rfl

end Identifier

theorem Outline.word_of_not_reserved {text : List Char} (hreserved : text ∉ reservedWords)
    (outline : Outline) :
    outline.word text =
      match outline.spot with
      | .declaring =>
          if isName text then ⟨text :: outline.declared, outline.targets, .declared text⟩
          else outline
      | .declared _ => { outline with spot := .code }
      | .target read => { outline with spot := .target (read ++ [.word text]) }
      | .code | .range | .memory _ | .driver _ _ => outline := by
  have hdeclaring : declaringWords.contains text = false := by
    rw [← Bool.not_eq_true, List.contains_iff_mem]
    intro hmem
    have hsub : declaringWords.all reservedWords.contains = true := by decide +kernel
    exact hreserved (List.contains_iff_mem.mp (List.all_eq_true.mp hsub text hmem))
  have hassign : text ≠ "assign".toList := by
    rintro rfl
    exact hreserved (by decide +kernel)
  have hkeyword : keywords.contains text = false := by
    rw [← Bool.not_eq_true, List.contains_iff_mem]
    exact fun hmem => hreserved (List.mem_append_left _ hmem)
  have hsigned : (text != "signed".toList) = true := by
    rw [bne_iff_ne]
    rintro rfl
    exact hreserved (by decide +kernel)
  obtain ⟨names, driven, spot⟩ := outline
  unfold word
  rw [hdeclaring, hkeyword, if_neg Bool.false_ne_true, if_neg hassign, if_neg Bool.false_ne_true]
  cases spot with
  | declaring =>
      simp only
      rw [hsigned, Bool.and_true]
  | code | range | declared | memory | target | driver => rfl

/-- An identifier is declared where a declaration expects a name. -/
theorem Outline.step_declaring {text : List Char} (hidentifier : isIdentifier text = true) :
    (⟨[], [], .declaring⟩ : Outline).step (.word text) = ⟨[text], [], .declared text⟩ := by
  show (⟨[], [], .declaring⟩ : Outline).word text = _
  rw [word_of_not_reserved (isIdentifier.not_reserved hidentifier)]
  exact if_pos (isIdentifier.isName hidentifier)

theorem Outline.step_target {text : List Char} (hreserved : text ∉ reservedWords)
    (read : List Token) :
    (⟨[], [], .target read⟩ : Outline).step (.word text) =
      ⟨[], [], .target (read ++ [.word text])⟩ := by
  show (⟨[], [], .target read⟩ : Outline).word text = _
  rw [word_of_not_reserved hreserved]

theorem Outline.step_driver {text : List Char} (hreserved : text ∉ reservedWords)
    (declares : Bool) (depth : Nat) :
    (⟨[], [], .driver declares depth⟩ : Outline).step (.word text) =
      ⟨[], [], .driver declares depth⟩ := by
  show (⟨[], [], .driver declares depth⟩ : Outline).word text = _
  rw [word_of_not_reserved hreserved]

section Number

variable {digits : List Char} (hdigits : ∀ c ∈ digits, c.isDigit = true)
include hdigits

theorem digits_not_reserved : digits ∉ reservedWords := by
  intro hmem
  have hnone : reservedWords.all (fun word => !word.all Char.isDigit) = true := by
    decide +kernel
  have hnot := List.all_eq_true.mp hnone digits hmem
  rw [Bool.not_eq_true', ← Bool.not_eq_true] at hnot
  exact hnot (List.all_eq_true.mpr hdigits)

theorem isWord_digits (hne : digits ≠ []) : Lexer.IsWord digits :=
  ⟨hne, fun c hc => inWord_of_isDigit (hdigits c hc)⟩

end Number

/-! ## Passages -/

/-- Reading a text between two words takes an outline from one spot to another. -/
def Passage (text : List Char) (spot spot' : Spot) (declared : List (List Char))
    (targets : List (List Token)) : Prop :=
  ∀ lexer : Lexer, lexer.Ready → ∃ tokens : List Token,
    (lexer.read text).Ready ∧ (lexer.read text).tokens = tokens.reverse ++ lexer.tokens ∧
      (⟨[], [], spot⟩ : Outline).read tokens = ⟨declared, targets, spot'⟩

/-- A token at which an outline stays as it is. -/
def Ignored (spot : Spot) (token : Token) : Prop :=
  (⟨[], [], spot⟩ : Outline).step token = ⟨[], [], spot⟩

theorem read_ignored {spot : Spot} {tokens : List Token}
    (hignored : ∀ token ∈ tokens, Ignored spot token) :
    (⟨[], [], spot⟩ : Outline).read tokens = ⟨[], [], spot⟩ := by
  induction tokens with
  | nil => rfl
  | cons token tokens ih =>
      show ((⟨[], [], spot⟩ : Outline).step token).read tokens = _
      rw [hignored token (.head _)]
      exact ih fun token htoken => hignored token (.tail _ htoken)

namespace Passage

section Composition

variable {text text' : List Char} {spot spot' spot'' : Spot} {declared declared' : List (List Char)}
  {targets targets' : List (List Token)}

theorem append (first : Passage text spot spot' declared targets)
    (second : Passage text' spot' spot'' declared' targets') :
    Passage (text ++ text') spot spot'' (declared' ++ declared) (targets' ++ targets) := by
  intro lexer ready
  obtain ⟨tokens, ready', htokens, hread⟩ := first lexer ready
  obtain ⟨tokens', ready'', htokens', hread'⟩ := second _ ready'
  refine ⟨tokens ++ tokens', ?_, ?_, ?_⟩
  · rw [Lexer.read_append]
    exact ready''
  · rw [Lexer.read_append, htokens', htokens, List.reverse_append, List.append_assoc]
  · rw [Outline.read_append, hread]
    have hafter : (⟨declared, targets, spot'⟩ : Outline) =
        (⟨[], [], spot'⟩ : Outline).after declared targets := rfl
    rw [hafter, Outline.read_after, hread']
    rfl

theorem literal {tokens : List Token} (hreads : Lexer.reads text tokens = true)
    (hread : (⟨[], [], spot⟩ : Outline).read tokens = ⟨declared, targets, spot'⟩) :
    Passage text spot spot' declared targets := by
  intro lexer ready
  obtain ⟨ready', htokens⟩ := Lexer.read_of_reads hreads ready
  exact ⟨tokens, ready', htokens, hread⟩

theorem word (hword : Lexer.IsWord text) (hbreak : text'.head?.any Lexer.breaks = true)
    (hstep : (⟨[], [], spot⟩ : Outline).step (.word text) = ⟨declared, targets, spot'⟩)
    (more : Passage text' spot' spot'' declared' targets') :
    Passage (text ++ text') spot spot'' (declared' ++ declared) (targets' ++ targets) := by
  intro lexer ready
  have hread : lexer.read (text ++ text') =
      (⟨.word text :: lexer.tokens, [], .code false⟩ : Lexer).read text' := by
    rw [Lexer.read_append, hword.read ready, Lexer.read_flush rfl hbreak,
      Lexer.flush_word lexer.tokens hword.ne_nil]
  obtain ⟨tokens, ready', htokens, hmore⟩ := more ⟨.word text :: lexer.tokens, [], .code false⟩
    ⟨rfl, rfl⟩
  refine ⟨.word text :: tokens, hread ▸ ready', ?_, ?_⟩
  · rw [hread, htokens, List.reverse_cons, List.append_assoc]
    rfl
  · show ((⟨[], [], spot⟩ : Outline).step (.word text)).read tokens = _
    have hafter : (⟨declared, targets, spot'⟩ : Outline) =
        (⟨[], [], spot'⟩ : Outline).after declared targets := rfl
    rw [hstep, hafter, Outline.read_after, hmore]
    rfl

theorem silent (hword : Lexer.IsWord text) (hbreak : text'.head?.any Lexer.breaks = true)
    (hignored : Ignored spot (.word text))
    (more : Passage text' spot spot' declared targets) :
    Passage (text ++ text') spot spot' declared targets := by
  have hpassage := word hword hbreak hignored more
  rwa [List.append_nil, List.append_nil] at hpassage

theorem skip (first : Passage text spot spot' [] [])
    (second : Passage text' spot' spot'' declared targets) :
    Passage (text ++ text') spot spot'' declared targets := by
  have hpassage := first.append second
  rwa [List.append_nil, List.append_nil] at hpassage

end Composition

/-! ### Blanks and numbers -/

/-- A character of code that begins no word and no comment. -/
def dull (c : Char) : Bool := Lexer.breaks c && c != '/' && c != '"'

theorem flush_word_nil (lexer : Lexer) : lexer.flush.word = [] := by
  unfold Lexer.flush
  split_ifs with hword
  · exact hword
  · rfl

theorem step_dull {lexer : Lexer} (hcode : lexer.mode.isCode = true) {c : Char}
    (hdull : dull c = true) : ∃ tokens : List Token, (lexer.step c).Ready ∧
      (lexer.step c).tokens = tokens ++ lexer.flush.tokens ∧
        ∀ token ∈ tokens, token = .symbol c := by
  obtain ⟨blank, hmode⟩ := Lexer.exists_code hcode
  simp only [dull, Lexer.breaks, Bool.and_eq_true, Bool.not_eq_true', bne_iff_ne] at hdull
  obtain ⟨⟨⟨hword, hpoint⟩, hslash⟩, hquote⟩ := hdull
  have hgrave : (c == grave) = false := by
    rw [beq_eq_false_iff_ne]
    rintro rfl
    exact absurd hword (by decide)
  rw [← beq_eq_false_iff_ne] at hpoint
  unfold Lexer.step
  rw [hmode]
  simp only [Lexer.code, hgrave, hword, Bool.false_and, Bool.false_or, Bool.false_eq_true,
    if_false, beq_iff_eq, hpoint, hslash, hquote]
  split_ifs
  · exact ⟨[], ⟨flush_word_nil lexer, rfl⟩, rfl, by simp⟩
  · exact ⟨[], ⟨flush_word_nil lexer, rfl⟩, rfl, by simp⟩
  · exact ⟨[.symbol c], ⟨rfl, rfl⟩, rfl, by simp⟩

theorem blank {text : List Char} {spot : Spot}
    (hblank : ∀ c ∈ text, dull c = true ∧ Ignored spot (.symbol c)) :
    Passage text spot spot [] [] := by
  induction text with
  | nil => exact fun lexer ready => ⟨[], ready, rfl, rfl⟩
  | cons c text ih =>
      obtain ⟨hdull, hignored⟩ := hblank c (.head _)
      have hfirst : Passage [c] spot spot [] [] := by
        intro lexer ready
        obtain ⟨tokens, ready', htokens, hsymbols⟩ := step_dull ready.2 hdull
        have hflush : lexer.flush = lexer := if_pos ready.1
        rw [hflush] at htokens
        refine ⟨tokens.reverse, ready', by rwa [List.reverse_reverse], read_ignored ?_⟩
        intro token htoken
        rw [hsymbols token (List.mem_reverse.mp htoken)]
        exact hignored
      exact hfirst.append (ih fun d hd => hblank d (.tail _ hd))

theorem whitespace {text : List Char} {spot : Spot}
    (hspace : ∀ c ∈ text, c.isWhitespace = true) : Passage text spot spot [] [] := by
  induction text with
  | nil => exact fun lexer ready => ⟨[], ready, rfl, rfl⟩
  | cons c text ih =>
      have hreads : Lexer.reads [c] [] = true := by
        have hc := hspace c (.head _)
        simp only [Char.isWhitespace, Bool.or_eq_true, decide_eq_true_eq] at hc
        rcases hc with ((rfl | rfl) | rfl) | rfl <;> decide +kernel
      exact (literal hreads rfl).append (ih fun d hd => hspace d (.tail _ hd))

theorem exists_flush_tokens {spot : Spot}
    (hdigits : ∀ digits : List Char, (∀ c ∈ digits, c.isDigit = true) →
      Ignored spot (.word digits))
    {lexer : Lexer} (hword : ∀ c ∈ lexer.word, c.isDigit = true) :
    ∃ words : List Token, lexer.flush.tokens = words ++ lexer.tokens ∧
      ∀ token ∈ words, Ignored spot token := by
  unfold Lexer.flush
  split_ifs
  · exact ⟨[], rfl, by simp⟩
  · refine ⟨[.word lexer.word.reverse], rfl, fun token htoken => ?_⟩
    rw [List.mem_singleton.mp htoken]
    exact hdigits _ fun c hc => hword c (List.mem_reverse.mp hc)

/-- Reading digits and ignored symbols leaves digits under way at most. -/
theorem exists_read_number {text : List Char} {spot : Spot}
    (hnumber : ∀ c ∈ text, c.isDigit = true ∨ (dull c = true ∧ Ignored spot (.symbol c)))
    (hdigits : ∀ digits : List Char, (∀ c ∈ digits, c.isDigit = true) →
      Ignored spot (.word digits))
    {lexer : Lexer} (hcode : lexer.mode.isCode = true)
    (hword : ∀ c ∈ lexer.word, c.isDigit = true) :
    ∃ tokens : List Token, (lexer.read text).mode.isCode = true ∧
      (∀ c ∈ (lexer.read text).word, c.isDigit = true) ∧
      (lexer.read text).tokens = tokens.reverse ++ lexer.tokens ∧
      ∀ token ∈ tokens, Ignored spot token := by
  induction text generalizing lexer with
  | nil => exact ⟨[], hcode, hword, rfl, by simp⟩
  | cons c text ih =>
      have hrest := fun d hd => hnumber d (.tail c hd)
      rcases hnumber c (.head _) with hdigit | ⟨hdull, hignored⟩
      · have hstep := Lexer.step_inWord hcode (inWord_of_isDigit hdigit)
        have hread : lexer.read (c :: text) = (lexer.step c).read text := rfl
        rw [hread, hstep]
        apply ih hrest rfl
        rintro d (_ | ⟨_, hd⟩)
        · exact hdigit
        · exact hword d hd
      · obtain ⟨symbols, ready, hsymbols, hall⟩ := step_dull hcode hdull
        obtain ⟨tokens, hcode', hword', htokens, htokens'⟩ := ih hrest ready.2
          (by rw [ready.1]; simp)
        obtain ⟨words, hwords, hwords'⟩ := exists_flush_tokens hdigits hword
        refine ⟨(symbols ++ words).reverse ++ tokens, hcode', hword', ?_, ?_⟩
        · show ((lexer.step c).read text).tokens = _
          rw [htokens, hsymbols, hwords]
          simp
        · intro token htoken
          rw [List.mem_append, List.mem_reverse, List.mem_append] at htoken
          rcases htoken with (hsymbol | hmem) | hmem
          · rw [hall token hsymbol]
            exact hignored
          · exact hwords' token hmem
          · exact htokens' token hmem

/-- A number, possibly with symbols in it, and the passage that ends it. -/
theorem number {text text' : List Char} {spot spot' : Spot} {declared : List (List Char)}
    {targets : List (List Token)}
    (hnumber : ∀ c ∈ text, c.isDigit = true ∨ (dull c = true ∧ Ignored spot (.symbol c)))
    (hdigits : ∀ digits : List Char, (∀ c ∈ digits, c.isDigit = true) →
      Ignored spot (.word digits))
    (hbreak : text'.head?.any Lexer.breaks = true)
    (more : Passage text' spot spot' declared targets) :
    Passage (text ++ text') spot spot' declared targets := by
  intro lexer ready
  obtain ⟨tokens, hcode, hword, htokens, hignored⟩ := exists_read_number hnumber hdigits ready.2
    (by rw [ready.1]; simp)
  -- the digits under way become a word at the beginning of what follows
  obtain ⟨words, hflush, hwords⟩ := exists_flush_tokens hdigits hword
  have hready : (lexer.read text).flush.Ready := by
    refine ⟨flush_word_nil _, ?_⟩
    unfold Lexer.flush
    split_ifs
    · exact hcode
    · exact hcode
  obtain ⟨tokens', ready', htokens', hread⟩ := more _ hready
  have hwhole : lexer.read (text ++ text') = (lexer.read text).flush.read text' := by
    rw [Lexer.read_append, Lexer.read_flush hcode hbreak]
  refine ⟨tokens ++ words.reverse ++ tokens', hwhole ▸ ready', ?_, ?_⟩
  · rw [hwhole, htokens', hflush, htokens]
    simp
  · rw [Outline.read_append, read_ignored, hread]
    intro token htoken
    rw [List.mem_append, List.mem_reverse] at htoken
    rcases htoken with hmem | hmem
    · exact hignored token hmem
    · exact hwords token hmem

end Passage

/-! ## Signals -/

/-- A name, or one bit of it. -/
structure Signal where
  name : List Char
  bit : Option Nat
  identifier : isIdentifier name = true

namespace Signal

def text (signal : Signal) : List Char :=
  signal.name ++
    match signal.bit with
    | none => []
    | some bit => '[' :: (Nat.toDigits 10 bit ++ [']'])

def tokens (signal : Signal) : List Token :=
  .word signal.name ::
    match signal.bit with
    | none => []
    | some bit => [.symbol '[', .word (Nat.toDigits 10 bit), .symbol ']']

/-- A whole name. -/
def named {name : List Char} (hname : isIdentifier name = true) : Signal := ⟨name, none, hname⟩

theorem text_named {name : List Char} (hname : isIdentifier name = true) :
    (named hname).text = name :=
  List.append_nil name

end Signal

theorem isDigit_of_mem_toDigits (bit : Nat) :
    ∀ c ∈ Nat.toDigits 10 bit, c.isDigit = true :=
  fun _ hc => Nat.isDigit_of_mem_toDigits (by decide) (by decide) hc

theorem reads_bracket : Lexer.reads ['['] [.symbol '['] = true ∧
    Lexer.reads [']'] [.symbol ']'] = true := by
  decide +kernel

section Signals

variable {text : List Char} {spot : Spot} {declared : List (List Char)}
  {targets : List (List Token)}

theorem Passage.operand (signal : Signal) {declares : Bool} {depth : Nat}
    (hbreak : text.head?.any Lexer.breaks = true)
    (more : Passage text (.driver declares depth) spot declared targets) :
    Passage (signal.text ++ text) (.driver declares depth) spot declared targets := by
  have hword := isIdentifier.isWord signal.identifier
  have hname := Outline.step_driver (isIdentifier.not_reserved signal.identifier) declares depth
  unfold Signal.text
  cases signal.bit with
  | none =>
      rw [List.append_nil]
      exact Passage.silent hword hbreak hname more
  | some bit =>
      have hdigits := isDigit_of_mem_toDigits bit
      have hopen : Passage ['['] (.driver declares depth) (.driver declares (depth + 1)) [] [] :=
        Passage.literal reads_bracket.1 rfl
      have hclose : Passage [']'] (.driver declares (depth + 1)) (.driver declares depth) [] [] :=
        Passage.literal reads_bracket.2 rfl
      rw [List.append_assoc, List.cons_append, List.append_assoc]
      refine Passage.silent hword rfl hname (hopen.skip ?_)
      exact Passage.silent (isWord_digits hdigits Nat.toDigits_ne_nil) rfl
        (Outline.step_driver (digits_not_reserved hdigits) declares (depth + 1)) (hclose.skip more)

/-- A signal is read as it stands in the target of an assignment. -/
theorem Passage.target (signal : Signal) (hbreak : text.head?.any Lexer.breaks = true)
    (more : Passage text (.target signal.tokens) spot declared targets) :
    Passage (signal.text ++ text) (.target []) spot declared targets := by
  have hword := isIdentifier.isWord signal.identifier
  have hname := Outline.step_target (isIdentifier.not_reserved signal.identifier) []
  unfold Signal.tokens at more
  unfold Signal.text
  cases hbit : signal.bit with
  | none =>
      rw [hbit] at more
      rw [List.append_nil]
      have hpassage := Passage.word hword hbreak hname more
      rwa [List.append_nil, List.append_nil] at hpassage
  | some bit =>
      rw [hbit] at more
      have hdigits := isDigit_of_mem_toDigits bit
      have hopen : Passage ['['] (.target [.word signal.name])
          (.target [.word signal.name, .symbol '[']) [] [] :=
        Passage.literal reads_bracket.1 rfl
      have hclose : Passage [']']
          (.target [.word signal.name, .symbol '[', .word (Nat.toDigits 10 bit)])
          (.target [.word signal.name, .symbol '[', .word (Nat.toDigits 10 bit), .symbol ']'])
          [] [] :=
        Passage.literal reads_bracket.2 rfl
      have hindex := Passage.word (isWord_digits hdigits Nat.toDigits_ne_nil) rfl
        (Outline.step_target (digits_not_reserved hdigits) [.word signal.name, .symbol '['])
        (hclose.skip more)
      have hpassage := Passage.word hword rfl hname (hopen.append hindex)
      rw [List.append_assoc, List.cons_append, List.append_assoc]
      simpa only [List.append_nil] using! hpassage

end Signals

/-! ## Whole texts -/

/-- The tokens of a text that follows code on its line. -/
def tokensAfter (text : List Char) : List Token :=
  ((Lexer.fresh false).read text).finish.reverse

/-- What a text adds to an outline that has come to a spot. -/
def following (spot : Spot) (text : List Char) : Outline :=
  (⟨[], [], spot⟩ : Outline).read (tokensAfter text)

/-- The outline of the text in front of a place in code. -/
def outlineBefore (before : List Char) : Outline :=
  Outline.start.read (Lexer.start.read before).tokens.reverse

theorem following_literal {literal : List Char} {tokens : List Token}
    (hread : (Lexer.fresh false).read literal = (Lexer.fresh false).after tokens.reverse)
    {spot spot' : Spot} {declared : List (List Char)} {targets : List (List Token)}
    (hstep : (⟨[], [], spot⟩ : Outline).read tokens = ⟨declared, targets, spot'⟩)
    (text : List Char) :
    following spot (literal ++ text) = (following spot' text).after declared targets := by
  have hafter : (⟨declared, targets, spot'⟩ : Outline) =
      (⟨[], [], spot'⟩ : Outline).after declared targets := rfl
  rw [following, tokensAfter, Lexer.read_append, hread, Lexer.read_after, Lexer.finish_after,
    List.reverse_append, List.reverse_reverse, Outline.read_append, hstep, hafter,
    Outline.read_after]
  rfl

/-- The tokens of a text, put together at the end of a word in code. -/
theorem tokens_word {before text name rest : List Char} {read : List Token}
    (ready : (Lexer.start.read (before ++ text)).Ready)
    (htokens : (Lexer.start.read (before ++ text)).tokens =
      read.reverse ++ (Lexer.start.read before).tokens)
    (hname : Lexer.IsWord name) (hrest : rest.head?.all Lexer.breaks = true) :
    tokens (before ++ (text ++ (name ++ rest))) =
      (Lexer.start.read before).tokens.reverse ++ (read ++ .word name :: tokensAfter rest) := by
  have hfinish : (Lexer.start.read (before ++ text ++ (name ++ rest))).finish =
      ((Lexer.fresh false).read rest).finish ++
        .word name :: (read.reverse ++ (Lexer.start.read before).tokens) := by
    have hflush := Lexer.flush_word (Lexer.start.read (before ++ text)).tokens hname.ne_nil
      (.code false)
    rw [Lexer.read_append, Lexer.read_append, hname.read ready, ← htokens, ← Lexer.finish_after]
    cases rest with
    | nil => exact congrArg Lexer.tokens hflush
    | cons c rest =>
        have hbreak : (c :: rest).head?.any Lexer.breaks = true := hrest
        rw [Lexer.read_flush rfl hbreak, hflush, ← Lexer.read_after]
        rfl
  rw [← List.append_assoc before, tokens, hfinish]
  simp [tokensAfter]

/-- The outline of a passage and a word behind it, whatever follows. -/
theorem outline_passage {before text name rest : List Char} {spot' spot'' : Spot}
    {declared declared' : List (List Char)} {targets targets' : List (List Token)}
    (ready : (Lexer.start.read before).Ready)
    (hpassage : ∀ spot, Passage text spot spot' declared targets)
    (hname : Lexer.IsWord name) (hrest : rest.head?.all Lexer.breaks = true)
    (hstep : (⟨[], [], spot'⟩ : Outline).step (.word name) = ⟨declared', targets', spot''⟩) :
    outline (before ++ (text ++ (name ++ rest))) =
      (following spot'' rest).after (declared' ++ (declared ++ (outlineBefore before).declared))
        (targets' ++ (targets ++ (outlineBefore before).targets)) := by
  obtain ⟨tokens, ready', htokens, hread⟩ := hpassage (outlineBefore before).spot _ ready
  rw [← Lexer.read_append] at ready' htokens
  have htext := tokens_word ready' htokens hname hrest
  have hpassed : (⟨declared, targets, spot'⟩ : Outline) =
      (⟨[], [], spot'⟩ : Outline).after declared targets := rfl
  have hnamed : (⟨declared', targets', spot''⟩ : Outline) =
      (⟨[], [], spot''⟩ : Outline).after declared' targets' := rfl
  rw [outline, htext, Outline.read_append]
  show (outlineBefore before).read (tokens ++ .word name :: tokensAfter rest) = _
  generalize outlineBefore before = earlier at hread ⊢
  obtain ⟨names, driven, spot⟩ := earlier
  have hearlier : (⟨names, driven, spot⟩ : Outline) =
      (⟨[], [], spot⟩ : Outline).after names driven := rfl
  have hword : (⟨[], [], spot'⟩ : Outline).read (.word name :: tokensAfter rest) =
      ((⟨[], [], spot'⟩ : Outline).step (.word name)).read (tokensAfter rest) := rfl
  rw [hearlier, Outline.read_after, Outline.read_append, hread, hpassed, Outline.read_after,
    hword, hstep, hnamed, Outline.read_after, Outline.after_after, Outline.after_after]
  rfl

/-! ## How a statement goes on -/

/-- A list goes on behind an expression with its first comma outside of brackets. -/
def listed : Nat → List Token → Bool
  | _, [] => false
  | depth, .quoted :: rest => listed depth rest
  | depth, .word text :: rest =>
      if declaringWords.contains text || keywords.contains text then false
      else listed depth rest
  | depth, .symbol c :: rest =>
      if c = ';' then false
      else if Reader.opens c then listed (depth + 1) rest
      else if Reader.closes c then if depth = 0 then false else listed (depth - 1) rest
      else if c = ',' ∧ depth = 0 then true
      else listed depth rest

/-- Where no list goes on, the driver of a declaration reads like that of an
assignment. -/
theorem read_driver {depth : Nat} {tokens : List Token} (hlisted : listed depth tokens = false) :
    ((⟨[], [], .driver true depth⟩ : Outline).read tokens).declared =
        ((⟨[], [], .driver false depth⟩ : Outline).read tokens).declared ∧
      ((⟨[], [], .driver true depth⟩ : Outline).read tokens).targets =
        ((⟨[], [], .driver false depth⟩ : Outline).read tokens).targets := by
  induction tokens generalizing depth with
  | nil => exact ⟨rfl, rfl⟩
  | cons token tokens ih =>
      have hsplit : ∀ spot, (⟨[], [], spot⟩ : Outline).read (token :: tokens) =
          ((⟨[], [], spot⟩ : Outline).step token).read tokens := fun _ => rfl
      rw [hsplit, hsplit]
      cases token with
      | quoted => exact ih hlisted
      | word text =>
          simp only [Outline.step, Outline.word]
          split_ifs with hdeclaring hassign hkeyword
          · exact ⟨rfl, rfl⟩
          · exact ⟨rfl, rfl⟩
          · exact ⟨rfl, rfl⟩
          · apply ih
            rw [listed, if_neg (by simp_all)] at hlisted
            exact hlisted
      | symbol c =>
          simp only [Outline.step, Outline.symbol]
          simp only [listed] at hlisted
          split_ifs at hlisted ⊢ with hend hopens hcloses hdepth hcomma
          · exact ⟨rfl, rfl⟩
          · exact ih hlisted
          · exact ⟨rfl, rfl⟩
          · exact ih hlisted
          · exact ih hlisted

/-- What follows a declaration without a semicolon does not go on with it. -/
def Apart (text : List Char) : Prop :=
  text.head?.all Lexer.breaks = true ∧
    (tokensAfter text).head?.all (fun token =>
      !List.contains [.symbol ',', .symbol '[', .symbol '=', .quoted] token) = true

instance (text : List Char) : Decidable (Apart text) := inferInstanceAs (Decidable (_ ∧ _))

theorem Apart.following_eq {text : List Char} (apart : Apart text) (name : List Char) :
    (following (.declared name) text).declared = (following .code text).declared ∧
      (following (.declared name) text).targets = (following .code text).targets := by
  have hhead := apart.2
  unfold following
  cases htokens : tokensAfter text with
  | nil => exact ⟨rfl, rfl⟩
  | cons token tokens =>
      rw [htokens, List.head?_cons, Option.all_some, Bool.not_eq_true'] at hhead
      have hstep : (⟨[], [], .declared name⟩ : Outline).step token =
          (⟨[], [], .code⟩ : Outline).step token := by
        cases token with
        | quoted => exact absurd hhead (by decide)
        | word text =>
            simp only [Outline.step, Outline.word]
        | symbol c =>
            simp only [List.contains_eq_mem, List.mem_cons, Token.symbol.injEq, reduceCtorEq,
              List.not_mem_nil, or_false, decide_eq_false_iff_not, not_or] at hhead
            obtain ⟨hcomma, hopen, hequals⟩ := hhead
            simp only [Outline.step, Outline.symbol]
            rw [if_neg hcomma, if_neg hopen, if_neg hequals]
      have hread : ∀ spot, (⟨[], [], spot⟩ : Outline).read (token :: tokens) =
          ((⟨[], [], spot⟩ : Outline).step token).read tokens := fun _ => rfl
      rw [hread, hread, hstep]
      exact ⟨rfl, rfl⟩

end FaultInjection.Verilog
