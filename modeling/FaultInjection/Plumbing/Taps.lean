import FaultInjection.Emission.Repeated
import FaultInjection.Plumbing.Expressions

/-!
# Taps of the fault buses

What the circuit of a local fault adds to the uses of the fault buses in the text of
its module: one operand of the input bus drives the faulty signal, one operand of the
output bus is driven by the original.
-/

namespace FaultInjection

open Regex Regex.Pattern Text Verilog

/-- No fault port is named. -/
def Portless (tokens : List Token) : Prop := ∀ port : FaultPort, .word port.name ∉ tokens

instance (tokens : List Token) : Decidable (Portless tokens) :=
  decidable_of_iff (.word FaultPort.inputs.name ∉ tokens ∧ .word FaultPort.outputs.name ∉ tokens)
    ⟨fun h port => match port with | .inputs => h.1 | .outputs => h.2,
      fun h => ⟨h .inputs, h .outputs⟩⟩

namespace Portless

theorem nil : Portless [] := fun _ => List.not_mem_nil

theorem append {front back : List Token} (hfront : Portless front) (hback : Portless back) :
    Portless (front ++ back) := fun port => List.not_mem_append (hfront port) (hback port)

theorem symbol (c : Char) {rest : List Token} (hrest : Portless rest) :
    Portless (.symbol c :: rest) := by
  intro port hmem
  rcases List.mem_cons.mp hmem with heq | hmem
  · cases heq
  · exact hrest port hmem

theorem word {text : Text} (hne : ∀ port : FaultPort, text ≠ port.name) {rest : List Token}
    (hrest : Portless rest) : Portless (.word text :: rest) := by
  intro port hmem
  rcases List.mem_cons.mp hmem with heq | hmem
  · exact hne port (Token.word.inj heq).symm
  · exact hrest port hmem

end Portless

theorem FaultPort.ne_keyword (port : FaultPort) {keyword : Text} (hkeyword : keyword ∈ keywords) :
    keyword ≠ port.name := fun heq => port.not_keyword (heq ▸ hkeyword)

theorem FaultPort.ne_digits (port : FaultPort) {digits : Text}
    (hdigits : ∀ c ∈ digits, c.isDigit = true) : digits ≠ port.name := by
  rintro rfl
  have hfirst : 'f' ∈ port.name := by cases port <;> decide
  exact absurd (hdigits 'f' hfirst) (by decide)

section Taps

variable [UnicodeData]

/-! ## Gaps -/

namespace Gap

variable {gap : Gap}

/-- Blanks and digits as the lexer knows them. -/
def Plain (text : Text) : Prop :=
  ∀ c ∈ text, c.isWhitespace = true ∨ c.isDigit = true ∨ c ∈ ['[', ':', ']']

instance (text : Text) : Decidable (Plain text) := List.decidableBAll _ _

def tokens (gap : Gap) : List Token :=
  match gap.bounds with
  | none => []
  | .some (high, low) => [.symbol '[', .word high, .symbol ':', .word low, .symbol ']']

theorem isWhitespace_of_plain {text : Text} (hspace : ∀ c ∈ text, isSpace c = true)
    (plain : Plain text) : ∀ c ∈ text, c.isWhitespace = true := by
  intro c hc
  rcases plain c hc with hwhite | hdigit | hbracket
  · exact hwhite
  · have hspaced := isWord_of_isSpace (hspace c hc)
    have hascii := Nat.lt_succ_of_lt (inWord_toNat (inWord_of_isDigit hdigit).1)
    rw [isWord_of_isDigit (by rwa [isDigit_ascii hascii])] at hspaced
    cases hspaced
  · have hspaced := hspace c hc
    simp only [List.mem_cons, List.not_mem_nil, or_false] at hbracket
    rcases hbracket with rfl | rfl | rfl
    · rw [isSpace_bracket.1] at hspaced
      cases hspaced
    · rw [isSpace_bracket.2.1] at hspaced
      cases hspaced
    · rw [isSpace_bracket.2.2] at hspaced
      cases hspaced

theorem isDigit_of_plain {digits : Text} (hdigits : ∀ c ∈ digits, isDigit c = true)
    (plain : Plain digits) : ∀ c ∈ digits, c.isDigit = true := by
  intro c hc
  have hdigit := hdigits c hc
  rcases plain c hc with hwhite | hplain | hbracket
  · simp only [Char.isWhitespace, Bool.or_eq_true, decide_eq_true_eq] at hwhite
    rcases hwhite with ((rfl | rfl) | rfl) | rfl <;>
      (rw [isDigit_ascii (by decide)] at hdigit; exact absurd hdigit (by decide))
  · exact hplain
  · simp only [List.mem_cons, List.not_mem_nil, or_false] at hbracket
    rcases hbracket with rfl | rfl | rfl
    · rw [isDigit_bracket.1] at hdigit
      cases hdigit
    · rw [isDigit_bracket.2.1] at hdigit
      cases hdigit
    · rw [isDigit_bracket.2.2] at hdigit
      cases hdigit

theorem number_of_plain (plain : Plain gap.text) {high low : Text}
    (hbounds : gap.bounds = some (high, low)) :
    (high ≠ [] ∧ ∀ c ∈ high, c.isDigit = true) ∧ low ≠ [] ∧ ∀ c ∈ low, c.isDigit = true := by
  obtain ⟨⟨hhigh, hhighDigits⟩, hlow, hlowDigits⟩ := gap.number high low hbounds
  have hrange : ∀ c ∈ high ++ low, c ∈ gap.text := by
    intro c hc
    rw [text, hbounds]
    simp only [rangeText, List.mem_append, List.mem_cons] at hc ⊢
    tauto
  refine ⟨⟨hhigh, isDigit_of_plain hhighDigits fun c hc => ?_⟩, hlow,
    isDigit_of_plain hlowDigits fun c hc => ?_⟩
  · exact plain c (hrange c (List.mem_append_left _ hc))
  · exact plain c (hrange c (List.mem_append_right _ hc))

theorem spells (plain : Plain gap.text) : Spells gap.text gap.tokens := by
  have hliterals : Lexer.reads ['['] [.symbol '['] = true ∧ Lexer.reads [':'] [.symbol ':'] = true ∧
      Lexer.reads [']'] [.symbol ']'] = true := by
    decide
  obtain ⟨hopen, hcolon, hclose⟩ := hliterals
  have hfirst : Spells gap.first [] := Spells.whitespace
    (isWhitespace_of_plain gap.first_space fun c hc => plain c (List.mem_append_left _ hc))
  have hlast : Spells gap.last [] := Spells.whitespace
    (isWhitespace_of_plain gap.last_space fun c hc =>
      plain c (List.mem_append_right _ (List.mem_append_right _ hc)))
  rw [text]
  cases hbounds : gap.bounds with
  | none =>
      rw [tokens, hbounds]
      exact hfirst.append hlast
  | some bounds =>
      obtain ⟨high, low⟩ := bounds
      obtain ⟨⟨hhigh, hhighDigits⟩, hlow, hlowDigits⟩ := number_of_plain plain hbounds
      have hend := Spells.word (isWord_digits hlowDigits hlow) (by rfl)
        ((Spells.literal hclose).append hlast)
      have hmiddle := Spells.word (isWord_digits hhighDigits hhigh) (by rfl)
        ((Spells.literal hcolon).append hend)
      have hall := hfirst.append ((Spells.literal hopen).append hmiddle)
      rw [tokens, hbounds]
      simpa [rangeText] using hall

theorem mem_tokens (plain : Plain gap.text) {token : Token} (htoken : token ∈ gap.tokens) :
    (∃ c ∈ ['[', ':', ']'], token = .symbol c) ∨
      ∃ digits, token = .word digits ∧ ∀ c ∈ digits, c.isDigit = true := by
  unfold tokens at htoken
  split at htoken
  · cases htoken
  · rename_i high low hbounds
    obtain ⟨⟨-, hhigh⟩, -, hlow⟩ := number_of_plain plain hbounds
    simp only [List.mem_cons, List.not_mem_nil, or_false] at htoken
    rcases htoken with rfl | rfl | rfl | rfl | rfl
    · exact Or.inl ⟨'[', by decide, rfl⟩
    · exact Or.inr ⟨high, rfl, hhigh⟩
    · exact Or.inl ⟨':', by decide, rfl⟩
    · exact Or.inr ⟨low, rfl, hlow⟩
    · exact Or.inl ⟨']', by decide, rfl⟩

theorem inside_tokens (plain : Plain gap.text) :
    ∀ token ∈ gap.tokens, UseReader.inside token = true := by
  intro token htoken
  rcases mem_tokens plain htoken with ⟨c, hc, rfl⟩ | ⟨digits, rfl, hdigits⟩
  · apply inside_symbol
    rintro rfl
    exact absurd hc (by decide)
  · exact inside_word fun hmem => digits_not_reserved hdigits (List.mem_append_left _ hmem)

theorem symbol_not_mem_tokens (plain : Plain gap.text) {c : Char} (hc : c ∉ ['[', ':', ']']) :
    .symbol c ∉ gap.tokens := by
  intro hmem
  rcases mem_tokens plain hmem with ⟨d, hd, heq⟩ | ⟨digits, heq, -⟩
  · exact hc ((Token.symbol.inj heq) ▸ hd)
  · cases heq

theorem portless_tokens (plain : Plain gap.text) : Portless gap.tokens := by
  intro port hmem
  rcases mem_tokens plain hmem with ⟨c, -, heq⟩ | ⟨digits, heq, hdigits⟩
  · cases heq
  · exact port.ne_digits hdigits (Token.word.inj heq).symm

end Gap

/-! ## Circuits -/

section Circuits

variable {sampleWire : Text}

omit [UnicodeData] in
theorem FaultPort.ne_fresh (port : FaultPort) (sampleWire : Text) :
    originalName sampleWire ≠ port.name ∧ sampleWire ++ "_faultybit".toList ≠ port.name :=
  ⟨port.ne_append sampleWire (by decide), port.ne_append sampleWire (by decide)⟩

omit [UnicodeData] in
theorem spells_slice {name high low more : Text} {read : List Token}
    (hname : isIdentifier name = true) (hhigh : high ≠ [] ∧ ∀ c ∈ high, c.isDigit = true)
    (hlow : low ≠ [] ∧ ∀ c ∈ low, c.isDigit = true) (spells : Spells more read) :
    Spells (name ++ ("[" ++ (high ++ (", " ++ (low ++ ("]" ++ more))))))
      (.word name :: .symbol '[' :: .word high :: .symbol ',' :: .word low :: .symbol ']' :: read) := by
  have hliterals : Lexer.reads "[".toList [.symbol '['] = true ∧
      Lexer.reads ", ".toList [.symbol ','] = true ∧
      Lexer.reads "]".toList [.symbol ']'] = true := by
    decide
  obtain ⟨hopen, hcomma, hclose⟩ := hliterals
  have hlast := Spells.word (isWord_digits hlow.2 hlow.1) (by rfl)
    ((Spells.literal hclose).append spells)
  have hfirst := Spells.word (isWord_digits hhigh.2 hhigh.1) (by rfl)
    ((Spells.literal hcomma).append hlast)
  exact Spells.word (isIdentifier.isWord hname) (by rfl) ((Spells.literal hopen).append hfirst)

omit [UnicodeData] in
/-- A text that is spelled without fault ports, whatever follows. -/
def SpellsPortless (text : Text) : Prop :=
  ∃ tokens, Portless tokens ∧ ∀ {more : Text} {read : List Token},
    more.head?.any Lexer.breaks = true → Spells more read → Spells (text ++ more) (tokens ++ read)

omit [UnicodeData] in
theorem isDigit_decimal (n : Nat) : decimal n ≠ [] ∧ ∀ c ∈ decimal n, c.isDigit = true :=
  ⟨decimal_ne_nil n, fun _ hc => isDigit_of_mem_decimal hc⟩

theorem spells_concatination (hname : isIdentifier sampleWire = true) {high low : Text}
    (hhigh : high ≠ [] ∧ ∀ c ∈ high, c.isDigit = true)
    (hlow : low ≠ [] ∧ ∀ c ∈ low, c.isDigit = true) (bit : Nat) :
    SpellsPortless (busConcatination sampleWire high low bit) := by
  have hcomma : Lexer.reads ", ".toList [.symbol ','] = true := by decide
  obtain ⟨horiginal, hfaulty⟩ := isIdentifier_fresh hname
  have hslice : ∀ {digits digits' : Text}, (∀ c ∈ digits, c.isDigit = true) →
      (∀ c ∈ digits', c.isDigit = true) → ∀ {rest : List Token}, Portless rest →
      Portless (.word (originalName sampleWire) :: .symbol '[' :: .word digits :: .symbol ',' ::
        .word digits' :: .symbol ']' :: rest) := by
    intro digits digits' hdigits hdigits' rest hrest
    refine .word (fun port => (port.ne_fresh sampleWire).1) (.symbol _ (.word (fun port =>
      port.ne_digits hdigits) (.symbol _ (.word (fun port => port.ne_digits hdigits') (.symbol _ ?_)))))
    exact hrest
  -- the faulty bit, with the bits below it
  have hback : SpellsPortless (", " ++ (sampleWire ++ "_faultybit".toList ++
      (if bit > int low then
        ", " ++ originalName sampleWire ++ "[" ++ decimal (bit - 1) ++ ", " ++ low ++ "]"
      else []))) := by
    split
    · refine ⟨.symbol ',' :: .word (sampleWire ++ "_faultybit".toList) :: .symbol ',' ::
        .word (originalName sampleWire) :: .symbol '[' :: .word (decimal (bit - 1)) ::
          .symbol ',' :: .word low :: .symbol ']' :: [], ?_, ?_⟩
      · refine .symbol _ (.word (fun port => (port.ne_fresh sampleWire).2) (.symbol _ ?_))
        exact hslice (isDigit_decimal _).2 hlow.2 .nil
      · intro more read _ spells
        have hlast := (Spells.literal hcomma).append
          (spells_slice horiginal (isDigit_decimal (bit - 1)) hlow spells)
        have hall := (Spells.literal hcomma).append
          (Spells.word (isIdentifier.isWord hfaulty) (by rfl) hlast)
        simpa only [List.append_assoc, List.cons_append, List.nil_append] using hall
    · refine ⟨[.symbol ',', .word (sampleWire ++ "_faultybit".toList)],
        .symbol _ (.word (fun port => (port.ne_fresh sampleWire).2) .nil), ?_⟩
      intro more read hbreak spells
      have hall := (Spells.literal hcomma).append
        (Spells.word (isIdentifier.isWord hfaulty) hbreak spells)
      simpa only [List.append_assoc, List.cons_append, List.nil_append, List.append_nil] using hall
  obtain ⟨tokens, hportless, hspells⟩ := hback
  unfold busConcatination
  split
  · refine ⟨.word (originalName sampleWire) :: .symbol '[' :: .word high :: .symbol ',' ::
      .word (decimal bit) :: .symbol ']' :: tokens, hslice hhigh.2 (isDigit_decimal bit).2 hportless, ?_⟩
    intro more read hbreak spells
    have hall := spells_slice horiginal hhigh (isDigit_decimal bit) (hspells hbreak spells)
    simpa only [List.append_assoc, List.cons_append, List.nil_append] using hall
  · refine ⟨tokens, hportless, ?_⟩
    intro more read hbreak spells
    have hall := hspells hbreak spells
    simpa only [List.append_assoc, List.cons_append, List.nil_append] using hall

omit [UnicodeData] in
theorem isSymbol_semicolon : Lexer.isSymbol ';' = true := by decide

omit [UnicodeData] in
theorem reads_semicolon : Lexer.reads [';'] [.symbol ';'] = true := by decide

omit [UnicodeData] in
/-- A statement in which a signal drives another one, with the rest of its line. -/
theorem tokens_driven {before keyword name trail : Text}
    (ready : (Lexer.start.read before).Ready)
    (hkeyword : keyword ∈ ["wire".toList, "reg".toList, "assign".toList])
    (hname : isIdentifier name = true) (signal : Signal) (htrail : tokensAfter trail = [])
    (after : Text) :
    tokens (before ++ (keyword ++ (" " ++ (name ++ (" = " ++ (signal.text ++
        ';' :: (trail ++ '\n' :: after))))))) =
      (Lexer.start.read before).tokens.reverse ++ .word keyword :: .word name :: .symbol '=' ::
        (signal.tokens ++ .symbol ';' :: tokens after) := by
  have hblank : Lexer.reads " ".toList [] = true := by decide
  have hdriver := (Spells.literal reads_equals).append
    (Spells.signal signal (by rfl) (Spells.literal reads_semicolon))
  have hall := Spells.word (isWord_keyword hkeyword) (by rfl) ((Spells.literal hblank).append
    (Spells.word (isIdentifier.isWord hname) (by rfl) hdriver))
  have hcut : keyword ++ (" ".toList ++ (name ++ (" = ".toList ++ (signal.text ++ [';'])))) =
      (keyword ++ (" ".toList ++ (name ++ (" = ".toList ++ signal.text)))) ++ [';'] := by
    simp only [List.append_assoc]
  rw [hcut] at hall
  have htokens := tokens_line ready hall isSymbol_semicolon trail after
  rw [htrail] at htokens
  simpa only [List.append_assoc, List.cons_append, List.nil_append] using htokens

omit [UnicodeData] in
theorem tokens_output (output source : Signal) (after : Text) :
    tokens ("  assign " ++ (output.text ++ (" = " ++ (source.text ++
        ';' :: (" // direct original value to output " ++ '\n' :: after))))) =
      .word "assign".toList :: (output.tokens ++ .symbol '=' :: (source.tokens ++
        .symbol ';' :: tokens after)) := by
  have hassign : Lexer.reads "  assign ".toList [.word "assign".toList] = true := by decide
  have htrail : tokensAfter " // direct original value to output ".toList = [] := by decide
  have hdriver := (Spells.literal reads_equals).append
    (Spells.signal source (by rfl) (Spells.literal reads_semicolon))
  have hall := (Spells.literal hassign).append (Spells.signal output (by rfl) hdriver)
  have hcut : "  assign ".toList ++ (output.text ++ (" = ".toList ++ (source.text ++ [';']))) =
      ("  assign ".toList ++ (output.text ++ (" = ".toList ++ source.text))) ++ [';'] := by
    simp only [List.append_assoc]
  rw [hcut] at hall
  have htokens := hall.tokens_line isSymbol_semicolon
    " // direct original value to output ".toList after
  rw [htrail] at htokens
  simpa only [List.append_assoc, List.cons_append, List.nil_append] using htokens

theorem exists_listed (hname : isIdentifier sampleWire = true) {front : Text} {lead : List Token}
    (hfront : Spells front lead) (hlead : Portless lead) {high low : Text}
    (hhigh : high ≠ [] ∧ ∀ c ∈ high, c.isDigit = true)
    (hlow : low ≠ [] ∧ ∀ c ∈ low, c.isDigit = true) (bit : Nat) :
    ∃ middle, Portless middle ∧ ∀ after,
      tokens (front ++ ('\x7b' :: (busConcatination sampleWire high low bit ++
        '\x7d' :: (" // fault injection " ++ '\n' :: after)))) = middle ++ tokens after := by
  have hbraces : Lexer.reads ['\x7b'] [.symbol '\x7b'] = true ∧
      Lexer.reads ['\x7d'] [.symbol '\x7d'] = true := by
    decide
  have htrail : tokensAfter " // fault injection ".toList = [] := by decide
  obtain ⟨listed, hportless, hspells⟩ := spells_concatination hname hhigh hlow bit
  refine ⟨lead ++ .symbol '\x7b' :: (listed ++ [.symbol '\x7d']),
    hlead.append (.symbol _ (hportless.append (.symbol _ .nil))), fun after => ?_⟩
  have hall := hfront.append ((Spells.literal hbraces.1).append
    (hspells (by rfl) (Spells.literal hbraces.2)))
  have hcut : front ++ (['\x7b'] ++ (busConcatination sampleWire high low bit ++ ['\x7d'])) =
      (front ++ (['\x7b'] ++ busConcatination sampleWire high low bit)) ++ ['\x7d'] := by
    simp only [List.append_assoc]
  rw [hcut] at hall
  have htokens := hall.tokens_line (by decide) " // fault injection ".toList after
  rw [htrail] at htokens
  simpa only [List.append_assoc, List.cons_append, List.nil_append] using htokens

/-- The signal that the fault input drives. -/
def Site.tapped (site : Site) (sampleWire : Text) : Text :=
  match site.bounds? with
  | none => sampleWire
  | .some _ => sampleWire ++ "_faultybit"

/-- How a circuit is read: the input drives a signal, the original drives the output, and the
declaration of the original follows. -/
def IsCircuit (sampleWire signal circuit placeholder : Text) (input output : Signal) : Prop :=
  ∀ before, (Lexer.start.read before).Ready →
    ∃ (keyword : Text) (middle : List Token) (source : Signal) (lead : Text),
      keyword ∈ ["wire".toList, "assign".toList] ∧ Portless middle ∧
        source.name = originalName sampleWire ∧ (∀ c ∈ lead, c.isWhitespace = true) ∧ ∀ after,
          tokens (before ++ (circuit ++ after)) = (Lexer.start.read before).tokens.reverse ++
            .word keyword :: .word signal :: .symbol '=' :: (input.tokens ++ .symbol ';' ::
              (middle ++ .word "assign".toList :: (output.tokens ++ .symbol '=' ::
                (source.tokens ++ .symbol ';' :: tokens (lead ++ (placeholder ++ after))))))

omit [UnicodeData] in
theorem circuit_splits :
    " // fault injection \n  assign ".toList =
        " // fault injection ".toList ++ '\n' :: "  assign ".toList ∧
      " // fault injection\n  assign ".toList =
        " // fault injection".toList ++ '\n' :: "  assign ".toList ∧
      "; // direct original value to output \n  ".toList =
        ';' :: (" // direct original value to output ".toList ++ '\n' :: "  ".toList) ∧
      "; // direct original value to output \n ".toList =
        ';' :: (" // direct original value to output ".toList ++ '\n' :: " ".toList) ∧
      "]; // direct original value to output \n  ".toList =
        ']' :: ';' :: (" // direct original value to output ".toList ++ '\n' :: "  ".toList) ∧
      ";".toList = [';'] ∧ ";\n ".toList = ';' :: '\n' :: " ".toList ∧
      ";\nwire".toList = ';' :: '\n' :: "wire".toList ∧
      "_faultybit = ".toList = "_faultybit".toList ++ " = ".toList ∧
      " = \x7b".toList = " = ".toList ++ ['\x7b'] ∧ "\x7d".toList = ['\x7d'] ∧
      "wire ".toList = "wire".toList ++ " ".toList ∧ "[".toList = ['['] := by
  decide

namespace Site.Reads

variable {site : Site} {keyword : Text} {gap : Gap} (reads : site.Reads sampleWire keyword gap)
  (hname : isIdentifier sampleWire = true) (input output : Signal)
include reads hname

theorem isCircuit_bit :
    IsCircuit sampleWire sampleWire (site.bitCircuit sampleWire input.text output.text)
      (site.originalPlaceholder sampleWire) input output := by
  have htrails : tokensAfter " // fault injection ".toList = [] ∧
      tokensAfter " // fault injection".toList = [] := by
    decide
  obtain ⟨horiginal, -⟩ := isIdentifier_fresh hname
  intro before ready
  unfold Site.bitCircuit
  cases hbranch : site.branch with
  | wire =>
      obtain ⟨hkeyword, -, hgroup, -, -⟩ := reads.wire hbranch
      have hkey : keyword ∈ ["wire".toList, "assign".toList] := by
        rcases hkeyword with rfl | rfl <;> simp
      have hword : keyword ∈ ["wire".toList, "reg".toList, "assign".toList] := by
        rcases hkeyword with rfl | rfl <;> simp
      refine ⟨keyword, [], .named horiginal, "  ", hkey, .nil, rfl,
        List.all_eq_true.mp (by decide), fun after => ?_⟩
      have hsecond := tokens_output output (.named horiginal)
        ("  " ++ (site.originalPlaceholder sampleWire ++ after))
      have hfirst := tokens_driven ready hword hname input htrails.1 ("  assign " ++
        (output.text ++ (" = " ++ (originalName sampleWire ++
          ';' :: (" // direct original value to output " ++ '\n' :: ("  " ++
            (site.originalPlaceholder sampleWire ++ after)))))))
      rw [Signal.text_named] at hsecond
      rw [hsecond] at hfirst
      simpa only [hgroup, circuit_splits, List.append_assoc, List.cons_append, List.nil_append]
        using hfirst
  | register =>
      refine ⟨"wire", [], .named horiginal, " ", by simp, .nil, rfl,
        List.all_eq_true.mp (by decide), fun after => ?_⟩
      have hsecond := tokens_output output (.named horiginal)
        (" " ++ (site.originalPlaceholder sampleWire ++ after))
      have hfirst := tokens_driven ready (.head _) hname input htrails.2 ("  assign " ++
        (output.text ++ (" = " ++ (originalName sampleWire ++
          ';' :: (" // direct original value to output " ++ '\n' :: (" " ++
            (site.originalPlaceholder sampleWire ++ after)))))))
      rw [Signal.text_named] at hsecond
      rw [hsecond] at hfirst
      simpa only [circuit_splits, List.append_assoc, List.cons_append, List.nil_append] using hfirst

omit output in
/-- The line of the listed bits begins with the old statement. -/
theorem exists_busOpening (hports : ∀ port : FaultPort, sampleWire ≠ port.name)
    (plain : Gap.Plain gap.text) {high low : Text} (hbounds : site.bounds? = .some (high, low))
    (bit : Nat) :
    ∃ (front : Text) (middle : List Token),
      site.busOpening sampleWire input.text = "wire " ++ sampleWire ++ "_faultybit = " ++
        input.text ++ (';' :: '\n' :: front) ∧ Portless middle ∧ ∀ after,
          tokens (front ++ (" = " ++ '\x7b' :: (busConcatination sampleWire high low bit ++
            '\x7d' :: (" // fault injection " ++ '\n' :: after)))) = middle ++ tokens after := by
  have hblank : Lexer.reads " ".toList [] = true := by decide
  obtain ⟨hhigh, hlow⟩ := Gap.number_of_plain plain (reads.bounds.symm.trans hbounds)
  have hlisted : ∀ {lead : Text} {read : List Token}, Spells lead read → Portless read →
      ∃ middle, Portless middle ∧ ∀ after,
        tokens (lead ++ (sampleWire ++ (" = " ++ '\x7b' :: (busConcatination sampleWire high low
          bit ++ '\x7d' :: (" // fault injection " ++ '\n' :: after))))) =
            middle ++ tokens after := by
    intro lead read hlead hportless
    have hfront := hlead.append
      (Spells.word (isIdentifier.isWord hname) (by rfl) (Spells.literal reads_equals))
    obtain ⟨middle, hmiddle, htokens⟩ := exists_listed hname hfront
      (hportless.append (.word hports (.symbol _ .nil))) hhigh hlow bit
    refine ⟨middle, hmiddle, fun after => ?_⟩
    rw [← htokens after]
    simp only [List.append_assoc]
  unfold Site.busOpening
  cases hbranch : site.branch with
  | wire =>
      obtain ⟨hkeyword, -, hgroup, -, -⟩ := reads.wire hbranch
      have hword : keyword ∈ ["wire".toList, "reg".toList, "assign".toList] := by
        rcases hkeyword with rfl | rfl <;> simp
      have hreserved : keyword ∈ keywords := by
        refine (driving_keyword keyword ?_).1
        rcases hkeyword with rfl | rfl <;> simp
      have hlead := (Spells.literal hblank).append
        (Spells.word (isWord_keyword hword) (by rfl) (Spells.literal hblank))
      obtain ⟨middle, hmiddle, htokens⟩ := hlisted hlead
        (.append .nil (.word (fun port => port.ne_keyword hreserved) .nil))
      refine ⟨" " ++ (keyword ++ (" " ++ sampleWire)), middle, ?_, hmiddle, fun after => ?_⟩
      · simp only [hgroup, circuit_splits, List.append_assoc, List.cons_append]
      · rw [← htokens after]
        simp only [List.append_assoc]
  | register =>
      obtain ⟨-, -, hgroup⟩ := reads.register hbranch
      have hreserved : "wire".toList ∈ keywords := (driving_keyword _ (.head _)).1
      have hbreak := gap.head?_breaks []
      rw [List.append_nil] at hbreak
      have hlead := Spells.word (isWord_keyword (.head _)) hbreak (Gap.spells plain)
      obtain ⟨middle, hmiddle, htokens⟩ := hlisted hlead
        (.word (fun port => port.ne_keyword hreserved) (Gap.portless_tokens plain))
      refine ⟨"wire" ++ (gap.text ++ sampleWire), middle, ?_, hmiddle, fun after => ?_⟩
      · simp only [hgroup, circuit_splits, List.append_assoc, List.cons_append]
      · rw [← htokens after]
        simp only [List.append_assoc]

theorem isCircuit_bus (hports : ∀ port : FaultPort, sampleWire ≠ port.name)
    (plain : Gap.Plain gap.text) {high low : Text} (hbounds : site.bounds? = .some (high, low)) (bit : Nat) :
    IsCircuit sampleWire (sampleWire ++ "_faultybit".toList)
      (site.busCircuit sampleWire input.text output.text high low bit)
      (site.originalPlaceholder sampleWire) input output := by
  obtain ⟨horiginal, hfaulty⟩ := isIdentifier_fresh hname
  intro before ready
  obtain ⟨front, middle, hfront, hmiddle, hlisted⟩ :=
    reads.exists_busOpening hname input hports plain hbounds bit
  have hsource : (Signal.mk (originalName sampleWire) (.some bit) horiginal).text =
      originalName sampleWire ++ '[' :: (decimal bit ++ [']']) := rfl
  refine ⟨"wire", middle, ⟨originalName sampleWire, .some bit, horiginal⟩, "  ", by simp, hmiddle,
    rfl, List.all_eq_true.mp (by decide), fun after => ?_⟩
  have hsecond := tokens_output output ⟨originalName sampleWire, .some bit, horiginal⟩
    ("  " ++ (site.originalPlaceholder sampleWire ++ after))
  have htrail : tokensAfter [] = [] := rfl
  have hfirst := tokens_driven ready (.head _) hfaulty input htrail (front ++ (" = " ++
    '\x7b' :: (busConcatination sampleWire high low bit ++ '\x7d' :: (" // fault injection " ++
      '\n' :: ("  assign " ++ (output.text ++ (" = " ++ ((Signal.mk (originalName sampleWire)
        (.some bit) horiginal).text ++ ';' :: (" // direct original value to output " ++
          '\n' :: ("  " ++ (site.originalPlaceholder sampleWire ++ after)))))))))))
  rw [hlisted, hsecond] at hfirst
  unfold Site.busCircuit
  rw [hfront]
  simpa only [hsource, circuit_splits, List.append_assoc, List.cons_append, List.nil_append]
    using hfirst

end Site.Reads

omit [UnicodeData] in
/-- What a fault port is connected to by a circuit. -/
def FaultPort.owner (port : FaultPort) (sampleWire signal : Text) : Owner :=
  match port with
  | .inputs => .into signal
  | .outputs => .outOf (originalName sampleWire)

section Tokens

variable {keyword signal : Text} {middle : List Token} {source : Signal} {count index : Nat}

/-- The tokens of a circuit with the tokens behind it. -/
def circuitTokens (keyword signal : Text) (middle : List Token) (source input output : Signal)
    (rest : List Token) : List Token :=
  .word keyword :: .word signal :: .symbol '=' :: (input.tokens ++ .symbol ';' ::
    (middle ++ .word "assign".toList :: (output.tokens ++ .symbol '=' ::
      (source.tokens ++ .symbol ';' :: rest))))

omit [UnicodeData] in
theorem word_not_mem_of_name (port : FaultPort) {signal : Signal}
    (hne : signal.name ≠ port.name) : .word port.name ∉ signal.tokens :=
  word_not_mem_signal (Ne.symm hne) port.not_digit

omit [UnicodeData] in
/-- The fault inputs are used by the first statement. -/
theorem uses_circuit_inputs
    (hkeyword : keyword ∈ keywords ∧ drives (.word keyword) = true) (hsignal : signal ∉ keywords)
    (hne : signal ≠ FaultPort.inputs.name) (hmiddle : .word FaultPort.inputs.name ∉ middle)
    (hsource : source.name ≠ FaultPort.inputs.name) (reader : UseReader) (rest : List Token) :
    reader.uses FaultPort.inputs.name (circuitTokens keyword signal middle source
        (FaultPort.inputs.signal count index) (FaultPort.outputs.signal count index) rest) =
      ⟨.into signal, [faultPart count index]⟩ :: UseReader.start.uses FaultPort.inputs.name rest := by
  have hcut : middle ++ .word "assign".toList :: ((FaultPort.outputs.signal count index).tokens ++
      .symbol '=' :: (source.tokens ++ .symbol ';' :: rest)) =
      (middle ++ .word "assign".toList :: ((FaultPort.outputs.signal count index).tokens ++
        .symbol '=' :: source.tokens)) ++ .symbol ';' :: rest := by
    simp
  have houtput : .word FaultPort.inputs.name ∉ (FaultPort.outputs.signal count index).tokens :=
    word_not_mem_of_name .inputs FaultPort.inputs.other_ne
  have hsourceWord := word_not_mem_of_name .inputs hsource
  have hassign : Token.word FaultPort.inputs.name ≠ .word "assign".toList := fun heq =>
    FaultPort.inputs.ne_keyword (driving_keyword _ (by simp)).1 (Token.word.inj heq).symm
  rw [circuitTokens, UseReader.uses_driven _ hkeyword.1 hkeyword.2 hsignal hne (inside_signal _)
    (FaultPort.inputs.parts?_signal count index), hcut,
    UseReader.uses_statement UseReader.quiet_start]
  intro hmem
  rcases List.mem_append.mp hmem with hmem | hmem
  · exact hmiddle hmem
  · simp only [List.mem_cons, List.mem_append, hassign, houtput, hsourceWord, reduceCtorEq,
      or_self] at hmem

omit [UnicodeData] in
/-- The fault outputs are used by the assignment of the original. -/
theorem uses_circuit_outputs (hkeyword : keyword ∈ keywords)
    (hne : signal ≠ FaultPort.outputs.name) (hmiddle : .word FaultPort.outputs.name ∉ middle)
    (hsource : source.name ≠ FaultPort.outputs.name) (hname : source.name ∉ keywords)
    (reader : UseReader) (rest : List Token) :
    reader.uses FaultPort.outputs.name (circuitTokens keyword signal middle source
        (FaultPort.inputs.signal count index) (FaultPort.outputs.signal count index) rest) =
      ⟨.outOf source.name, [faultPart count index]⟩ ::
        UseReader.start.uses FaultPort.outputs.name rest := by
  have hinput : .word FaultPort.outputs.name ∉ (FaultPort.inputs.signal count index).tokens :=
    word_not_mem_of_name .outputs FaultPort.outputs.other_ne
  have hfirst : .word FaultPort.outputs.name ∉
      .word signal :: .symbol '=' :: (FaultPort.inputs.signal count index).tokens := by
    simp [hinput, Ne.symm hne]
  have hequals : .symbol '=' ∉ (FaultPort.outputs.signal count index).tokens :=
    Signal.symbol_not_mem _ (by decide)
  obtain ⟨select, hselect, hselected⟩ : ∃ select : List Token,
      source.tokens = .word source.name :: select ∧ .word FaultPort.outputs.name ∉ select :=
    ⟨_, rfl, fun hmem => word_not_mem_of_name .outputs hsource (.tail _ hmem)⟩
  have hcut : .word signal :: .symbol '=' :: ((FaultPort.inputs.signal count index).tokens ++
      .symbol ';' :: (middle ++ .word "assign".toList ::
        ((FaultPort.outputs.signal count index).tokens ++ .symbol '=' :: (source.tokens ++
          .symbol ';' :: rest)))) =
      (.word signal :: .symbol '=' :: (FaultPort.inputs.signal count index).tokens) ++
        .symbol ';' :: (middle ++ .word "assign".toList ::
          ((FaultPort.outputs.signal count index).tokens ++ .symbol '=' :: (source.tokens ++
            .symbol ';' :: rest))) := by
    simp
  rw [circuitTokens, hcut, UseReader.uses_keyword _ hkeyword hfirst, UseReader.uses_append,
    UseReader.uses_of_not_mem UseReader.quiet_start hmiddle, hselect, List.cons_append,
    UseReader.uses_assigned _ (inside_signal _) hequals
      (FaultPort.outputs.parts?_signal count index) hname,
    UseReader.uses_statement (UseReader.quiet_code _ _) hselected]
  rfl

end Tokens

omit [UnicodeData] in
theorem IsCircuit.uses_eq {signal circuit placeholder : Text} {count index : Nat}
    (isCircuit : IsCircuit sampleWire signal circuit placeholder
      (FaultPort.inputs.signal count index) (FaultPort.outputs.signal count index))
    (hname : isIdentifier sampleWire = true) (hsignal : isIdentifier signal = true)
    (hports : ∀ port : FaultPort, signal ≠ port.name) {before : Text}
    (ready : (Lexer.start.read before).Ready) (port : FaultPort) :
    ∃ lead : Text, (∀ c ∈ lead, c.isWhitespace = true) ∧ ∀ after,
      uses port.name (before ++ (circuit ++ after)) =
        UseReader.start.uses port.name (Lexer.start.read before).tokens.reverse ++
          ⟨port.owner sampleWire signal, [faultPart count index]⟩ ::
            uses port.name (lead ++ (placeholder ++ after)) := by
  obtain ⟨keyword, middle, source, lead, hkeyword, hmiddle, hsource, hlead, htokens⟩ :=
    isCircuit before ready
  have hdriving := driving_keyword keyword hkeyword
  have hne : ∀ port : FaultPort, source.name ≠ port.name := fun port =>
    hsource ▸ (port.ne_fresh sampleWire).1
  refine ⟨lead, hlead, fun after => ?_⟩
  rw [uses, htokens after, UseReader.uses_append]
  refine congrArg (_ ++ ·) ?_
  cases port with
  | inputs =>
      exact uses_circuit_inputs hdriving (isIdentifier.not_keyword hsignal) (hports .inputs)
        (hmiddle .inputs) (hne .inputs) _ _
  | outputs =>
      have horiginal := isIdentifier.not_keyword (isIdentifier_fresh hname).1
      rw [FaultPort.owner, ← hsource]
      exact uses_circuit_outputs hdriving.1 (hports .outputs) (hmiddle .outputs) (hne .outputs)
        (hsource ▸ horiginal) _ _

/-! ## The statement and its copy -/

theorem Gap.spells_keyword {gap : Gap} (plain : Plain gap.text) {keyword : Text}
    (hkeyword : keyword ∈ ["wire".toList, "reg".toList, "assign".toList]) :
    Spells (keyword ++ gap.text) (.word keyword :: gap.tokens) := by
  have hbreak := gap.head?_breaks []
  rw [List.append_nil] at hbreak
  exact Spells.word (isWord_keyword hkeyword) hbreak (Gap.spells plain)

/-- The copy of a driving statement reads on like the statement. -/
theorem uses_driving_copy {port : FaultPort} {gap : Gap} (plain : Gap.Plain gap.text)
    {keyword name copy before lead rest : Text} (hkeyword : keyword ∈ ["wire".toList, "assign".toList])
    (hname : isIdentifier name = true) (hcopy : isIdentifier copy = true)
    (hne : name ≠ port.name ∧ copy ≠ port.name) (ready : (Lexer.start.read before).Ready)
    (hlead : ∀ c ∈ lead, c.isWhitespace = true)
    (hrest : .word port.name ∉ (tokensAfter rest).takeWhile (· != .symbol ';')) :
    uses port.name (before ++ (keyword ++ gap.text ++ name ++ (" = " ++ rest))) =
      UseReader.start.uses port.name (Lexer.start.read before).tokens.reverse ++
        uses port.name (lead ++ ("wire" ++ gap.text ++ copy ++ (" = " ++ rest))) := by
  obtain ⟨hreserved, hdrives⟩ := driving_keyword keyword hkeyword
  have hword : keyword ∈ ["wire".toList, "reg".toList, "assign".toList] := by
    simp only [List.mem_cons, List.not_mem_nil, or_false] at hkeyword ⊢
    rcases hkeyword with rfl | rfl
    · exact Or.inl rfl
    · exact Or.inr (Or.inr rfl)
  have hspells : ∀ {keyword name : Text},
      keyword ∈ ["wire".toList, "reg".toList, "assign".toList] → isIdentifier name = true →
        Spells ((keyword ++ gap.text ++ name) ++ " = ".toList)
          (.word keyword :: (gap.tokens ++ [.word name, .symbol '='])) := by
    intro keyword name hkeyword hname
    have hall := (Gap.spells_keyword plain hkeyword).append
      (Spells.word (isIdentifier.isWord hname) (by rfl) (Spells.literal reads_equals))
    simpa only [List.append_assoc, List.cons_append] using hall
  have hold := tokens_spelled ready (hspells hword hname) rest
  have hcopied : tokens (lead ++ ("wire" ++ gap.text ++ copy ++ (" = " ++ rest))) =
      .word "wire".toList :: (gap.tokens ++ .word copy :: .symbol '=' :: tokensAfter rest) := by
    have hblank := (Spells.whitespace hlead).append (hspells (.head _) hcopy)
    rw [← List.append_assoc] at hblank
    have htokens := hblank.tokens_equals rest
    simpa only [List.append_assoc, List.cons_append, List.nil_append] using htokens
  have hportless := Gap.portless_tokens plain port
  have hmem : ∀ {name : Text}, name ≠ port.name → .word port.name ∉ gap.tokens ++ [.word name] :=
    fun hne => List.not_mem_append hportless (by simpa using Ne.symm hne)
  rw [uses, uses, hold, hcopied, UseReader.uses_append]
  refine congrArg (_ ++ ·) ?_
  rw [List.cons_append, List.append_assoc]
  obtain ⟨hwire, hwireDrives⟩ := driving_keyword "wire".toList (.head _)
  exact UseReader.uses_renamed _ _ hreserved hwire hdrives hwireDrives
    (Gap.inside_tokens plain) (Gap.inside_tokens plain)
    (Gap.symbol_not_mem_tokens plain (by decide)) (Gap.symbol_not_mem_tokens plain (by decide))
    (isIdentifier.not_keyword hname) (isIdentifier.not_keyword hcopy) (hmem hne.1) (hmem hne.2) hrest

/-- The copy of a declaration is not ended, but reads on like the declaration. -/
theorem uses_register_copy {port : FaultPort} {gap : Gap} (plain : Gap.Plain gap.text)
    {name copy before lead rest : Text} (hname : isIdentifier name = true)
    (hcopy : isIdentifier copy = true) (hne : name ≠ port.name ∧ copy ≠ port.name)
    (ready : (Lexer.start.read before).Ready) (hlead : ∀ c ∈ lead, c.isWhitespace = true)
    (hbreak : rest.head?.all Lexer.breaks = true)
    (hrest : .word port.name ∉ (tokensAfter rest).takeWhile (· != .symbol ';')) :
    uses port.name (before ++ ("reg" ++ gap.text ++ name ++ ';' :: rest)) =
      UseReader.start.uses port.name (Lexer.start.read before).tokens.reverse ++
        uses port.name (lead ++ ("reg" ++ gap.text ++ (copy ++ rest))) := by
  have hreserved := quiet_keyword "reg".toList (.head _)
  have hreg : "reg".toList ∈ ["wire".toList, "reg".toList, "assign".toList] := by simp
  have hspells := Gap.spells_keyword plain hreg
  have hold : tokens (before ++ ("reg" ++ gap.text ++ name ++ ';' :: rest)) =
      (Lexer.start.read before).tokens.reverse ++
        .word "reg".toList :: ((gap.tokens ++ [.word name]) ++ .symbol ';' :: tokensAfter rest) := by
    have hall := hspells.append
      (Spells.word (isIdentifier.isWord hname) (by rfl) (Spells.literal reads_semicolon))
    rw [← List.append_assoc] at hall
    have htokens := tokens_symbol ready hall isSymbol_semicolon rest
    simpa only [List.append_assoc, List.cons_append, List.nil_append] using htokens
  have hcopied : tokens (lead ++ ("reg" ++ gap.text ++ (copy ++ rest))) =
      .word "reg".toList :: ((gap.tokens ++ [.word copy]) ++ tokensAfter rest) := by
    have hword := ((Spells.whitespace hlead).append hspells).tokens_word
      (isIdentifier.isWord hcopy) hbreak
    simpa only [List.append_assoc, List.cons_append, List.nil_append] using hword
  have hportless := Gap.portless_tokens plain port
  have hmem : ∀ {name : Text}, name ≠ port.name → .word port.name ∉ gap.tokens ++ [.word name] :=
    fun hne => List.not_mem_append hportless (by simpa using Ne.symm hne)
  have hinside : ∀ token ∈ gap.tokens ++ [.word copy], UseReader.inside token = true := by
    intro token htoken
    rcases List.mem_append.mp htoken with htoken | htoken
    · exact Gap.inside_tokens plain token htoken
    · rw [List.mem_singleton.mp htoken]
      exact inside_word (isIdentifier.not_keyword hcopy)
  have hsymbols : ∀ token ∈ gap.tokens ++ [.word copy],
      token ≠ .symbol '(' ∧ token ≠ .symbol '.' := by
    intro token htoken
    rcases List.mem_append.mp htoken with htoken | htoken
    · constructor
      · rintro rfl
        exact Gap.symbol_not_mem_tokens plain (by decide) htoken
      · rintro rfl
        exact Gap.symbol_not_mem_tokens plain (by decide) htoken
    · rw [List.mem_singleton.mp htoken]
      simp
  rw [uses, uses, hold, hcopied, UseReader.uses_append]
  refine congrArg (_ ++ ·) ?_
  rw [UseReader.uses_keyword _ hreserved.1 (hmem hne.1),
    UseReader.uses_unended _ hreserved.1 hreserved.2 hinside hsymbols hrest]

end Circuits

/-! ## A call -/

/-- The text between the keyword and the name of the statement found. -/
def Site.gapText (site : Site) : Text :=
  match site.branch with
  | .wire => site.found.group 2
  | .register => site.found.group 1

/--
The statement found is the only one that matches.  It stands in code between words, is not
redirected first, and neither its signal nor the rest of it is part of a fault port.
-/
structure Site.Tapped (site : Site) (sampleWire moduleText : Text) : Prop where
  identifier : isIdentifier sampleWire = true
  named : ∀ port : FaultPort, sampleWire ≠ port.name
  untouched : site.text = moduleText
  single : (findall (site.pattern sampleWire) site.text).length = 1
  ready : (Lexer.start.read site.before).Ready
  plain : Gap.Plain site.gapText
  apart : site.branch = .register → site.found.rest.head?.all Lexer.breaks = true
  silent : Portless ((tokensAfter site.found.rest).takeWhile (· != .symbol ';'))

instance decidableForallPort (p : FaultPort → Prop) [DecidablePred p] : Decidable (∀ port, p port) :=
  decidable_of_iff (p .inputs ∧ p .outputs)
    ⟨fun h port => match port with | .inputs => h.1 | .outputs => h.2,
      fun h => ⟨h .inputs, h .outputs⟩⟩

instance (site : Site) (sampleWire moduleText : Text) :
    Decidable (site.Tapped sampleWire moduleText) :=
  decidable_of_iff
    (isIdentifier sampleWire = true ∧ (∀ port : FaultPort, sampleWire ≠ port.name) ∧
      site.text = moduleText ∧ (findall (site.pattern sampleWire) site.text).length = 1 ∧
      (Lexer.start.read site.before).Ready ∧ Gap.Plain site.gapText ∧
      (site.branch = .register → site.found.rest.head?.all Lexer.breaks = true) ∧
      Portless ((tokensAfter site.found.rest).takeWhile (· != .symbol ';')))
    ⟨fun ⟨h₁, h₂, h₃, h₄, h₅, h₆, h₇, h₈⟩ => ⟨h₁, h₂, h₃, h₄, h₅, h₆, h₇, h₈⟩,
      fun h => ⟨h.identifier, h.named, h.untouched, h.single, h.ready, h.plain, h.apart, h.silent⟩⟩

namespace Site.Tapped

variable {site : Site} {sampleWire moduleText : Text}

/-- The cut of a statement that was found has its gap between the keyword and the name. -/
theorem plain_gap (tapped : site.Tapped sampleWire moduleText) (cut : site.Cut sampleWire) :
    Gap.Plain cut.gap.text := by
  have hplain := tapped.plain
  unfold Site.gapText at hplain
  cases hbranch : site.branch with
  | wire =>
      obtain ⟨-, -, -, hgroup, -⟩ := cut.reads.wire hbranch
      rwa [hbranch, hgroup] at hplain
  | register =>
      obtain ⟨-, -, hgroup⟩ := cut.reads.register hbranch
      rwa [hbranch, hgroup] at hplain

theorem signal_eq (tapped : site.Tapped sampleWire moduleText) :
    isIdentifier (site.tapped sampleWire) = true ∧
      ∀ port : FaultPort, site.tapped sampleWire ≠ port.name := by
  unfold Site.tapped
  split
  · exact ⟨tapped.identifier, tapped.named⟩
  · exact ⟨(isIdentifier_fresh tapped.identifier).2, fun port => (port.ne_fresh sampleWire).2⟩

/-- Whatever index is chosen, a circuit is emitted. -/
theorem isCircuit (tapped : site.Tapped sampleWire moduleText) (cut : site.Cut sampleWire)
    {busIndex : Option BusIndex} {draw : Nat} {chosen : Option Nat}
    (hchosen : site.index busIndex draw = .ok chosen) (input output : Signal) :
    IsCircuit sampleWire (site.tapped sampleWire)
      (site.circuit sampleWire input.text output.text chosen)
      (site.originalPlaceholder sampleWire) input output := by
  unfold Site.tapped
  cases hbounds : site.bounds? with
  | none =>
      rw [site.circuit_bit hbounds]
      exact cut.reads.isCircuit_bit tapped.identifier _ _
  | some bounds =>
      obtain ⟨bit, rfl⟩ := site.exists_index hbounds hchosen
      rw [site.circuit_bus hbounds]
      exact cut.reads.isCircuit_bus tapped.identifier _ _ tapped.named (tapped.plain_gap cut)
        hbounds bit

/-- The module reads like what stands in front of the statement with the copy behind it. -/
theorem uses_copy (tapped : site.Tapped sampleWire moduleText) (cut : site.Cut sampleWire)
    (port : FaultPort) {lead : Text} (hlead : ∀ c ∈ lead, c.isWhitespace = true) :
    uses port.name moduleText =
      UseReader.start.uses port.name (Lexer.start.read cut.before).tokens.reverse ++
        uses port.name (lead ++ (site.originalPlaceholder sampleWire ++ site.found.rest)) := by
  have plain := tapped.plain_gap cut
  have ready := cut.before_eq ▸ tapped.ready
  have horiginal := (isIdentifier_fresh tapped.identifier).1
  have hne := And.intro (tapped.named port) (port.ne_fresh sampleWire).1
  have hmodule := tapped.untouched ▸ cut.text_eq
  rw [hmodule]
  unfold Site.originalPlaceholder
  cases hbranch : site.branch with
  | wire =>
      obtain ⟨hkeyword, htaken, -, hgroup, hending⟩ := cut.reads.wire hbranch
      have hkey : cut.keyword ∈ ["wire".toList, "assign".toList] := by
        rcases hkeyword with heq | heq <;> simp [heq]
      have hcopy := uses_driving_copy plain hkey tapped.identifier horiginal hne ready hlead
        (tapped.silent port)
      rw [htaken, hgroup, hending]
      simpa only [List.append_assoc] using hcopy
  | register =>
      obtain ⟨hkeyword, htaken, hgroup⟩ := cut.reads.register hbranch
      have hcopy := uses_register_copy plain tapped.identifier horiginal hne ready hlead
        (tapped.apart hbranch) (tapped.silent port)
      have hend : ";".toList = [';'] := by decide
      rw [htaken, hgroup, hkeyword, hend]
      simpa only [List.append_assoc, List.cons_append, List.nil_append] using hcopy

theorem uses_call {module module' : Module} (hsite : module.site sampleWire = .ok site)
    (tapped : site.Tapped sampleWire module.moduleText) {count index : Nat}
    {busIndex : Option BusIndex} {draw : Nat}
    (hrun : module.injectFault sampleWire (faultWire FaultPort.inputs.name count index)
      (faultWire FaultPort.outputs.name count index) busIndex draw = .ok module')
    (port : FaultPort) :
    ∃ front back, uses port.name module.moduleText = front ++ back ∧
      uses port.name module'.moduleText = front ++
        ⟨port.owner sampleWire (site.tapped sampleWire), [faultPart count index]⟩ :: back := by
  have hname := isName_of_identifier tapped.identifier
  obtain ⟨cut⟩ := module.exists_cut hsite
  -- the call puts its circuit in the place of the statement
  rw [← FaultPort.text_signal, ← FaultPort.text_signal] at hrun
  have hreturns := hrun
  rw [Module.injectFault_eq, hsite, ok_bind] at hreturns
  obtain ⟨chosen, hchosen, -⟩ := bind_eq_ok.mp hreturns
  rw [Module.injectFault_emits hname (isFaultWire_text _) (isFaultWire_text _) hsite hchosen,
    Except.ok.injEq] at hrun
  have htext : module'.moduleText = cut.before ++ (site.circuit sampleWire
      (FaultPort.inputs.signal count index).text (FaultPort.outputs.signal count index).text chosen ++
        site.found.rest) := by
    rw [← hrun, ← cut.sub_single tapped.single]
  obtain ⟨hsignal, hports⟩ := tapped.signal_eq
  obtain ⟨lead, hlead, huses⟩ := (tapped.isCircuit cut hchosen _ _).uses_eq tapped.identifier
    hsignal hports (cut.before_eq ▸ tapped.ready) port
  exact ⟨_, _, tapped.uses_copy cut port hlead,
    (congrArg (uses port.name) htext).trans (huses _)⟩

end Site.Tapped

end Taps

end FaultInjection
