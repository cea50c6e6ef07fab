import FaultInjection.Emission.Circuit
import FaultInjection.Verilog.Passage

/-!
# The outline of what is emitted

What the circuit of a call declares and assigns, and what the statement in whose place
it stands did.
-/

namespace FaultInjection

open Regex Regex.Pattern Text Verilog

section Runs

variable [UnicodeData]

/-! ## Gaps -/

/-- The characters that an outline takes notice of. -/
def outlineMarks : Text := ['[', ']', '(', ')', '\x7b', '\x7d', ';', ',', '=']

omit [UnicodeData] in
theorem inWord_toNat {c : Char} (hc : inWord c = true) : c.toNat < 127 := by
  rw [inWord, Bool.or_eq_true, Bool.or_eq_true, Bool.or_eq_true, Bool.or_eq_true] at hc
  rcases hc with (((halnum | hc) | hc) | hc) | hc
  · exact (toNat_of_isAlphanum halnum).2
  · rw [eq_of_beq hc]
    decide
  · rw [eq_of_beq hc]
    decide
  · rw [eq_of_beq hc]
    decide
  · rw [eq_of_beq hc]
    decide

omit [UnicodeData] in
theorem dull_of_not_ascii {c : Char} (hascii : ¬ c.toNat < 128) :
    Passage.dull c = true ∧ c ∉ outlineMarks := by
  have hother : ∀ d : Char, d.toNat < 128 → c ≠ d := by
    rintro d hd rfl
    exact hascii hd
  have hword : inWord c = false := by
    rw [← Bool.not_eq_true]
    intro hword
    exact hascii (Nat.lt_succ_of_lt (inWord_toNat hword))
  refine ⟨?_, fun hmem => ?_⟩
  · simp only [Passage.dull, Lexer.breaks, hword, Bool.not_false, Bool.true_and, Bool.and_eq_true,
      bne_iff_ne]
    exact ⟨⟨hother '.' (by decide), hother '/' (by decide)⟩, hother '"' (by decide)⟩
  · have hmarks : outlineMarks.all (fun d => decide (d.toNat < 128)) = true := by decide
    exact hascii (of_decide_eq_true (List.all_eq_true.mp hmarks c hmem))

theorem dull_of_isSpace {c : Char} (hspace : isSpace c = true) :
    Passage.dull c = true ∧ c ∉ outlineMarks := by
  by_cases hascii : c.toNat < 128
  · have hother : ∀ d : Char, d.toNat < 128 →
        (d == ' ' || (9 ≤ d.toNat && d.toNat ≤ 13) || (28 ≤ d.toNat && d.toNat ≤ 31)) = false →
          c ≠ d := by
      rintro d hd hno rfl
      rw [isSpace_ascii hd, hno] at hspace
      cases hspace
    have halnum : c.isAlphanum = false := by
      have hword := isWord_of_isSpace hspace
      rw [isWord_ascii hascii, Bool.or_eq_false_iff] at hword
      exact hword.1
    have hword : inWord c = false := by
      simp only [inWord, halnum, Bool.false_or, Bool.or_eq_false_iff, beq_eq_false_iff_ne]
      exact ⟨⟨⟨hother '_' (by decide) (by decide), hother '$' (by decide) (by decide)⟩,
        hother '\'' (by decide) (by decide)⟩, hother grave (by decide) (by decide)⟩
    refine ⟨?_, fun hmem => ?_⟩
    · simp only [Passage.dull, Lexer.breaks, hword, Bool.not_false, Bool.true_and, Bool.and_eq_true,
        bne_iff_ne]
      exact ⟨⟨hother '.' (by decide) (by decide), hother '/' (by decide) (by decide)⟩,
        hother '"' (by decide) (by decide)⟩
    · have hmarks : outlineMarks.all (fun d => decide (d.toNat < 128) &&
          !(d == ' ' || (9 ≤ d.toNat && d.toNat ≤ 13) ||
            (28 ≤ d.toNat && d.toNat ≤ 31))) = true := by decide
      have hmark := List.all_eq_true.mp hmarks c hmem
      rw [Bool.and_eq_true, Bool.not_eq_true'] at hmark
      exact hother c (of_decide_eq_true hmark.1) hmark.2 rfl
  · exact dull_of_not_ascii hascii

theorem digit_or_dull {c : Char} (hdigit : isDigit c = true) :
    c.isDigit = true ∨ (Passage.dull c = true ∧ c ∉ outlineMarks) := by
  by_cases hascii : c.toNat < 128
  · rw [isDigit_ascii hascii] at hdigit
    exact Or.inl hdigit
  · exact Or.inr (dull_of_not_ascii hascii)

omit [UnicodeData] in
theorem ignored_symbol {c : Char} (hc : c ∉ outlineMarks) :
    Ignored .declaring (.symbol c) ∧ Ignored .range (.symbol c) ∧
      ∀ declares depth, Ignored (.driver declares depth) (.symbol c) := by
  simp only [outlineMarks, List.mem_cons, List.not_mem_nil, or_false, not_or] at hc
  obtain ⟨hopen, hclose, hparen, hparen', hbrace, hbrace', hend, hcomma, -⟩ := hc
  refine ⟨?_, ?_, fun declares depth => ?_⟩
  · simp [Ignored, Outline.step, Outline.symbol, hopen, hend]
  · simp [Ignored, Outline.step, Outline.symbol, hclose]
  · simp [Ignored, Outline.step, Outline.symbol, Reader.opens, Reader.closes, hopen, hclose,
      hparen, hparen', hbrace, hbrace', hend, hcomma]

omit [UnicodeData] in
theorem ignored_digits {digits : Text} (hdigits : ∀ c ∈ digits, c.isDigit = true) :
    Ignored .range (.word digits) ∧
      ∀ declares depth, Ignored (.driver declares depth) (.word digits) := by
  have hreserved := digits_not_reserved hdigits
  refine ⟨?_, Outline.step_driver hreserved⟩
  show (⟨[], [], .range⟩ : Outline).word digits = _
  rw [Outline.word_of_not_reserved hreserved]

/-! ## Passages of gaps and bounds -/

theorem Gap.head?_breaks (gap : Gap) (rest : Text) :
    (gap.text ++ rest).head?.any Lexer.breaks = true := by
  obtain ⟨c, others, hfirst⟩ := List.exists_cons_of_ne_nil gap.first_ne_nil
  have hspace := gap.first_space c (by rw [hfirst]; exact .head _)
  have hdull := (dull_of_isSpace hspace).1
  rw [Passage.dull, Bool.and_eq_true, Bool.and_eq_true] at hdull
  rw [text, hfirst]
  exact hdull.1.1

theorem passage_space {text : Text} (hspace : ∀ c ∈ text, isSpace c = true) :
    Passage text .declaring .declaring [] [] := by
  refine Passage.blank fun c hc => ?_
  obtain ⟨hdull, hmark⟩ := dull_of_isSpace (hspace c hc)
  exact ⟨hdull, (ignored_symbol hmark).1⟩

theorem passage_gap (gap : Gap) : Passage gap.text .declaring .declaring [] [] := by
  have hcolon : Lexer.reads [':'] [.symbol ':'] = true := by decide
  have hrange : ∀ {digits more : Text}, (∀ c ∈ digits, isDigit c = true) →
      more.head?.any Lexer.breaks = true → Passage more .range .declaring [] [] →
        Passage (digits ++ more) .range .declaring [] [] := by
    intro digits more hdigits hbreak hmore
    refine Passage.number (fun c hc => ?_) (fun word hword => (ignored_digits hword).1) hbreak hmore
    exact (digit_or_dull (hdigits c hc)).imp id fun h => ⟨h.1, (ignored_symbol h.2).2.1⟩
  have hlast := passage_space gap.last_space
  rw [Gap.text]
  apply (passage_space gap.first_space).skip
  cases hbounds : gap.bounds with
  | none => exact hlast
  | some bounds =>
      obtain ⟨high, low⟩ := bounds
      obtain ⟨⟨-, hhigh⟩, -, hlow⟩ := gap.number high low hbounds
      have hopen : Passage ['['] .declaring .range [] [] := Passage.literal reads_bracket.1 rfl
      have hmiddle : Passage [':'] .range .range [] [] := Passage.literal hcolon rfl
      have hclose : Passage [']'] .range .declaring [] [] := Passage.literal reads_bracket.2 rfl
      simp only [rangeText, List.cons_append, List.append_assoc]
      refine hopen.skip (hrange hhigh rfl (hmiddle.skip ?_))
      exact hrange hlow rfl (hclose.skip hlast)

omit [UnicodeData] in
theorem step_declares {keyword : Text} (hkeyword : keyword = "wire" ∨ keyword = "reg")
    (spot : Spot) :
    (⟨[], [], spot⟩ : Outline).step (.word keyword) = ⟨[], [], .declaring⟩ := by
  show (⟨[], [], spot⟩ : Outline).word keyword = _
  unfold Outline.word
  rcases hkeyword with rfl | rfl
  · rw [if_pos (by decide)]
  · rw [if_pos (by decide)]

omit [UnicodeData] in
theorem step_assign (spot : Spot) :
    (⟨[], [], spot⟩ : Outline).step (.word "assign".toList) = ⟨[], [], .target []⟩ := by
  show (⟨[], [], spot⟩ : Outline).word "assign".toList = _
  unfold Outline.word
  rw [if_neg (by decide), if_pos rfl]

omit [UnicodeData] in
theorem isWord_keyword {keyword : Text} (hkeyword : keyword ∈ ["wire".toList, "reg".toList,
    "assign".toList]) : Lexer.IsWord keyword := by
  have hall : ["wire".toList, "reg".toList, "assign".toList].all (fun keyword =>
      !keyword.isEmpty && keyword.all fun c => inWord c && c != grave) = true := by
    decide +kernel
  have hword := List.all_eq_true.mp hall keyword hkeyword
  rw [Bool.and_eq_true, Bool.not_eq_true', List.isEmpty_eq_false_iff,
    List.all_eq_true] at hword
  refine ⟨hword.1, fun c hc => ?_⟩
  have hboth := hword.2 c hc
  rwa [Bool.and_eq_true, bne_iff_ne] at hboth

theorem passage_keyword {keyword : Text} (hkeyword : keyword = "wire" ∨ keyword = "reg")
    (gap : Gap) (spot : Spot) : Passage (keyword ++ gap.text) spot .declaring [] [] := by
  have hbreak := gap.head?_breaks []
  rw [List.append_nil] at hbreak
  refine Passage.word (isWord_keyword ?_) hbreak (step_declares hkeyword spot) (passage_gap gap)
  rcases hkeyword with rfl | rfl <;> simp

theorem passage_assign {gap : Gap} (hgap : gap.text.all Char.isWhitespace = true) (spot : Spot) :
    Passage ("assign" ++ gap.text) spot (.target []) [] [] := by
  have hbreak := gap.head?_breaks []
  rw [List.append_nil] at hbreak
  exact Passage.word (isWord_keyword (by simp)) hbreak (step_assign spot)
    (Passage.whitespace (List.all_eq_true.mp hgap))

/-! ## Passages of circuits -/

section Circuits

variable {spot spot' : Spot} {declared : List Text} {targets : List (List Token)} {lead more : Text}

omit [UnicodeData] in
theorem reads_equals : Lexer.reads " = ".toList [.symbol '='] = true := by
  decide +kernel

omit [UnicodeData] in
theorem passage_declared (hlead : Passage lead spot .declaring [] []) {name : Text}
    (hname : isIdentifier name = true)
    (hmore : Passage more (.driver true 0) spot' declared targets) :
    Passage (lead ++ (name ++ (" = " ++ more))) spot spot' (declared ++ [name])
      (targets ++ [[.word name]]) := by
  have hequals : Passage " = ".toList (.declared name) (.driver true 0) [] [[.word name]] :=
    Passage.literal reads_equals rfl
  have hdriven := hequals.append hmore
  rw [List.append_nil] at hdriven
  have hpassage := hlead.skip (Passage.word (isIdentifier.isWord hname) (by rfl)
    (Outline.step_declaring hname) hdriven)
  rwa [List.append_nil] at hpassage

omit [UnicodeData] in
theorem passage_assigned (hlead : Passage lead spot (.target []) [] []) (signal : Signal)
    (hmore : Passage more (.driver false 0) spot' declared targets) :
    Passage (lead ++ (signal.text ++ (" = " ++ more))) spot spot' declared
      (targets ++ [signal.tokens]) := by
  have hequals : Passage " = ".toList (.target signal.tokens) (.driver false 0) []
      [signal.tokens] :=
    Passage.literal reads_equals rfl
  have hdriven := hequals.append hmore
  rw [List.append_nil] at hdriven
  exact hlead.skip (Passage.target signal (by rfl) hdriven)

theorem passage_index {digits : Text}
    (hdigits : ∀ c ∈ digits, c.isDigit = true ∨ isDigit c = true)
    (hbreak : more.head?.any Lexer.breaks = true) {declares : Bool} {depth : Nat}
    (hmore : Passage more (.driver declares depth) spot declared targets) :
    Passage (digits ++ more) (.driver declares depth) spot declared targets := by
  refine Passage.number (fun c hc => ?_)
    (fun word hword => (ignored_digits hword).2 declares depth) hbreak hmore
  rcases hdigits c hc with hdigit | hdigit
  · exact Or.inl hdigit
  · exact (digit_or_dull hdigit).imp id fun h => ⟨h.1, (ignored_symbol h.2).2.2 declares depth⟩

theorem passage_slice {name high low : Text} (hname : isIdentifier name = true)
    (hhigh : ∀ c ∈ high, c.isDigit = true ∨ isDigit c = true)
    (hlow : ∀ c ∈ low, c.isDigit = true ∨ isDigit c = true) {declares : Bool}
    (hmore : Passage more (.driver declares 1) spot declared targets) :
    Passage (name ++ ("[" ++ (high ++ (", " ++ (low ++ ("]" ++ more)))))) (.driver declares 1) spot
      declared targets := by
  have hliterals : Lexer.reads "[".toList [.symbol '['] = true ∧
      Lexer.reads ", ".toList [.symbol ','] = true ∧
      Lexer.reads "]".toList [.symbol ']'] = true := by
    decide +kernel
  obtain ⟨hopen, hcomma, hclose⟩ := hliterals
  have hbracket : Passage "[".toList (.driver declares 1) (.driver declares 2) [] [] :=
    Passage.literal hopen rfl
  have hmiddle : Passage ", ".toList (.driver declares 2) (.driver declares 2) [] [] :=
    Passage.literal hcomma rfl
  have hend : Passage "]".toList (.driver declares 2) (.driver declares 1) [] [] :=
    Passage.literal hclose rfl
  refine Passage.silent (isIdentifier.isWord hname) (by rfl)
    (Outline.step_driver (isIdentifier.not_reserved hname) declares 1) (hbracket.skip ?_)
  refine passage_index hhigh (by rfl) (hmiddle.skip ?_)
  exact passage_index hlow (by rfl) (hend.skip hmore)

omit [UnicodeData] in
theorem isIdentifier_fresh {sampleWire : Text} (hname : isIdentifier sampleWire = true) :
    isIdentifier (originalName sampleWire) = true ∧
      isIdentifier (sampleWire ++ "_faultybit".toList) = true :=
  ⟨isIdentifier.append hname (by decide) (by decide),
    isIdentifier.append hname (by decide) (by decide)⟩

theorem passage_concatination {sampleWire high low : Text}
    (hname : isIdentifier sampleWire = true) (hhigh : ∀ c ∈ high, isDigit c = true)
    (hlow : ∀ c ∈ low, isDigit c = true) (bit : Nat) {declares : Bool}
    (hbreak : more.head?.any Lexer.breaks = true)
    (hmore : Passage more (.driver declares 1) spot declared targets) :
    Passage (busConcatination sampleWire high low bit ++ more) (.driver declares 1) spot declared
      targets := by
  have hcomma : Lexer.reads ", ".toList [.symbol ','] = true := by decide
  obtain ⟨horiginal, hfaulty⟩ := isIdentifier_fresh hname
  have hseparator : Passage ", ".toList (.driver declares 1) (.driver declares 1) [] [] :=
    Passage.literal hcomma rfl
  have hdecimal : ∀ n, ∀ c ∈ decimal n, c.isDigit = true ∨ isDigit c = true :=
    fun n c hc => Or.inl (isDigit_of_mem_decimal hc)
  have hfaultybit : ∀ {rest : Text}, rest.head?.any Lexer.breaks = true →
      Passage rest (.driver declares 1) spot declared targets →
        Passage (", " ++ (sampleWire ++ "_faultybit".toList ++ rest)) (.driver declares 1) spot
          declared targets := by
    intro rest hrest hpassage
    refine hseparator.skip (Passage.silent (isIdentifier.isWord hfaulty) hrest ?_ hpassage)
    exact Outline.step_driver (isIdentifier.not_reserved hfaulty) declares 1
  have hback : Passage (", " ++ (sampleWire ++ "_faultybit".toList ++
      ((if bit > int low then
        ", " ++ originalName sampleWire ++ "[" ++ decimal (bit - 1) ++ ", " ++ low ++ "]"
      else []) ++ more))) (.driver declares 1) spot declared targets := by
    split
    · apply hfaultybit (by rfl)
      simp only [List.append_assoc]
      exact hseparator.skip (passage_slice horiginal (hdecimal _)
        (fun c hc => Or.inr (hlow c hc)) hmore)
    · exact hfaultybit hbreak hmore
  unfold busConcatination
  split
  · simp only [List.append_assoc] at hback ⊢
    exact passage_slice horiginal (fun c hc => Or.inr (hhigh c hc)) (hdecimal bit) hback
  · simp only [List.append_assoc, List.nil_append] at hback ⊢
    exact hback

omit [UnicodeData] in
theorem passage_output (hlead : Passage lead spot (.target []) [] []) (output source : Signal)
    {close : Text} (hclose : Lexer.reads close [.symbol ';'] = true)
    (hbreak : close.head?.any Lexer.breaks = true)
    (hmore : Passage more .code spot' declared targets) :
    Passage (lead ++ (output.text ++ (" = " ++ (source.text ++ (close ++ more))))) spot spot'
      declared (targets ++ [output.tokens]) := by
  have hend : Passage close (.driver false 0) .code [] [] := Passage.literal hclose rfl
  refine passage_assigned hlead output (Passage.operand source ?_ (hend.skip hmore))
  cases close with
  | nil => cases hbreak
  | cons c close => exact hbreak

omit [UnicodeData] in
theorem passage_comment {token : Token} (hreads : Lexer.reads lead [token, .word "assign".toList] =
    true) (hstep : (⟨[], [], spot⟩ : Outline).step token = ⟨[], [], spot'⟩) :
    Passage lead spot (.target []) [] [] := by
  apply Passage.literal hreads
  show ((⟨[], [], spot⟩ : Outline).step token).step (.word "assign".toList) = _
  rw [hstep]
  exact step_assign spot'

omit [UnicodeData] in
theorem passage_next {front : Text} (hfront : front = ";\n " ∨ front = ";\n")
    (hlead : Passage lead .code spot' [] []) :
    Passage (front ++ lead) (.driver true 0) spot' [] [] := by
  have hreads : Lexer.reads ";\n ".toList [.symbol ';'] = true ∧
      Lexer.reads ";\n".toList [.symbol ';'] = true := by
    decide +kernel
  have hfirst : Passage front (.driver true 0) .code [] [] := by
    rcases hfront with rfl | rfl
    · exact Passage.literal hreads.1 rfl
    · exact Passage.literal hreads.2 rfl
  exact hfirst.skip hlead

end Circuits

/-- Names as the targets of assignments. -/
def nameTargets (names : List Text) : List (List Token) := names.map fun name => [.word name]

namespace Site

/-- The wire of the fault input, which only a bus has. -/
def faultyNames (site : Site) (sampleWire : Text) : List Text :=
  match site.bounds? with
  | none => []
  | .some _ => [sampleWire ++ "_faultybit"]

/-- The signal itself, where the circuit declares it again. -/
def redeclared (site : Site) (sampleWire : Text) : List Text :=
  match site.branch with
  | .wire => if site.found.group 1 = "wire" then [sampleWire] else []
  | .register => [sampleWire]

/-- What stands behind the name of the original. -/
def ending (site : Site) : Text :=
  match site.branch with
  | .wire => " = "
  | .register => []

section Circuit

variable {site : Site} {sampleWire keyword : Text} {gap : Gap}
  (reads : site.Reads sampleWire keyword gap) (hname : isIdentifier sampleWire = true)
  (faultInput faultOutput : Signal)
include reads hname

theorem Reads.passage_redeclared (hbranch : site.branch = .wire) {spot spot' : Spot}
    (front : Text) {more : Text} {declared : List Text} {targets : List (List Token)}
    (hfront : ∀ {lead : Text} {next : Spot}, (∀ spot, Passage lead spot next [] []) →
      Passage (front ++ lead) spot next [] [])
    (hmore : ∀ declares, Passage more (.driver declares 0) spot' declared targets) :
    Passage (front ++ (keyword ++ " ") ++ (sampleWire ++ (" = " ++ more))) spot spot'
      (declared ++ site.redeclared sampleWire) (targets ++ [[.word sampleWire]]) := by
  have hreads : Lexer.reads ("wire".toList ++ " ".toList) [.word "wire".toList] = true ∧
      Lexer.reads ("assign".toList ++ " ".toList) [.word "assign".toList] = true := by
    decide +kernel
  have hassign : "assign".toList ≠ "wire".toList := by decide
  obtain ⟨hkeyword, -, hgroup, -, -⟩ := reads.wire hbranch
  unfold redeclared
  rw [hbranch]
  rcases hkeyword with rfl | rfl
  · have hlead : ∀ spot, Passage ("wire".toList ++ " ".toList) spot .declaring [] [] :=
      fun spot => Passage.literal hreads.1 (step_declares (Or.inl rfl) spot)
    simp only [hgroup, if_true]
    exact passage_declared (hfront hlead) hname (hmore true)
  · have hlead : ∀ spot, Passage ("assign".toList ++ " ".toList) spot (.target []) [] [] :=
      fun spot => Passage.literal hreads.2 (step_assign spot)
    have hpassage := passage_assigned (hfront hlead) (Signal.named hname) (hmore false)
    rw [Signal.text_named] at hpassage
    simp only [hgroup, hassign, if_false, List.append_nil]
    exact hpassage

/-- What the circuit of a single bit says, up to the name of the original. -/
theorem Reads.exists_passage_bit : ∃ front,
    site.bitCircuit sampleWire faultInput.text faultOutput.text =
        front ++ (originalName sampleWire ++ site.ending) ∧
      ∀ spot, Passage front spot .declaring (site.redeclared sampleWire)
        [faultOutput.tokens, [.word sampleWire]] := by
  have hreads : Lexer.reads (";".toList ++ " // fault injection \n  assign ".toList)
        [.symbol ';', .word "assign".toList] = true ∧
      Lexer.reads (";".toList ++ " // fault injection\n  assign ".toList)
        [.symbol ';', .word "assign".toList] = true := by
    decide +kernel
  have hcloses : Lexer.reads "; // direct original value to output \n  ".toList [.symbol ';'] =
        true ∧
      Lexer.reads "; // direct original value to output \n ".toList [.symbol ';'] = true := by
    decide +kernel
  obtain ⟨horiginal, -⟩ := isIdentifier_fresh hname
  -- the fault input drives the signal, the original drives the fault output
  have hdriver : ∀ {lead close keyword : Text} (declares : Bool),
      (keyword = "wire" ∨ keyword = "reg") →
      Lexer.reads lead [.symbol ';', .word "assign".toList] = true →
      lead.head?.any Lexer.breaks = true →
      Lexer.reads close [.symbol ';'] = true → close.head?.any Lexer.breaks = true →
      Passage (faultInput.text ++ (lead ++ (faultOutput.text ++ (" = " ++
        (originalName sampleWire ++ (close ++ (keyword ++ gap.text))))))) (.driver declares 0)
        .declaring [] [faultOutput.tokens] := by
    intro lead close keyword declares hkeyword hlead hbreak hclose hend
    have hcomment : Passage lead (.driver declares 0) (.target []) [] [] :=
      passage_comment hlead rfl
    have houtput := passage_output hcomment faultOutput (Signal.named horiginal) hclose hend
      (passage_keyword hkeyword gap .code)
    rw [Signal.text_named] at houtput
    refine Passage.operand faultInput ?_ houtput
    cases lead with
    | nil => cases hbreak
    | cons c lead => exact hbreak
  unfold bitCircuit originalPlaceholder ending
  cases hbranch : site.branch with
  | wire =>
      obtain ⟨-, -, hkeyword, hgap, hending⟩ := reads.wire hbranch
      have hmore := fun declares => hdriver declares (Or.inl rfl) hreads.1 (by rfl)
        hcloses.1 (by rfl)
      refine ⟨_, ?_, fun spot => reads.passage_redeclared hname hbranch []
        (fun hlead => hlead spot) hmore⟩
      simp only [hkeyword, hgap, hending, List.append_assoc, List.nil_append]
  | register =>
      obtain ⟨-, -, hgap⟩ := reads.register hbranch
      have hwire : Lexer.reads "wire ".toList [.word "wire".toList] = true := by decide
      have hlead : ∀ spot, Passage "wire ".toList spot .declaring [] [] :=
        fun spot => Passage.literal hwire (step_declares (Or.inl rfl) spot)
      have hmore := hdriver true (Or.inr rfl) hreads.2 (by rfl) hcloses.2 (by rfl)
      unfold redeclared
      rw [hbranch]
      refine ⟨_, ?_, fun spot => passage_declared (hlead spot) hname hmore⟩
      simp only [hgap, List.append_assoc, List.append_nil]

/-- What the circuit of a bus says, up to the name of the original. -/
theorem Reads.exists_passage_bus {high low : Text} (hbounds : site.bounds? = .some (high, low))
    (bit : Nat) : ∃ front,
    site.busCircuit sampleWire faultInput.text faultOutput.text high low bit =
        front ++ (originalName sampleWire ++ site.ending) ∧
      ∀ spot, Passage front spot .declaring
        (site.redeclared sampleWire ++ [sampleWire ++ "_faultybit"])
        [faultOutput.tokens, [.word sampleWire], [.word (sampleWire ++ "_faultybit".toList)]] := by
  have hreads : Lexer.reads "\x7b".toList [.symbol '\x7b'] = true ∧
      Lexer.reads ("\x7d".toList ++ " // fault injection \n  assign ".toList)
        [.symbol '\x7d', .word "assign".toList] = true ∧
      Lexer.reads "; // direct original value to output \n  ".toList [.symbol ';'] = true ∧
      Lexer.reads "wire ".toList [.word "wire".toList] = true := by
    decide +kernel
  obtain ⟨hbrace, hcomment, hclose, hwire⟩ := hreads
  have hsplit : "_faultybit = ".toList = "_faultybit".toList ++ " = ".toList ∧
      " = \x7b".toList = " = ".toList ++ "\x7b".toList ∧
      "]; // direct original value to output \n  ".toList =
        [']'] ++ "; // direct original value to output \n  ".toList ∧
      "[".toList = ['['] ∧ ";\nwire".toList = ";\n".toList ++ "wire".toList := by
    decide +kernel
  obtain ⟨horiginal, hfaulty⟩ := isIdentifier_fresh hname
  obtain ⟨⟨-, hhigh⟩, -, hlow⟩ := gap.number high low (reads.bounds.symm.trans hbounds)
  have hlead : ∀ spot, Passage "wire ".toList spot .declaring [] [] :=
    fun spot => Passage.literal hwire (step_declares (Or.inl rfl) spot)
  -- the listed bits drive the signal, one bit of the original drives the fault output
  have hdriver : ∀ {keyword : Text} (declares : Bool), (keyword = "wire" ∨ keyword = "reg") →
      Passage ("\x7b" ++ (busConcatination sampleWire high low bit ++
        ("\x7d".toList ++ " // fault injection \n  assign ".toList ++ (faultOutput.text ++ (" = " ++
          ((Signal.mk (originalName sampleWire) (.some bit) horiginal).text ++
            ("; // direct original value to output \n  ".toList ++ (keyword ++ gap.text))))))))
        (.driver declares 0) .declaring [] [faultOutput.tokens] := by
    intro keyword declares hkeyword
    have hopen : Passage "\x7b".toList (.driver declares 0) (.driver declares 1) [] [] :=
      Passage.literal hbrace rfl
    have hend : Passage ("\x7d".toList ++ " // fault injection \n  assign ".toList)
        (.driver declares 1) (.target []) [] [] := passage_comment hcomment rfl
    refine hopen.skip (passage_concatination hname hhigh hlow bit (by rfl) ?_)
    exact passage_output hend faultOutput ⟨originalName sampleWire, .some bit, horiginal⟩ hclose
      (by rfl) (passage_keyword hkeyword gap .code)
  have htext : ∀ rest : Text, originalName sampleWire ++ ("[" ++ (decimal bit ++
      ("]; // direct original value to output \n  " ++ rest))) =
        (Signal.mk (originalName sampleWire) (.some bit) horiginal).text ++
          ("; // direct original value to output \n  " ++ rest) := by
    intro rest
    rw [hsplit.2.2.1, hsplit.2.2.2.1]
    simp only [Signal.text, decimal, List.append_assoc, List.cons_append, List.nil_append]
  unfold busCircuit busOpening originalPlaceholder ending
  cases hbranch : site.branch with
  | wire =>
      obtain ⟨-, -, hkeyword, hgap, hending⟩ := reads.wire hbranch
      have hsignal := reads.passage_redeclared hname hbranch ";\n "
        (fun hlead => passage_next (Or.inl rfl) (hlead .code))
        fun declares => hdriver declares (Or.inl rfl)
      refine ⟨_, ?_, fun spot =>
        passage_declared (hlead spot) hfaulty (Passage.operand faultInput (by rfl) hsignal)⟩
      simp only [hkeyword, hgap, hending, hsplit.1, hsplit.2.1, htext, List.append_assoc]
  | register =>
      obtain ⟨-, -, hgap⟩ := reads.register hbranch
      have hsignal := passage_declared
        (passage_next (Or.inr rfl) (passage_keyword (Or.inl rfl) gap .code)) hname
        (hdriver true (Or.inr rfl))
      unfold redeclared
      rw [hbranch]
      refine ⟨_, ?_, fun spot =>
        passage_declared (hlead spot) hfaulty (Passage.operand faultInput (by rfl) hsignal)⟩
      simp only [hgap, hsplit.1, hsplit.2.1, hsplit.2.2.2.2, htext, List.append_assoc,
        List.append_nil]

theorem Reads.exists_passage {busIndex : Option BusIndex} {draw : Nat} {index : Option Nat}
    (hindex : site.index busIndex draw = .ok index) : ∃ front,
    site.circuit sampleWire faultInput.text faultOutput.text index =
        front ++ (originalName sampleWire ++ site.ending) ∧
      ∀ spot, Passage front spot .declaring
        (site.redeclared sampleWire ++ site.faultyNames sampleWire)
        (faultOutput.tokens :: [.word sampleWire] :: nameTargets (site.faultyNames sampleWire)) := by
  unfold faultyNames
  cases hbounds : site.bounds? with
  | none =>
      rw [site.circuit_bit hbounds, List.append_nil]
      exact reads.exists_passage_bit hname faultInput faultOutput
  | some bounds =>
      obtain ⟨bit, rfl⟩ := site.exists_index hbounds hindex
      rw [site.circuit_bus hbounds]
      exact reads.exists_passage_bus hname faultInput faultOutput hbounds bit

end Circuit

end Site

end Runs

end FaultInjection
