import FaultInjection.Emission.Header
import FaultInjection.Plumbing.Connections

/-!
# Declarations of the fault buses

What the rewriting of a header makes of the tokens of a module: the fault ports of a
child, or the wires and the driver of the root, are declared with one bit for each
fault, and the uses of the two buses stay as they are.
-/

namespace FaultInjection

open Regex Regex.Pattern Text Verilog

namespace FaultPort

/-- The number of bits that a text declares for the fault port, or for the wire of the root. -/
def declaredWidth? (port : FaultPort) (text : Text) : Option Nat :=
  match declaration? port.name (tokens text) with
  | .some (keyword, width) =>
      if keyword ∈ [port.direction, "wire".toList] then some width else none
  | none => none

theorem ne_direction (port other : FaultPort) : other.direction ≠ port.name := by
  cases port <;> cases other <;> decide

end FaultPort

theorem isIdentifier_newModuleType {type : Text} (htype : isIdentifier type = true)
    (moduleText : Text) : isIdentifier (newModuleType type moduleText) = true := by
  have hlengths : ∀ word ∈ reservedWords, word.length < 64 := by decide
  unfold newModuleType
  rw [List.append_assoc]
  refine isIdentifier.append htype ?_ ?_
  · rw [List.all_append, Bool.and_eq_true]
    refine ⟨by decide, List.all_eq_true.mpr fun c hc => ?_⟩
    rw [isAlphanum_of_mem_hexdigest hc, Bool.true_or]
  · refine List.all_eq_true.mpr fun word hword => ?_
    rw [Bool.not_eq_true', ← Bool.not_eq_true, List.isSuffixOf_iff_suffix]
    intro hsuffix
    have hlength := hsuffix.length_le
    rw [List.length_append, Sha256.length_hexdigest] at hlength
    have hshort := hlengths word hword
    omega

/-! ## Declarations as they are read -/

theorem spells_faultIoBounds (count : Nat) {more : Text} {read : List Token}
    (spells : Spells more read) : Spells (faultIoBounds count ++ more) (rangeTokens count ++ read) := by
  have hreads : Lexer.reads "[".toList [.symbol '['] = true ∧
      Lexer.reads ":0]".toList [.symbol ':', .word ['0'], .symbol ']'] = true := by
    decide
  unfold faultIoBounds rangeTokens
  split
  · exact spells
  · have hhigh := Spells.word (isWord_digits (fun c hc => isDigit_of_mem_decimal hc)
      (decimal_ne_nil (count - 1))) (by rfl) ((Spells.literal hreads.2).append spells)
    have hall := (Spells.literal hreads.1).append hhigh
    simpa only [decimal, List.append_assoc, List.cons_append, List.nil_append] using hall

theorem inside_rangeTokens (count : Nat) :
    ∀ token ∈ rangeTokens count, UseReader.inside token = true ∧
      token ≠ .symbol '(' ∧ token ≠ .symbol '.' ∧ token ≠ .symbol '=' := by
  have hzero : UseReader.inside (.word ['0']) = true := by decide
  unfold rangeTokens
  split
  · simp
  · simp [inside_symbol, inside_digits, hzero]

namespace FaultPort

/-- The declaration of a port with its keyword. -/
def declarationTokens (port : FaultPort) (keyword : Text) (count : Nat) (ending : Char) :
    List Token :=
  .word keyword :: (rangeTokens count ++ [.word port.name, .symbol ending])

theorem tokens_declaration (port : FaultPort) {lead blank keyword : Text} {ending : Char}
    (hlead : Lexer.reads lead [.word keyword] = true) (hblank : Lexer.reads blank [] = true)
    (hending : Lexer.reads [ending] [.symbol ending] = true)
    (hbreak : Lexer.breaks ending = true) (hsymbol : Lexer.isSymbol ending = true)
    (count : Nat) (behind : Text) :
    tokens (lead ++ (faultIoBounds count ++ (blank ++ (port.name ++ ending :: '\n' :: behind)))) =
      port.declarationTokens keyword count ending ++ tokens behind := by
  have hname := Spells.word (isIdentifier.isWord port.identifier) (by simpa using hbreak)
    (Spells.literal hending)
  have hall := (Spells.literal hlead).append
    (spells_faultIoBounds count ((Spells.literal hblank).append hname))
  have hcut : lead ++ (faultIoBounds count ++ (blank ++ (port.name ++ [ending]))) =
      (lead ++ (faultIoBounds count ++ (blank ++ port.name))) ++ [ending] := by
    simp only [List.append_assoc]
  rw [hcut] at hall
  have htokens := hall.tokens_line hsymbol [] behind
  have htrail : tokensAfter [] = [] := rfl
  rw [htrail] at htokens
  simpa only [declarationTokens, List.append_assoc, List.cons_append, List.nil_append] using htokens

theorem uses_declarationTokens (port : FaultPort) {bus keyword : Text} {count : Nat} {ending : Char}
    (hkeyword : keyword ∈ keywords) (hdrives : drives (.word keyword) = (ending == ';'))
    (hending : ending ∈ [',', ';']) (rest : List Token) :
    UseReader.start.uses bus (port.declarationTokens keyword count ending ++ rest) =
      UseReader.start.uses bus rest := by
  have hname := inside_word port.not_keyword
  have hinside : ∀ token ∈ rangeTokens count ++ [.word port.name],
      UseReader.inside token = true ∧ token ≠ .symbol '(' ∧ token ≠ .symbol '.' ∧
        token ≠ .symbol '=' := by
    intro token htoken
    rcases List.mem_append.mp htoken with htoken | htoken
    · exact inside_rangeTokens count token htoken
    · rw [List.mem_singleton.mp htoken]
      exact ⟨hname, by simp⟩
  have hcut : port.declarationTokens keyword count ending ++ rest =
      .word keyword :: ((rangeTokens count ++ [.word port.name]) ++ .symbol ending :: rest) := by
    simp [declarationTokens]
  rw [hcut, UseReader.uses_cons, UseReader.emit_keyword _ hkeyword,
    UseReader.step_keyword _ hkeyword, hdrives, UseReader.uses_append]
  simp only [List.mem_cons, List.not_mem_nil, or_false] at hending
  rcases hending with rfl | rfl
  · obtain ⟨huses, words, hread⟩ := @UseReader.read_code bus none _
      (fun token htoken => (hinside token htoken).1)
      (fun token htoken => ⟨(hinside token htoken).2.1, (hinside token htoken).2.2.1⟩) []
    have hcode : (if (',' == ';') = true then Stand.target [] else Stand.code []) = .code [] := rfl
    rw [hcode, huses, hread, uses_comma]
    rfl
  · obtain ⟨huses, hread⟩ := @UseReader.read_target bus none _
      (fun token htoken => (hinside token htoken).1)
      (fun hmem => (hinside _ hmem).2.2.2 rfl) []
    have htarget : (if (';' == ';') = true then Stand.target [] else Stand.code []) =
        .target [] := rfl
    rw [htarget, huses, hread, UseReader.uses_cons, UseReader.step_semicolon]
    rfl

/-- Behind tokens without it a port is declared with the width of its range. -/
theorem declaredWidth?_spelled (port : FaultPort) {keyword text : Text} {front rest : List Token}
    {count : Nat} {ending : Char} (hkeyword : keyword ∈ [port.direction, "wire".toList])
    (hcount : 0 < count) (hfront : .word port.name ∉ front)
    (htext : tokens text = front ++ (port.declarationTokens keyword count ending ++ rest)) :
    port.declaredWidth? text = .some count := by
  have hne : keyword ≠ port.name := by
    have hwire : "wire".toList ∈ keywords := (driving_keyword _ (.head _)).1
    simp only [List.mem_cons, List.not_mem_nil, or_false] at hkeyword
    rcases hkeyword with rfl | rfl
    · exact port.ne_direction port
    · exact port.ne_keyword hwire
  have hcut : port.declarationTokens keyword count ending ++ rest =
      .word keyword :: (rangeTokens count ++ .word port.name :: (.symbol ending :: rest)) := by
    simp [declarationTokens]
  unfold declaredWidth?
  rw [htext, hcut, declaration?_spelled hcount hfront hne port.not_digit]
  exact if_pos hkeyword

theorem not_mem_declarationTokens (port : FaultPort) {keyword : Text} {count : Nat} {ending : Char}
    (hkeyword : keyword ∈ keywords) :
    .word port.name ∉ port.other.declarationTokens keyword count ending := by
  have hrange : .word port.name ∉ rangeTokens count := by
    have hzero : ['0'] ≠ port.name := port.ne_digits (List.all_eq_true.mp (by decide))
    unfold rangeTokens
    split
    · exact List.not_mem_nil
    · simp [Ne.symm hzero, Ne.symm (port.ne_digits (isDigit_of_mem_toDigits (count - 1)))]
  simp [declarationTokens, hrange, Ne.symm (port.ne_keyword hkeyword), Ne.symm port.other_ne]

end FaultPort

/-! ## The header of a child -/

section Headers

variable [UnicodeData]

omit [UnicodeData] in
theorem faultPorts_eq (count : Nat) :
    faultPorts count =
      "\tinput\t\t" ++ (faultIoBounds count ++ ("\t" ++ (FaultPort.inputs.name ++ ',' :: '\n' ::
        ("\toutput\t\t" ++ (faultIoBounds count ++ ("\t" ++ (FaultPort.outputs.name ++
          [',', '\n']))))))) := by
  have htexts : "\tfault_inputs,\n\toutput\t\t".toList = "\t".toList ++ ("fault_inputs".toList ++
        ',' :: '\n' :: "\toutput\t\t".toList) ∧
      "\tfault_outputs,\n".toList = "\t".toList ++ ("fault_outputs".toList ++ [',', '\n']) := by
    decide
  have hnames : FaultPort.inputs.name = "fault_inputs".toList ∧
      FaultPort.outputs.name = "fault_outputs".toList := ⟨rfl, rfl⟩
  unfold faultPorts
  rw [hnames.1, hnames.2, htexts.1, htexts.2]
  simp only [List.append_assoc, List.cons_append]

omit [UnicodeData] in
theorem tokens_faultPorts (count : Nat) (behind : Text) :
    tokens (faultPorts count ++ behind) =
      FaultPort.inputs.declarationTokens "input" count ',' ++
        (FaultPort.outputs.declarationTokens "output" count ',' ++ tokens behind) := by
  have hreads : Lexer.reads "\tinput\t\t".toList [.word "input".toList] = true ∧
      Lexer.reads "\toutput\t\t".toList [.word "output".toList] = true ∧
      Lexer.reads "\t".toList [] = true ∧ Lexer.reads [','] [.symbol ','] = true := by
    decide
  obtain ⟨hinput, houtput, hblank, hcomma⟩ := hreads
  have hsecond := FaultPort.outputs.tokens_declaration houtput hblank hcomma (by decide) (by decide)
    count behind
  have hfirst := FaultPort.inputs.tokens_declaration hinput hblank hcomma (by decide) (by decide)
    count ("\toutput\t\t" ++ (faultIoBounds count ++ ("\t" ++ (FaultPort.outputs.name ++
      ',' :: '\n' :: behind))))
  rw [hsecond] at hfirst
  rw [faultPorts_eq]
  simpa only [List.append_assoc, List.cons_append, List.nil_append] using hfirst

omit [UnicodeData] in
theorem tokens_headerText {type : Text} (htype : isIdentifier type = true) (behind : Text) :
    tokens (headerText type ++ behind) =
      .word "module".toList :: .word type :: .symbol '(' :: tokens behind := by
  have hreads : Lexer.reads "module ".toList [.word "module".toList] = true ∧
      Lexer.reads ['('] [.symbol '('] = true := by
    decide
  have hclose : "(\n".toList = ['(', '\n'] := by decide
  have hall := (Spells.literal hreads.1).append
    (Spells.word (isIdentifier.isWord htype) (by rfl) (Spells.literal hreads.2))
  rw [← List.append_assoc] at hall
  have htokens := hall.tokens_line (by decide) [] behind
  have htrail : tokensAfter [] = [] := rfl
  rw [htrail] at htokens
  unfold headerText
  rw [hclose]
  simpa only [List.append_assoc, List.cons_append, List.nil_append] using htokens

omit [UnicodeData] in
theorem uses_headerTokens {bus type : Text} (htype : isIdentifier type = true) (rest : List Token) :
    UseReader.start.uses bus (.word "module".toList :: .word type :: .symbol '(' :: rest) =
      UseReader.start.uses bus rest := by
  have hkeyword := quiet_keyword "module".toList (.tail _ (.head _))
  have hword : UseReader.step bus ⟨none, .code []⟩ (.word type) = ⟨none, .code [type]⟩ :=
    UseReader.step_code (inside_word (isIdentifier.not_keyword htype)) (by simp)
  have hbracket : UseReader.step bus ⟨none, .code [type]⟩ (.symbol '(') = ⟨none, .code []⟩ := by
    simp [UseReader.step, isKeyword, UseReader.next, Stand.inCode]
  rw [UseReader.uses_cons, UseReader.emit_keyword _ hkeyword.1, UseReader.step_keyword _ hkeyword.1,
    hkeyword.2, UseReader.uses_cons]
  simp only [Bool.false_eq_true, if_false]
  rw [hword, UseReader.uses_cons, hbracket]
  rfl

/-- The header of a child that the rewriting comes upon. -/
structure ChildHeader (type text : Text) : Prop where
  identifier : isIdentifier type = true
  starts : headerText type <+: text
  single : (findall (headerPattern type) text).length = 1

instance (type text : Text) : Decidable (ChildHeader type text) :=
  decidable_of_iff
    (isIdentifier type = true ∧ headerText type <+: text ∧
      (findall (headerPattern type) text).length = 1)
    ⟨fun ⟨h₁, h₂, h₃⟩ => ⟨h₁, h₂, h₃⟩, fun h => ⟨h.identifier, h.starts, h.single⟩⟩

omit [UnicodeData] in
theorem not_isDigit_of_isAlpha {c : Char} (halpha : c.isAlpha = true) : c.isDigit = false := by
  have hcases : (c.isUpper || c.isLower) = true := halpha
  have hbound : 65 ≤ c.toNat := by
    rcases Bool.or_eq_true_iff.mp hcases with hupper | hlower
    · exact UInt32.le_iff_toNat_le.mp (of_decide_eq_true hupper).1
    · have hlow := of_decide_eq_true (Bool.and_eq_true_iff.mp hlower).1
      exact Nat.le_trans (by decide) (UInt32.le_iff_toNat_le.mp hlow)
  have hnine : '9'.toNat = 57 := rfl
  rw [← Bool.not_eq_true, Char.isDigit_iff_toNat]
  omega

theorem ChildHeader.exists_rewritten {type text : Text} (header : ChildHeader type text)
    {moduleText text' : Text} {count : Nat}
    (hrun : rewriteHeader type (newModuleType type moduleText) count none text = .ok text') :
    ∃ behind, text = headerText type ++ behind ∧
      text' = headerText (newModuleType type moduleText) ++ (faultPorts count ++ behind) := by
  obtain ⟨behind, rfl⟩ := header.starts
  have hproductive := headerPattern_productive type
  have hm := matchAt_headerPattern type behind
  have hrest : findall (headerPattern type) behind = [] := by
    have hfound := findall_hit hm (hproductive _ _ (mem_of_matchAt hm))
    have hlength := congrArg List.length hfound
    rw [header.single, List.length_cons] at hlength
    exact List.length_eq_zero_iff.mp (Nat.succ.inj hlength).symm
  have hletter : ∀ c ∈ type.head?, c.isDigit = false := by
    intro c hc
    have hidentifier := header.identifier
    rw [isIdentifier, Bool.and_eq_true, Bool.and_eq_true] at hidentifier
    have hhead := hidentifier.1.1
    rw [Option.mem_def.mp hc, Option.any_some] at hhead
    rw [Bool.or_eq_true, beq_iff_eq] at hhead
    rcases hhead with halpha | rfl
    · exact not_isDigit_of_isAlpha halpha
    · rfl
  refine ⟨behind, rfl, ?_⟩
  rw [rewriteHeader_eq (isName_of_identifier header.identifier) hletter, Except.ok.injEq,
    Header.sub_headerText, sub_of_clear (clear_of_findall hproductive hrest), Header.newHeader_eq]
      at hrun
  rw [← hrun]
  have htexts : "module ".toList = ['m', 'o', 'd', 'u', 'l', 'e'] ++ [' '] ∧
      "(\n".toList = ['(', '\n'] := by
    decide
  unfold headerText
  rw [htexts.1, htexts.2]
  simp only [List.append_assoc, List.cons_append, List.nil_append]

theorem ChildHeader.reads {type text : Text} (header : ChildHeader type text)
    {moduleText text' : Text} {count : Nat} (hcount : 0 < count)
    (hrun : rewriteHeader type (newModuleType type moduleText) count none text = .ok text')
    (port : FaultPort) :
    uses port.name text' = uses port.name text ∧ port.declaredWidth? text' = .some count := by
  obtain ⟨behind, rfl, rfl⟩ := header.exists_rewritten hrun
  obtain ⟨hinput, hinputDrives⟩ : "input".toList ∈ keywords ∧
      drives (.word "input".toList) = (',' == ';') := quiet_keyword _ (by simp)
  obtain ⟨houtput, houtputDrives⟩ : "output".toList ∈ keywords ∧
      drives (.word "output".toList) = (',' == ';') := quiet_keyword _ (by simp)
  have hmodule := (quiet_keyword "module".toList (by simp)).1
  have hnew := isIdentifier_newModuleType header.identifier moduleText
  have htokens := tokens_headerText hnew (faultPorts count ++ behind)
  rw [tokens_faultPorts] at htokens
  constructor
  · rw [uses, uses, htokens, tokens_headerText header.identifier, uses_headerTokens hnew,
      uses_headerTokens header.identifier,
      FaultPort.uses_declarationTokens _ hinput hinputDrives (.head _),
      FaultPort.uses_declarationTokens _ houtput houtputDrives (.head _)]
  · have hne : newModuleType type moduleText ≠ port.name := by
      intro heq
      have hlength := congrArg List.length heq
      have hshort : port.name.length < 64 := by
        cases port <;> decide
      rw [newModuleType, List.length_append, Sha256.length_hexdigest] at hlength
      omega
    have hfront : .word port.name ∉
        [Token.word "module".toList, .word (newModuleType type moduleText), .symbol '('] := by
      simp only [List.mem_cons, Token.word.injEq, reduceCtorEq, List.not_mem_nil, or_false, not_or]
      exact ⟨Ne.symm (port.ne_keyword hmodule), Ne.symm hne⟩
    cases port with
    | inputs =>
        exact FaultPort.inputs.declaredWidth?_spelled (.head _) hcount hfront htokens
    | outputs =>
        have hother : .word FaultPort.outputs.name ∉
            FaultPort.inputs.declarationTokens "input" count ',' :=
          FaultPort.outputs.not_mem_declarationTokens hinput
        have hcut : tokens (headerText (newModuleType type moduleText) ++
            (faultPorts count ++ behind)) =
              ([.word "module".toList, .word (newModuleType type moduleText), .symbol '('] ++
                FaultPort.inputs.declarationTokens "input" count ',') ++
                  (FaultPort.outputs.declarationTokens "output" count ',' ++ tokens behind) := by
          rw [htokens]
          simp only [List.cons_append, List.nil_append]
        exact FaultPort.outputs.declaredWidth?_spelled (.head _) hcount
          (List.not_mem_append hfront hother) hcut

/-! ## The header of the root -/

/-- The instance of the driver. -/
def driverTokens (faultDriver : Text) : List Token :=
  [.word faultDriver, .word "fault_driver", .symbol '(', .symbol '.', .word "original_values",
    .symbol '(', .word "fault_outputs", .symbol ')', .symbol '.', .word "faulty_values",
    .symbol '(', .word "fault_inputs", .symbol ')', .symbol ')']

/-- The header of the root, with nothing of the buses and an item behind it. -/
structure RootHeader (text : Text) (header : Match Char) : Prop where
  plain : '\\' ∉ header.taken
  begun : settled (tokens (beforeMatch text header ++ header.taken)) = true
  clean : Portless (tokens (beforeMatch text header ++ header.taken))
  opens : UseReader.opens (tokens header.rest) = true

instance (text : Text) (header : Match Char) : Decidable (RootHeader text header) :=
  decidable_of_iff
    ('\\' ∉ header.taken ∧ settled (tokens (beforeMatch text header ++ header.taken)) = true ∧
      Portless (tokens (beforeMatch text header ++ header.taken)) ∧
      UseReader.opens (tokens header.rest) = true)
    ⟨fun ⟨h₁, h₂, h₃, h₄⟩ => ⟨h₁, h₂, h₃, h₄⟩, fun h => ⟨h.plain, h.begun, h.clean, h.opens⟩⟩

theorem exists_newline {text : Text} {header : Match Char}
    (hm : matchAt rootHeaderPattern text = .some header) : ∃ front, header.taken = front ++ ['\n'] := by
  have hclose : ");\n".toList = [')', ';'] ++ ['\n'] := by decide
  have hreading := mem_of_matchAt hm
  rw [rootHeaderPattern, chain, chain, chain, chain, chain] at hreading
  obtain ⟨m₁, -, m₂, hm₂, rfl⟩ := mem_readings_seq.mp hreading
  obtain ⟨m₃, -, m₄, hm₄, rfl⟩ := mem_readings_seq.mp hm₂
  obtain ⟨m₅, -, m₆, hm₆, rfl⟩ := mem_readings_seq.mp hm₄
  obtain ⟨m₇, -, m₈, hm₈, rfl⟩ := mem_readings_seq.mp hm₆
  obtain ⟨rest, -, rfl⟩ := mem_readings_word.mp hm₈
  refine ⟨m₁.taken ++ (m₃.taken ++ (m₅.taken ++ (m₇.taken ++ [')', ';']))), ?_⟩
  simp only [Match.after, hclose, List.append_assoc]

omit [UnicodeData] in
theorem driverInstance_eq (faultDriver : Text) (count : Nat) :
    driverInstance faultDriver count =
      "\twire " ++ (faultIoBounds count ++ (" " ++ (FaultPort.inputs.name ++ ';' :: '\n' ::
        ("\twire " ++ (faultIoBounds count ++ (" " ++ (FaultPort.outputs.name ++ ';' :: '\n' ::
          ("\t" ++ (faultDriver ++ (" fault_driver (" ++ '\n' ::
            ("\t\t.original_values(fault_outputs)" ++ '\n' ::
              ("\t\t.faulty_values(fault_inputs)" ++ '\n' :: (")" ++ ['\n']))))))))))))) := by
  have htexts : " fault_inputs;\n\twire ".toList = " ".toList ++ ("fault_inputs".toList ++
        ';' :: '\n' :: "\twire ".toList) ∧
      " fault_outputs;\n\t".toList = " ".toList ++ ("fault_outputs".toList ++
        ';' :: '\n' :: "\t".toList) ∧
      " fault_driver (\n\t\t.original_values(fault_outputs)\n".toList = " fault_driver (".toList ++
        '\n' :: ("\t\t.original_values(fault_outputs)".toList ++ ['\n']) ∧
      "\t\t.faulty_values(fault_inputs)\n)\n".toList = "\t\t.faulty_values(fault_inputs)".toList ++
        '\n' :: (")".toList ++ ['\n']) := by
    decide
  have hnames : FaultPort.inputs.name = "fault_inputs".toList ∧
      FaultPort.outputs.name = "fault_outputs".toList := ⟨rfl, rfl⟩
  unfold driverInstance
  rw [hnames.1, hnames.2]
  simp only [htexts, List.append_assoc, List.cons_append, List.nil_append]

omit [UnicodeData] in
theorem tokens_driverInstance {faultDriver : Text} (hdriver : isIdentifier faultDriver = true)
    (count : Nat) (behind : Text) :
    tokens (driverInstance faultDriver count ++ behind) =
      FaultPort.inputs.declarationTokens "wire" count ';' ++
        (FaultPort.outputs.declarationTokens "wire" count ';' ++
          (driverTokens faultDriver ++ tokens behind)) := by
  have hreads : Lexer.reads "\twire ".toList [.word "wire".toList] = true ∧
      Lexer.reads " ".toList [] = true ∧ Lexer.reads "\t".toList [] = true ∧
      Lexer.reads " fault_driver (".toList [.word "fault_driver".toList, .symbol '('] = true := by
    decide
  obtain ⟨hwire, hblank, hindent, hinstance⟩ := hreads
  have hports : tokens "\t\t.original_values(fault_outputs)".toList =
        [.symbol '.', .word "original_values".toList, .symbol '(', .word "fault_outputs".toList,
          .symbol ')'] ∧
      tokens "\t\t.faulty_values(fault_inputs)".toList =
        [.symbol '.', .word "faulty_values".toList, .symbol '(', .word "fault_inputs".toList,
          .symbol ')'] ∧ tokens ")".toList = [.symbol ')'] := by
    decide
  have hheading := ((Spells.literal hindent).append (Spells.word (isIdentifier.isWord hdriver)
    (by rfl) (Spells.literal hinstance))).tokens_eq
  have hthird : ∀ after, tokens ("\t" ++ (faultDriver ++ (" fault_driver (" ++ '\n' ::
      ("\t\t.original_values(fault_outputs)" ++ '\n' :: ("\t\t.faulty_values(fault_inputs)" ++
        '\n' :: (")" ++ '\n' :: after)))))) = driverTokens faultDriver ++ tokens after := by
    intro after
    have hcut : "\t".toList ++ (faultDriver ++ (" fault_driver (".toList ++ '\n' ::
        ("\t\t.original_values(fault_outputs)".toList ++ '\n' ::
          ("\t\t.faulty_values(fault_inputs)".toList ++ '\n' :: (")".toList ++ '\n' :: after))))) =
        ("\t".toList ++ (faultDriver ++ " fault_driver (".toList)) ++ '\n' ::
          ("\t\t.original_values(fault_outputs)".toList ++ '\n' ::
            ("\t\t.faulty_values(fault_inputs)".toList ++ '\n' ::
              (")".toList ++ '\n' :: after))) := by
      simp only [List.append_assoc]
    rw [hcut, tokens_append_newline, tokens_append_newline, tokens_append_newline,
      tokens_append_newline, hheading, hports.1, hports.2.1, hports.2.2]
    rfl
  have hsecond := FaultPort.outputs.tokens_declaration hwire hblank reads_semicolon (by decide)
    (by decide) count ("\t" ++ (faultDriver ++ (" fault_driver (" ++ '\n' ::
      ("\t\t.original_values(fault_outputs)" ++ '\n' :: ("\t\t.faulty_values(fault_inputs)" ++
        '\n' :: (")" ++ '\n' :: behind))))))
  rw [hthird] at hsecond
  have hfirst := FaultPort.inputs.tokens_declaration hwire hblank reads_semicolon (by decide)
    (by decide) count ("\twire " ++ (faultIoBounds count ++ (" " ++ (FaultPort.outputs.name ++
      ';' :: '\n' :: ("\t" ++ (faultDriver ++ (" fault_driver (" ++ '\n' ::
        ("\t\t.original_values(fault_outputs)" ++ '\n' :: ("\t\t.faulty_values(fault_inputs)" ++
          '\n' :: (")" ++ '\n' :: behind))))))))))
  rw [hsecond] at hfirst
  rw [driverInstance_eq]
  simpa only [List.append_assoc, List.cons_append, List.nil_append] using hfirst

omit [UnicodeData] in
/-- The instance of the driver connects no bus to a port of its name. -/
theorem uses_driverTokens {faultDriver : Text} (hdriver : isIdentifier faultDriver = true)
    (port : FaultPort) {rest : List Token} (hopens : UseReader.opens rest = true) :
    UseReader.start.uses port.name (driverTokens faultDriver ++ rest) =
      UseReader.start.uses port.name rest := by
  have hname : "fault_driver".toList ∉ keywords := by decide
  have hports : ∀ heading, UseReader.uses port.name ⟨heading, .code []⟩
      ((driverTokens faultDriver).drop 3) = [] ∧
        UseReader.read port.name ⟨heading, .code []⟩ ((driverTokens faultDriver).drop 3) =
          ⟨heading, .code []⟩ := by
    intro heading
    cases port <;> exact ⟨rfl, rfl⟩
  have hcut : driverTokens faultDriver ++ rest = .word faultDriver :: .word "fault_driver".toList ::
      .symbol '(' :: ((driverTokens faultDriver).drop 3 ++ rest) := rfl
  obtain ⟨huses, hread⟩ := hports (some (faultDriver, "fault_driver"))
  have hheading := @UseReader.uses_heading port.name none [] _ _
    (isIdentifier.not_keyword hdriver) hname ((driverTokens faultDriver).drop 3 ++ rest)
  rw [hcut]
  refine hheading.trans ?_
  rw [UseReader.uses_append, huses, hread]
  exact UseReader.uses_of_opens hopens _ _ _ _

/-- The header of the root is found in one place. -/
structure RootFound (faultDriver text : Text) : Prop where
  identifier : isIdentifier faultDriver = true
  single : (findall rootHeaderPattern text).length = 1
  header : ∀ header ∈ findall rootHeaderPattern text, RootHeader text header

instance (faultDriver text : Text) : Decidable (RootFound faultDriver text) :=
  decidable_of_iff
    (isIdentifier faultDriver = true ∧ (findall rootHeaderPattern text).length = 1 ∧
      ∀ header ∈ findall rootHeaderPattern text, RootHeader text header)
    ⟨fun ⟨h₁, h₂, h₃⟩ => ⟨h₁, h₂, h₃⟩, fun h => ⟨h.identifier, h.single, h.header⟩⟩

theorem backslash_not_mem_driverInstance {faultDriver : Text} (hname : IsName faultDriver)
    (count : Nat) : '\\' ∉ driverInstance faultDriver count := by
  have hliterals : '\\' ∉ "\twire ".toList ∧ '\\' ∉ " fault_inputs;\n\twire ".toList ∧
      '\\' ∉ " fault_outputs;\n\t".toList ∧
      '\\' ∉ " fault_driver (\n\t\t.original_values(fault_outputs)\n".toList ∧
      '\\' ∉ "\t\t.faulty_values(fault_inputs)\n)\n".toList := by
    decide
  have hbounds := backslash_not_mem_faultIoBounds count
  unfold driverInstance
  simp only [List.mem_append, not_or]
  exact ⟨⟨⟨⟨⟨⟨⟨hliterals.1, hbounds⟩, hliterals.2.1⟩, hbounds⟩, hliterals.2.2.1⟩,
    backslash_not_mem hname⟩, hliterals.2.2.2.1⟩, hliterals.2.2.2.2⟩

theorem rootHeaderPattern_productive : Productive rootHeaderPattern := productive_of_not_nullable rfl

theorem RootFound.exists_rewritten {faultDriver text : Text} (found : RootFound faultDriver text)
    {type newType text' : Text} {count : Nat}
    (hrun : rewriteHeader type newType count (some faultDriver) text = .ok text') :
    ∃ front behind, text = front ++ '\n' :: behind ∧
      text' = front ++ '\n' :: (driverInstance faultDriver count ++ behind) ∧
      settled (tokens front) = true ∧ Portless (tokens front) ∧
      UseReader.opens (tokens behind) = true := by
  obtain ⟨header, hfound⟩ := List.length_eq_one_iff.mp found.single
  obtain ⟨before, following, rfl, hclear, hm⟩ :=
    first_of_findall rootHeaderPattern_productive hfound
  obtain ⟨last, hlast⟩ := exists_newline hm
  have hmem := mem_of_matchAt hm
  have hcut := taken_append_rest hmem
  have hheader : header ∈ findall rootHeaderPattern (before ++ following) := by
    rw [hfound]
    exact .head _
  obtain ⟨hplain, hbegun, hclean, hopens⟩ := found.header header hheader
  have hbefore : beforeMatch (before ++ following) header = before := by
    rw [← hcut]
    exact beforeMatch_append before header
  have hempty : tokens ['\n'] = [] := rfl
  have htokens : tokens (before ++ header.taken) = tokens (before ++ last) := by
    rw [hlast, ← List.append_assoc, tokens_append_newline]
    exact List.append_nil _
  rw [hbefore, htokens] at hbegun hclean
  refine ⟨before ++ last, header.rest, ?_, ?_, hbegun, hclean, hopens⟩
  · rw [← hcut, hlast]
    simp only [List.append_assoc, List.cons_append, List.nil_append]
  · have hslash : '\\' ∉ header.taken ++ driverInstance faultDriver count := by
      have hdriver := backslash_not_mem_driverInstance
        (isName_of_identifier found.identifier) count
      exact List.not_mem_append hplain hdriver
    have hrest : findall rootHeaderPattern header.rest = [] := by
      rw [hclear.findall, findall_hit hm (rootHeaderPattern_productive _ _ hmem),
        List.cons.injEq] at hfound
      exact hfound.2
    rw [rewriteHeader, hfound] at hrun
    simp only [Template.resub_of_plain hslash, Except.ok.injEq] at hrun
    rw [hclear.sub, sub_hit hm (rootHeaderPattern_productive _ _ hmem),
      sub_of_clear (clear_of_findall rootHeaderPattern_productive hrest)] at hrun
    rw [← hrun, hlast]
    simp only [List.append_assoc, List.cons_append, List.nil_append]

/-- The rewritten root declares the buses, connects them to its driver and uses no bus more. -/
theorem RootFound.reads {faultDriver text : Text} (found : RootFound faultDriver text)
    {type newType text' : Text} {count : Nat} (hcount : 0 < count)
    (hrun : rewriteHeader type newType count (some faultDriver) text = .ok text') :
    driverTokens faultDriver <:+: tokens text' ∧ ∀ port : FaultPort,
      uses port.name text' = uses port.name text ∧ port.declaredWidth? text' = .some count := by
  obtain ⟨front, behind, rfl, rfl, hbegun, hclean, hopens⟩ := found.exists_rewritten hrun
  have hwire : "wire".toList ∈ keywords ∧ drives (.word "wire".toList) = (';' == ';') :=
    driving_keyword _ (.head _)
  have htokens : tokens (front ++ '\n' :: (driverInstance faultDriver count ++ behind)) =
      tokens front ++ (FaultPort.inputs.declarationTokens "wire" count ';' ++
        (FaultPort.outputs.declarationTokens "wire" count ';' ++
          (driverTokens faultDriver ++ tokens behind))) := by
    rw [tokens_append_newline, tokens_driverInstance found.identifier]
  refine ⟨?_, fun port => ⟨?_, ?_⟩⟩
  · refine ⟨tokens front ++ (FaultPort.inputs.declarationTokens "wire" count ';' ++
      FaultPort.outputs.declarationTokens "wire" count ';'), tokens behind, ?_⟩
    rw [htokens]
    simp only [List.append_assoc]
  · have hfront : ∀ rest, UseReader.start.uses port.name (tokens front ++ rest) =
        UseReader.start.uses port.name (tokens front) ++ UseReader.start.uses port.name rest := by
      intro rest
      rw [UseReader.uses_append, read_settled hbegun]
    rw [uses, uses, htokens, tokens_append_newline, hfront, hfront,
      FaultPort.uses_declarationTokens _ hwire.1 hwire.2 (by decide),
      FaultPort.uses_declarationTokens _ hwire.1 hwire.2 (by decide),
      uses_driverTokens found.identifier port hopens]
  · cases port with
    | inputs =>
        exact FaultPort.inputs.declaredWidth?_spelled (by simp) hcount (hclean .inputs) htokens
    | outputs =>
        have hother : .word FaultPort.outputs.name ∉
            FaultPort.inputs.declarationTokens "wire" count ';' :=
          FaultPort.outputs.not_mem_declarationTokens hwire.1
        rw [← List.append_assoc] at htokens
        exact FaultPort.outputs.declaredWidth?_spelled (by simp) hcount
          (List.not_mem_append (hclean .outputs) hother) htokens

end Headers

end FaultInjection
