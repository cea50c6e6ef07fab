import FaultInjection.Plumbing.Taps
import FaultInjection.Traversal.Rewiring

/-!
# Connections of the children

What the rewiring of a child adds to the uses of the fault buses in the text of its
parent: each bus is connected to the port of its name, in the instance of the child.
-/

namespace FaultInjection

open Regex Regex.Pattern Text Verilog

namespace FaultPort

/-- The line that connects the port of a child. -/
def line (port : FaultPort) (indices : List Nat) : Text :=
  "\t\t." ++ (port.name ++ ('(' :: (faultParams port.name indices ++ [')', ',', '\n'])))

/-- The line as it is read. -/
def lineTokens (port : FaultPort) (indices : List Nat) : List Token :=
  .symbol '.' :: .word port.name :: .symbol '(' ::
    (port.connected indices ++ [.symbol ')', .symbol ','])

theorem tokens_line (port : FaultPort) (indices : List Nat) (behind : Text) :
    tokens (port.line indices ++ behind) = port.lineTokens indices ++ tokens behind := by
  have hreads : Lexer.reads "\t\t.".toList [.symbol '.'] = true ∧
      Lexer.reads ['('] [.symbol '('] = true ∧
      Lexer.reads [')', ','] [.symbol ')', .symbol ','] = true := by
    decide
  obtain ⟨hlead, hopen, hclose⟩ := hreads
  have hparams := port.spells_connected indices (by rfl) (Spells.literal hclose)
  have hname := Spells.word (isIdentifier.isWord port.identifier) (by rfl)
    ((Spells.literal hopen).append hparams)
  have hall := (Spells.literal hlead).append hname
  have hcut : "\t\t.".toList ++ (port.name ++ (['('] ++ (faultParams port.name indices ++
      [')', ',']))) = ("\t\t.".toList ++ (port.name ++ (['('] ++
        (faultParams port.name indices ++ [')'])))) ++ [','] := by
    simp only [List.append_assoc, List.cons_append, List.nil_append]
  rw [hcut] at hall
  have htokens := hall.tokens_line (by decide) [] behind
  have htrail : tokensAfter [] = [] := rfl
  rw [htrail] at htokens
  simpa only [line, lineTokens, List.append_assoc, List.cons_append, List.nil_append] using htokens

end FaultPort

theorem portLines_eq (indices : List Nat) :
    portLines indices = FaultPort.inputs.line indices ++ FaultPort.outputs.line indices := by
  have htexts : ".fault_inputs(".toList = '.' :: ("fault_inputs".toList ++ ['(']) ∧
      ".fault_outputs(".toList = '.' :: ("fault_outputs".toList ++ ['(']) ∧
      ",\n\t\t".toList = ',' :: '\n' :: "\t\t".toList ∧ ",\n".toList = [',', '\n'] ∧
      ")".toList = [')'] ∧ "\t\t.".toList = "\t\t".toList ++ ['.'] := by
    decide
  have hnames : FaultPort.inputs.name = "fault_inputs".toList ∧
      FaultPort.outputs.name = "fault_outputs".toList := ⟨rfl, rfl⟩
  unfold portLines faultInputString faultOutputString FaultPort.line
  rw [hnames.1, hnames.2]
  simp only [htexts, List.append_assoc, List.cons_append, List.nil_append]

section Reading

theorem inside_connected (port : FaultPort) (indices : List Nat) :
    ∀ token ∈ port.connected indices, UseReader.inside token = true := by
  intro token htoken
  rcases FaultPort.mem_connected htoken with rfl | ⟨n, rfl⟩ | ⟨c, hc, rfl⟩
  · exact inside_word port.not_keyword
  · exact inside_digits n
  · apply inside_symbol
    rintro rfl
    exact absurd hc (by decide)

theorem symbol_not_mem_connected (port : FaultPort) (indices : List Nat) {c : Char}
    (hc : c ∉ ['\x7b', '\x7d', '[', ']', ',']) : .symbol c ∉ port.connected indices := by
  intro hmem
  rcases FaultPort.mem_connected hmem with heq | ⟨n, heq⟩ | ⟨d, hd, heq⟩
  · cases heq
  · cases heq
  · exact hc ((Token.symbol.inj heq) ▸ hd)

theorem uses_comma {bus : Text} (heading : Option (Text × Text)) (words : List Text)
    (rest : List Token) :
    UseReader.uses bus ⟨heading, .code words⟩ (.symbol ',' :: rest) =
      UseReader.uses bus ⟨heading, .code []⟩ rest := by
  rw [UseReader.uses_cons, UseReader.step_code (by rfl) (by simp)]
  rfl

theorem uses_lineTokens (port : FaultPort) (heading : Option (Text × Text)) (words : List Text)
    (indices : List Nat) (rest : List Token) :
    UseReader.uses port.name ⟨heading, .code words⟩ (port.lineTokens indices ++ rest) =
      ⟨.port heading, connectedParts indices⟩ ::
        UseReader.uses port.name ⟨heading, .code []⟩ rest := by
  have hcut : port.lineTokens indices ++ rest = .symbol '.' :: .word port.name :: .symbol '(' ::
      (port.connected indices ++ .symbol ')' :: .symbol ',' :: rest) := by
    simp [FaultPort.lineTokens]
  rw [hcut, UseReader.uses_port port.not_keyword (inside_connected port indices)
    (symbol_not_mem_connected port indices (by decide)), port.parts?_connected, uses_comma]
  rfl

theorem uses_other_lineTokens (port : FaultPort) (heading : Option (Text × Text))
    (words : List Text) (indices : List Nat) (rest : List Token) :
    UseReader.uses port.name ⟨heading, .code words⟩ (port.other.lineTokens indices ++ rest) =
      UseReader.uses port.name ⟨heading, .code []⟩ rest := by
  have hsymbols : ∀ token ∈ port.other.connected indices,
      token ≠ .symbol '(' ∧ token ≠ .symbol '.' := by
    intro token htoken
    constructor
    · rintro rfl
      exact symbol_not_mem_connected port.other indices (by decide) htoken
    · rintro rfl
      exact symbol_not_mem_connected port.other indices (by decide) htoken
  have hcut : port.other.lineTokens indices ++ rest = .symbol '.' :: .word port.other.name ::
      .symbol '(' :: (port.other.connected indices ++ .symbol ')' :: .symbol ',' :: rest) := by
    simp [FaultPort.lineTokens]
  rw [hcut, UseReader.uses_other_port port.other.not_keyword port.other_ne
    (inside_connected port.other indices) hsymbols, uses_comma]

theorem uses_portLines (port : FaultPort) (heading : Option (Text × Text)) (words : List Text)
    (indices : List Nat) (behind : Text) :
    UseReader.uses port.name ⟨heading, .code words⟩ (tokens (portLines indices ++ behind)) =
      ⟨.port heading, connectedParts indices⟩ ::
        UseReader.uses port.name ⟨heading, .code []⟩ (tokens behind) := by
  rw [portLines_eq, List.append_assoc, FaultPort.tokens_line, FaultPort.tokens_line]
  cases port with
  | inputs =>
      rw [uses_lineTokens FaultPort.inputs]
      exact congrArg _ (uses_other_lineTokens FaultPort.inputs heading [] indices (tokens behind))
  | outputs =>
      have hother := uses_other_lineTokens FaultPort.outputs heading words indices
        (FaultPort.outputs.lineTokens indices ++ tokens behind)
      exact hother.trans (uses_lineTokens FaultPort.outputs heading [] indices (tokens behind))

end Reading

/-- Behind these tokens an item begins. -/
def settled (tokens : List Token) : Bool :=
  match tokens.getLast? with
  | none => true
  | .some token => token == .symbol ';' || (isKeyword token && !drives token)

theorem read_settled {bus : Text} {tokens : List Token} (hsettled : settled tokens = true) :
    UseReader.start.read bus tokens = UseReader.start := by
  unfold settled at hsettled
  split at hsettled
  · rename_i hnil
    rw [List.getLast?_eq_none_iff] at hnil
    rw [hnil]
    rfl
  · rename_i token hlast
    obtain ⟨front, rfl⟩ := List.getLast?_eq_some_iff.mp hlast
    rw [Bool.or_eq_true, Bool.and_eq_true, beq_iff_eq, Bool.not_eq_true'] at hsettled
    rw [UseReader.read_append]
    rcases hsettled with rfl | ⟨hkeyword, hdrives⟩
    · exact @UseReader.step_semicolon bus (UseReader.start.read bus front)
    · cases token with
      | word text =>
          have hmem : text ∈ keywords := List.contains_iff_mem.mp hkeyword
          refine (UseReader.step_keyword _ hmem).trans ?_
          rw [hdrives]
          rfl
      | symbol c => cases hkeyword
      | quoted => cases hkeyword

section Connectable

variable [UnicodeData]

/-- The text in front of a match. -/
def beforeMatch (text : Text) (found : Match Char) : Text :=
  text.take (text.length - (found.taken ++ found.rest).length)

omit [UnicodeData] in
theorem beforeMatch_append (before : Text) (found : Match Char) :
    beforeMatch (before ++ (found.taken ++ found.rest)) found = before := by
  rw [beforeMatch, List.length_append, Nat.add_sub_cancel, List.take_left]

/-- What the searches for a child come upon: its instance on a line of code, the only one with
its name, and the same line as the first with the name and a bracket.  Behind the bracket the
line holds nothing but blanks or a comment, and no port of the instance is a fault port. -/
structure InstanceFound (text name : Text) (found declared : Match Char) : Prop where
  copied : found.taken.dropWhile (· != ' ') = ' ' :: declared.taken
  plain : '\\' ∉ declared.taken
  typed : isIdentifier (found.taken.takeWhile (· != ' ')) = true
  ready : (Lexer.start.read (beforeMatch text found)).Ready
  begun : settled (Lexer.start.read (beforeMatch text found)).tokens.reverse = true
  bare : tokensAfter (declared.taken.drop (name.length + 2)).dropLast = []
  silent : Portless ((tokens found.rest).takeWhile (· != .symbol ';'))

instance (text name : Text) (found declared : Match Char) :
    Decidable (InstanceFound text name found declared) :=
  decidable_of_iff
    (found.taken.dropWhile (· != ' ') = ' ' :: declared.taken ∧ '\\' ∉ declared.taken ∧
      isIdentifier (found.taken.takeWhile (· != ' ')) = true ∧
      (Lexer.start.read (beforeMatch text found)).Ready ∧
      settled (Lexer.start.read (beforeMatch text found)).tokens.reverse = true ∧
      tokensAfter (declared.taken.drop (name.length + 2)).dropLast = [] ∧
      Portless ((tokens found.rest).takeWhile (· != .symbol ';')))
    ⟨fun ⟨h₁, h₂, h₃, h₄, h₅, h₆, h₇⟩ => ⟨h₁, h₂, h₃, h₄, h₅, h₆, h₇⟩,
      fun h => ⟨h.copied, h.plain, h.typed, h.ready, h.begun, h.bare, h.silent⟩⟩

/-- A child is rewired on its own line. -/
structure Connectable (heap : Heap) (ref : Nat) (text name : Text) : Prop where
  named : isIdentifier name = true
  retyped : ∀ child ∈ heap.childNamed? ref name, isIdentifier (heap.moduleOf child).type = true
  single : (findall (childInstancePattern name) text).length = 1
  found : ∀ found ∈ findall (childInstancePattern name) text,
    ∀ declared ∈ (findall (childDeclarationPattern name) text).head?,
      InstanceFound text name found declared

instance (heap : Heap) (ref : Nat) (text name : Text) : Decidable (Connectable heap ref text name) :=
  decidable_of_iff
    (isIdentifier name = true ∧
      (∀ child ∈ heap.childNamed? ref name, isIdentifier (heap.moduleOf child).type = true) ∧
      (findall (childInstancePattern name) text).length = 1 ∧
      ∀ found ∈ findall (childInstancePattern name) text,
        ∀ declared ∈ (findall (childDeclarationPattern name) text).head?,
          InstanceFound text name found declared)
    ⟨fun ⟨h₁, h₂, h₃, h₄⟩ => ⟨h₁, h₂, h₃, h₄⟩, fun h => ⟨h.named, h.retyped, h.single, h.found⟩⟩

/-- The type of an instance is what stands in front of the first blank. -/
theorem taken_instanced {type : Text} (hword : ∀ c ∈ type, isWord c = true)
    (name line behind : Text) :
    (instanced type name line behind).taken.dropWhile (· != ' ') =
        ' ' :: (name ++ ' ' :: '(' :: (line ++ ['\n'])) ∧
      (instanced type name line behind).taken.takeWhile (· != ' ') = type := by
  have hletters : ∀ c ∈ type, (c != ' ') = true := by
    intro c hc
    rw [bne_iff_ne]
    rintro rfl
    have hblank := hword ' ' hc
    rw [isWord_blank] at hblank
    cases hblank
  constructor
  · rw [instanced, List.dropWhile_append_of_pos hletters, List.dropWhile_cons_of_neg (by simp)]
  · rw [instanced, List.takeWhile_append_of_pos hletters, List.takeWhile_cons_of_neg (by simp),
      List.append_nil]

omit [UnicodeData] in
theorem parse_plain {text : Text} (hplain : '\\' ∉ text) :
    Template.parse 0 text = .ok (text.map .literal) := by
  rw [Template.parse, if_neg hplain]

theorem exists_child_of_rewireChild {heap : Heap} {ref : Nat} {text text' name : Text}
    {indices : List Nat} (hrun : rewireChild heap ref text (name, indices) = .ok text') :
    ∃ child, heap.childNamed? ref name = .some child := by
  cases hchild : heap.childNamed? ref name with
  | none =>
      rw [rewireChild, hchild] at hrun
      cases hrun
  | some child => exact ⟨child, rfl⟩

namespace Connectable

variable {heap : Heap} {ref : Nat} {text name : Text}

theorem exists_rewired (connectable : Connectable heap ref text name) {indices : List Nat} {text' : Text}
    (hrun : rewireChild heap ref text (name, indices) = .ok text') :
    ∃ child before type line behind, heap.childNamed? ref name = .some child ∧
      text = before ++ (type ++ ' ' :: (name ++ ' ' :: '(' :: (line ++ '\n' :: behind))) ∧
      text' = before ++ ((heap.moduleOf child).type ++ ' ' :: (name ++ ' ' :: '(' :: (line ++
        '\n' :: (portLines indices ++ behind)))) ∧
      isIdentifier type = true ∧ (Lexer.start.read before).Ready ∧
      settled (Lexer.start.read before).tokens.reverse = true ∧ tokensAfter line = [] ∧
      Portless ((tokens behind).takeWhile (· != .symbol ';')) := by
  have hname := isName_of_identifier connectable.named
  obtain ⟨child, hchild⟩ := exists_child_of_rewireChild hrun
  have hnew := isName_of_identifier (connectable.retyped child hchild)
  obtain ⟨m, hplaces⟩ := List.length_eq_one_iff.mp connectable.single
  obtain ⟨before, following, rfl, hclear, hm⟩ :=
    first_of_findall (childInstancePattern_productive name) hplaces
  obtain ⟨type, rest, line, behind, rfl, hne, hword, declares, rfl⟩ := exists_of_matchAt_instance hm
  obtain ⟨rfl, hline⟩ := declares
  have htype : IsName type := ⟨hne, hword⟩
  obtain ⟨hbefore, hbehind⟩ := (findall_instance_iff htype hline).mp hplaces
  have hat : NamedAt name (before ++ (type ++ ' ' :: (name ++ ' ' :: '(' :: (line ++
      '\n' :: behind)))) (before ++ (type ++ [' '])) := by
    refine ⟨line ++ '\n' :: behind, ?_, List.mem_append_right _ (.head _)⟩
    simp only [List.append_assoc, List.cons_append, List.nil_append]
  obtain ⟨first, behind', others, hfirst⟩ := exists_firstDeclared hname hat
  -- what the condition says of the two matches
  have hmem : instanced type name line behind ∈ findall (childInstancePattern name)
      (before ++ (type ++ ' ' :: (name ++ ' ' :: '(' :: (line ++ '\n' :: behind)))) := by
    rw [hplaces]
    exact .head _
  obtain ⟨hcopied, hplain, htyped, hready, hbegun, hbare, hsilent⟩ :=
    connectable.found _ hmem (declaredLine name first behind') (by rw [hfirst]; rfl)
  have hcut : beforeMatch (before ++ (type ++ ' ' :: (name ++ ' ' :: '(' :: (line ++
      '\n' :: behind)))) (instanced type name line behind) = before := by
    have happend := beforeMatch_append before (instanced type name line behind)
    simpa only [instanced, List.append_assoc, List.cons_append, List.nil_append] using happend
  obtain ⟨hdrop, htake⟩ := taken_instanced hword name line behind
  obtain rfl : line = first := by
    rw [hdrop, declaredLine, List.cons.injEq, List.append_cancel_left_eq, List.cons.injEq,
      List.cons.injEq, List.append_cancel_right_eq] at hcopied
    exact hcopied.2.2.2
  rw [htake] at htyped
  rw [hcut] at hready hbegun
  have hbareLine : tokensAfter line = [] := by
    have hdropped : (name ++ ' ' :: '(' :: (line ++ ['\n'])).drop (name.length + 2) =
        line ++ ['\n'] := by
      rw [List.drop_append]
      simp
    rwa [declaredLine, hdropped, List.dropLast_concat] at hbare
  refine ⟨child, before, type, line, behind, hchild, rfl, ?_, htyped, hready, hbegun, hbareLine,
    hsilent⟩
  have hparse := parse_plain fun hslash : '\\' ∈ line ++ ['\n'] =>
    hplain (List.mem_append_right _ (.tail _ (.tail _ hslash)))
  rw [rewireChild_eq hname hchild hnew hfirst, hparse, Except.map, Except.ok.injEq,
    sub_instance htype hline hbefore hbehind] at hrun
  rw [← hrun, Template.expand_literal]
  simp only [List.append_assoc, List.cons_append, List.nil_append]

theorem uses_rewireChild (connectable : Connectable heap ref text name) {indices : List Nat}
    {text' : Text} (hrun : rewireChild heap ref text (name, indices) = .ok text')
    (port : FaultPort) :
    ∃ child front back, heap.childNamed? ref name = .some child ∧
      uses port.name text = front ++ back ∧
      uses port.name text' = front ++
        ⟨.port (some ((heap.moduleOf child).type, name)), connectedParts indices⟩ :: back := by
  obtain ⟨child, before, type, line, behind, hchild, rfl, rfl, htype, ready, hbegun, hbare,
    hsilent⟩ := connectable.exists_rewired hrun
  have hnew := connectable.retyped child hchild
  have hbracket : Lexer.reads [' ', '('] [.symbol '('] = true ∧ Lexer.reads [' '] [] = true := by
    decide
  -- the heading of the instance, with the rest of its line
  have hheading : ∀ {type : Text}, isIdentifier type = true → ∀ after,
      UseReader.start.uses port.name (tokens (before ++ (type ++ ' ' :: (name ++ ' ' :: '(' ::
        (line ++ '\n' :: after))))) =
          UseReader.start.uses port.name (Lexer.start.read before).tokens.reverse ++
            UseReader.uses port.name ⟨some (type, name), .code []⟩ (tokens after) := by
    intro type htype after
    have hspells := Spells.word (isIdentifier.isWord htype) (by rfl)
      ((Spells.literal hbracket.2).append (Spells.word (isIdentifier.isWord connectable.named)
        (by rfl) (Spells.literal hbracket.1)))
    have hcut : type ++ ([' '] ++ (name ++ [' ', '('])) = (type ++ ' ' :: (name ++ [' '])) ++ ['('] := by
      simp only [List.append_assoc, List.cons_append, List.nil_append]
    rw [hcut] at hspells
    have htokens := tokens_line ready hspells (by decide) line after
    have hread := @UseReader.uses_heading port.name none [] _ _ (isIdentifier.not_keyword htype)
      (isIdentifier.not_keyword connectable.named) (tokens after)
    rw [hbare] at htokens
    simp only [List.append_assoc, List.cons_append, List.nil_append] at htokens
    rw [htokens, UseReader.uses_append, read_settled hbegun]
    exact congrArg (_ ++ ·) hread
  refine ⟨child, UseReader.start.uses port.name (Lexer.start.read before).tokens.reverse,
    UseReader.uses port.name ⟨some (type, name), .code []⟩ (tokens behind), hchild,
    hheading htype behind, ?_⟩
  rw [uses, hheading hnew, uses_portLines]
  refine congrArg (fun back => _ ++ (_ :: back)) ?_
  apply UseReader.uses_congr
  · exact UseReader.quiet_code _ _
  · exact UseReader.quiet_code _ _
  · rfl
  · exact hsilent port

end Connectable

end Connectable

end FaultInjection
