import FaultInjection.Emission.Layout
import FaultInjection.Emission.Repeated

/-!
# A wire of one bit

The call for a wire of one bit that a module drives in one statement.  The statement gives
way to three equations, and the rest of the text stays as it is, unless a string reads like
a driving statement of the wire.
-/

namespace FaultInjection

open Regex Regex.Pattern Text Verilog

section Runs

variable [UnicodeData]

/-- A text that reads like a driving statement of a wire from some place on. -/
def DrivenAt (text sampleWire before : Text) : Prop :=
  ∃ keyword gap after, IsDriving keyword ∧
    (∀ high low, gap.bounds = .some (high, low) → low.length = 1) ∧
      text = before ++ (keyword ++ (Gap.text gap ++ (sampleWire ++ (" = " ++ after))))

/-- The one statement of code in which a text drives a wire of one bit. -/
structure WireStatement (text sampleWire : Text) where
  before : Text
  blanks : Text
  after : Text
  text_eq : text = before ++ ("wire" ++ (blanks ++ (sampleWire ++ (" = " ++ after))))
  blanks_ne_nil : blanks ≠ []
  blanks_space : ∀ c ∈ blanks, c.isWhitespace = true
  ready : (Lexer.start.read before).Ready
  only : ∀ place, DrivenAt text sampleWire place → (Lexer.start.read place).Begins →
    place = before

/-- No string of a text reads like a driving statement of a wire. -/
def Unquoted (text sampleWire : Text) : Prop :=
  ∀ place, DrivenAt text sampleWire place → (Lexer.start.read place).mode.isLiteral = false

/-- The text of the three equations of a call, up to the expression of the last one. -/
def wireEquations (call : Call) (blanks : Text) : Text :=
  "wire " ++ call.sampleWire ++ " = " ++ call.faultInput.text ++
    "; // fault injection \n  assign " ++ call.faultOutput.text ++ " = " ++
    originalName call.sampleWire ++ "; // direct original value to output \n  wire" ++ blanks ++
    originalName call.sampleWire ++ " = "

/-- The statement has given way to three equations, and nothing else has changed. -/
structure WireStatement.Replaced {text : Text} {call : Call}
    (statement : WireStatement text call.sampleWire) (text' : Text) : Prop where
  text_eq : text' = statement.before ++ (wireEquations call statement.blanks ++ statement.after)
  equations : ∃ front driver back,
    equations text = front ++ ⟨[.word call.sampleWire], driver⟩ :: back ∧
      equations text' = front ++ ⟨[.word call.sampleWire], call.faultInput.tokens⟩ ::
        ⟨call.faultOutput.tokens, [.word (originalName call.sampleWire)]⟩ ::
          ⟨[.word (originalName call.sampleWire)], driver⟩ :: back

/-! ## Places -/

theorem drivenAt_iff {text sampleWire place : Text} (hname : IsName sampleWire) :
    DrivenAt text sampleWire place ↔ ∃ rest m, text = place ++ rest ∧
      matchAt (wirePattern sampleWire) rest = .some m := by
  constructor
  · rintro ⟨keyword, gap, after, hkeyword, hlow, rfl⟩
    have hm := matchAt_wirePattern hkeyword hname hlow after
    simp only [wireMatch, List.append_assoc] at hm
    exact ⟨_, _, rfl, hm⟩
  · rintro ⟨rest, m, rfl, hm⟩
    obtain ⟨keyword, gap, hkeyword, hlow, hinput⟩ := exists_wireMatch (mem_of_matchAt hm)
    exact ⟨keyword, gap, m.rest, hkeyword, hlow, by rw [hinput]⟩

/-- What was checked at each place of a text at which a statement could begin. -/
theorem DrivenAt.of_states {text sampleWire place : Text} (hname : IsName sampleWire)
    {check : Lexer → Nat → Bool}
    (hcheck : (Lexer.start.states text).all (fun state =>
      (matchAt (wirePattern sampleWire) state.2).isNone || check state.1 state.2.length) = true)
    (hplace : DrivenAt text sampleWire place) :
    check (Lexer.start.read place) (text.length - place.length) = true := by
  obtain ⟨rest, m, htext, hm⟩ := (drivenAt_iff hname).mp hplace
  have hstate := List.all_eq_true.mp hcheck _ (htext ▸ Lexer.start.mem_states place rest)
  simp only at hstate
  rw [hm, Option.isNone_some, Bool.false_or] at hstate
  rw [htext, List.length_append, Nat.add_sub_cancel_left]
  exact hstate

theorem DrivenAt.length_le {stretch sampleWire start : Text} (hname : IsName sampleWire)
    {input : Text} {m : Match Char} (hm : matchAt (wirePattern sampleWire) input = .some m)
    (hdriven : DrivenAt (start ++ input) sampleWire (start ++ stretch)) (hne : stretch ≠ []) :
    m.taken.length ≤ stretch.length := by
  obtain ⟨keyword, gap, after, hkeyword, -, heq⟩ := hdriven
  rw [List.append_assoc, List.append_cancel_left_eq] at heq
  have hequals : '=' ∉ gap.text ++ sampleWire :=
    List.not_mem_append (gap.not_mem_text (by decide) (by decide)) (hname.not_mem isWord_equals)
  obtain ⟨b, c, more, hhead, hb⟩ : ∃ b c more, gap.text ++ sampleWire = b :: c :: more ∧
      isWord b = false := by
    obtain ⟨b, others, hfirst⟩ := List.exists_cons_of_ne_nil gap.first_ne_nil
    obtain ⟨c, more, hmore⟩ : ∃ c more,
        others ++ (rangeText gap.bounds ++ gap.last ++ sampleWire) = c :: more :=
      List.exists_cons_of_ne_nil (List.append_ne_nil_of_right_ne_nil _
        (List.append_ne_nil_of_right_ne_nil _ hname.ne_nil))
    refine ⟨b, c, more, ?_, isWord_of_isSpace (gap.first_space b (hfirst ▸ .head _))⟩
    rw [Gap.text, hfirst, ← hmore]
    simp
  have hc : c ≠ '=' := by
    rintro rfl
    exact hequals (hhead ▸ .tail _ (.head _))
  have hinput : input = stretch ++ ((keyword ++ b :: c :: more) ++ (" = " ++ after)) := by
    rw [heq, ← hhead]
    simp only [List.append_assoc]
  rw [hinput] at hm
  exact wirePattern_border hname hkeyword hb hc hne hm

theorem DrivenAt.eq_of_single {text sampleWire : Text} (hname : IsName sampleWire)
    (hsingle : (findall (wirePattern sampleWire) text).length = 1) {place place' : Text}
    (hplace : DrivenAt text sampleWire place) (hplace' : DrivenAt text sampleWire place') :
    place = place' := by
  have hproductive := wirePattern_productive sampleWire
  obtain ⟨found, hfound⟩ := List.length_eq_one_iff.mp hsingle
  obtain ⟨stretch, following, rfl, hclear, hm⟩ := first_of_findall hproductive hfound
  have hne := hproductive _ _ (mem_of_matchAt hm)
  rw [hclear.findall, findall_hit hm hne, List.cons.injEq] at hfound
  have hrest := clear_of_findall hproductive hfound.2
  have hcut := taken_append_rest (mem_of_matchAt hm)
  -- a statement can neither stand in front of the match found nor behind it nor overlap it
  have hat : ∀ {place}, DrivenAt (stretch ++ following) sampleWire place → place = stretch := by
    intro place hplace
    obtain ⟨rest, m', heq, hm'⟩ := (drivenAt_iff hname).mp hplace
    rcases List.append_eq_append_iff.mp heq with ⟨later, rfl, hlater⟩ | ⟨later, rfl, rfl⟩
    · by_contra hother
      have hlater_ne : later ≠ [] := by
        rintro rfl
        exact hother (List.append_nil stretch)
      have hle := hplace.length_le hname hm hlater_ne
      obtain ⟨more, rfl⟩ : found.taken <+: later :=
        List.prefix_of_prefix_length_le ⟨found.rest, hcut⟩ ⟨rest, hlater.symm⟩ hle
      rw [hlater, List.append_assoc, List.append_cancel_left_eq] at hcut
      have hnone := hrest more rest hcut (fun hnil => ?_)
      · rw [List.append_nil, hm'] at hnone
        cases hnone
      · rw [hnil] at hm'
        have hempty := taken_append_rest (mem_of_matchAt hm')
        exact hproductive _ _ (mem_of_matchAt hm') (List.append_eq_nil_iff.mp hempty).1
    · cases later with
      | nil => exact (List.append_nil place).symm
      | cons c later =>
          rw [hclear place (c :: later) rfl (List.cons_ne_nil _ _)] at hm'
          cases hm'
  rw [hat hplace, hat hplace']

namespace WireStatement

section Statement

variable {text sampleWire : Text} (statement : WireStatement text sampleWire)

def gap : Gap where
  first := statement.blanks
  bounds := none
  last := []
  first_ne_nil := statement.blanks_ne_nil
  first_space := by
    intro c hc
    have hspace := statement.blanks_space c hc
    simp only [Char.isWhitespace, Bool.or_eq_true, decide_eq_true_eq] at hspace
    rcases hspace with ((rfl | rfl) | rfl) | rfl <;> (rw [isSpace_ascii (by decide)]; decide)
  last_space := by simp
  number := by simp

theorem gap_text : statement.gap.text = statement.blanks := List.append_nil _

/-- The match of the statement. -/
def found : Match Char := wireMatch "wire" statement.gap sampleWire statement.after

theorem text_found : text = statement.before ++ (statement.found.taken ++ statement.after) := by
  refine statement.text_eq.trans ?_
  simp only [found, wireMatch, gap_text, List.append_assoc]

theorem matchAt_found (hname : IsName sampleWire) :
    matchAt (wirePattern sampleWire) (statement.found.taken ++ statement.after) =
      .some statement.found :=
  matchAt_wirePattern (Or.inl rfl) hname (by simp [gap]) statement.after

theorem drivenAt : DrivenAt text sampleWire statement.before := by
  refine ⟨"wire", statement.gap, statement.after, Or.inl rfl, by simp [gap], ?_⟩
  rw [gap_text]
  exact statement.text_eq

/-- The statement is the only match where the text is not driven elsewhere. -/
theorem clear (hname : IsName sampleWire)
    (hunique : ∀ place, DrivenAt text sampleWire place → place = statement.before) :
    Clear (wirePattern sampleWire) statement.before (statement.found.taken ++ statement.after) ∧
      Clear (wirePattern sampleWire) statement.after [] := by
  constructor
  · intro place rest hcut hrest
    cases hm : matchAt (wirePattern sampleWire)
      (rest ++ (statement.found.taken ++ statement.after)) with
    | none => rfl
    | some m =>
        have hplace := hunique place ((drivenAt_iff hname).mpr ⟨_, m, ?_, hm⟩)
        · rw [← hplace] at hcut
          exact absurd (List.self_eq_append_right.mp hcut) hrest
        · rw [← List.append_assoc, ← hcut]
          exact statement.text_found
  · intro place rest hcut hrest
    rw [List.append_nil]
    cases hm : matchAt (wirePattern sampleWire) rest with
    | none => rfl
    | some m =>
        have hplace := hunique (statement.before ++ (statement.found.taken ++ place))
          ((drivenAt_iff hname).mpr ⟨rest, m, ?_, hm⟩)
        · have htaken := (List.append_eq_nil_iff.mp (List.append_right_eq_self.mp hplace)).1
          have hne := wirePattern_productive sampleWire _ _
            (mem_of_matchAt (statement.matchAt_found hname))
          exact absurd htaken hne
        · rw [List.append_assoc, List.append_assoc, ← hcut]
          exact statement.text_found

end Statement

section Call

variable {module : Module} {call : Call}
  (statement : WireStatement module.moduleText call.sampleWire)

/-- A call that finds nothing but the statement emits the three equations in its place. -/
theorem call_eq (hunique : ∀ place, DrivenAt module.moduleText call.sampleWire place →
    place = statement.before) :
    module.call call = .ok { module with
      moduleText := statement.before ++
        (wireEquations call statement.blanks ++ statement.after) } := by
  have hname := isName_of_identifier call.identifier
  have hproductive := wirePattern_productive call.sampleWire
  have hm := statement.matchAt_found hname
  have hne := hproductive _ _ (mem_of_matchAt hm)
  obtain ⟨hbefore, hafter⟩ := statement.clear hname hunique
  have hfindall : findall (wirePattern call.sampleWire) module.moduleText = [statement.found] := by
    refine (congrArg (findall _) statement.text_found).trans ?_
    rw [hbefore.findall, findall_hit hm hne]
    exact congrArg _ (findall_of_clear hafter)
  have hsite : module.site call.sampleWire = .ok ⟨.wire, statement.found, module.moduleText⟩ := by
    rw [Module.site, hfindall]
  have hkeyword : statement.found.group 1 = "wire" := rfl
  have hgroup : statement.found.group 2 = statement.blanks := statement.gap_text
  have hending : statement.found.group 4 = " = " := rfl
  have hbounds : (Site.mk .wire statement.found module.moduleText).bounds? = none := by
    have hstrip := statement.gap.strip_text
    rw [gap_text] at hstrip
    rw [Site.bounds?_wire, hgroup, hstrip]
    rfl
  have hindex : (Site.mk .wire statement.found module.moduleText).index call.busIndex call.draw =
      .ok none := by
    rw [Site.index, hbounds]
  have htexts : "wire ".toList = "wire".toList ++ " ".toList ∧
      "; // fault injection \n  assign ".toList =
        ";".toList ++ " // fault injection \n  assign ".toList ∧
      "; // direct original value to output \n  wire".toList =
        "; // direct original value to output \n  ".toList ++ "wire".toList := by
    decide +kernel
  have hcircuit : (Site.mk .wire statement.found module.moduleText).circuit call.sampleWire
      call.faultInput.text call.faultOutput.text none = wireEquations call statement.blanks := by
    rw [Site.circuit_bit _ hbounds]
    unfold wireEquations Site.bitCircuit Site.originalPlaceholder
    simp only [htexts, hkeyword, hgroup, hending, List.append_assoc]
  rw [Module.call, Module.injectFault_emits hname (isFaultWire_text call.faultInput)
    (isFaultWire_text call.faultOutput) hsite hindex, hcircuit]
  have hsub : sub (wirePattern call.sampleWire) (fun _ => wireEquations call statement.blanks)
      module.moduleText =
        statement.before ++ (wireEquations call statement.blanks ++ statement.after) := by
    refine (congrArg (sub _ _) statement.text_found).trans ?_
    rw [hbefore.sub, sub_hit hm hne]
    exact congrArg _ (congrArg _ (sub_of_clear hafter _))
  rw [← hsub]
  rfl

omit [UnicodeData] in
theorem spells_declaration {blanks name : Text} (hne : blanks ≠ [])
    (hblanks : ∀ c ∈ blanks, c.isWhitespace = true) (hname : isIdentifier name = true) :
    Spells ("wire".toList ++ (blanks ++ (name ++ " = ".toList)))
      [.word "wire".toList, .word name, .symbol '='] := by
  have hwire : Lexer.IsWord "wire".toList := isWord_keyword (by simp)
  have hbreak : (blanks ++ (name ++ " = ".toList)).head?.any Lexer.breaks = true := by
    obtain ⟨c, others, rfl⟩ := List.exists_cons_of_ne_nil hne
    have hspace := hblanks c (.head _)
    simp only [Char.isWhitespace, Bool.or_eq_true, decide_eq_true_eq] at hspace
    rcases hspace with ((rfl | rfl) | rfl) | rfl <;> rfl
  exact Spells.word hwire hbreak ((Spells.whitespace hblanks).append
    (Spells.word (isIdentifier.isWord hname) (by rfl) (Spells.literal reads_equals)))

theorem tokens_text {text sampleWire : Text} (statement : WireStatement text sampleWire)
    (hname : isIdentifier sampleWire = true) :
    tokens text = (Lexer.start.read statement.before).tokens.reverse ++
      .word "wire".toList :: ([.word sampleWire] ++
        .symbol '=' :: tokensAfter statement.after) := by
  have hspells := spells_declaration statement.blanks_ne_nil statement.blanks_space hname
  have hcut : "wire".toList ++ (statement.blanks ++ (sampleWire ++ " = ".toList)) =
      ("wire".toList ++ (statement.blanks ++ sampleWire)) ++ " = ".toList := by
    simp only [List.append_assoc]
  rw [hcut] at hspells
  have htokens := tokens_spelled statement.ready hspells statement.after
  simp only [List.append_assoc] at htokens
  exact (congrArg tokens statement.text_eq).trans htokens

/-- The tokens of the three equations, cut in front of the expression of the last one. -/
theorem tokens_replaced {text : Text} (statement : WireStatement text call.sampleWire) :
    tokens (statement.before ++ (wireEquations call statement.blanks ++ statement.after)) =
      (Lexer.start.read statement.before).tokens.reverse ++
        .word "wire".toList :: ([.word call.sampleWire] ++ .symbol '=' ::
          (call.faultInput.tokens ++ .symbol ';' ::
            .word "assign".toList :: (call.faultOutput.tokens ++ .symbol '=' ::
              ([.word (originalName call.sampleWire)] ++ .symbol ';' ::
                .word "wire".toList :: ([.word (originalName call.sampleWire)] ++
                  .symbol '=' :: tokensAfter statement.after))))) := by
  have hreads : Lexer.reads "wire ".toList [.word "wire".toList] = true ∧
      Lexer.reads "; // fault injection \n  assign ".toList
        [.symbol ';', .word "assign".toList] = true ∧
      Lexer.reads "; // direct original value to output \n  ".toList [.symbol ';'] = true := by
    decide +kernel
  have hsplit : "; // direct original value to output \n  wire".toList =
      "; // direct original value to output \n  ".toList ++ "wire".toList := by
    decide +kernel
  obtain ⟨horiginal, -⟩ := isIdentifier_fresh call.identifier
  have hlast := (Spells.literal hreads.2.2).append
    (spells_declaration statement.blanks_ne_nil statement.blanks_space horiginal)
  have hassigned := (Spells.literal hreads.2.1).append (Spells.signal call.faultOutput (by rfl)
    ((Spells.literal reads_equals).append (Spells.word (isIdentifier.isWord horiginal) (by rfl) hlast)))
  have hspells := (Spells.literal hreads.1).append (Spells.word
    (isIdentifier.isWord call.identifier) (by rfl) ((Spells.literal reads_equals).append
      (Spells.signal call.faultInput (by rfl) hassigned)))
  obtain ⟨front, hfront⟩ : ∃ front, wireEquations call statement.blanks = front ++ " = ".toList :=
    ⟨_, rfl⟩
  have htext : wireEquations call statement.blanks = "wire ".toList ++ (call.sampleWire ++
      (" = ".toList ++ (call.faultInput.text ++ ("; // fault injection \n  assign ".toList ++
        (call.faultOutput.text ++ (" = ".toList ++ (originalName call.sampleWire ++
          ("; // direct original value to output \n  ".toList ++ ("wire".toList ++
            (statement.blanks ++ (originalName call.sampleWire ++ " = ".toList))))))))))) := by
    unfold wireEquations
    simp only [hsplit, List.append_assoc]
  rw [← htext, hfront] at hspells
  have htokens := tokens_spelled statement.ready hspells statement.after
  rw [hfront, List.append_assoc, htokens]
  simp only [List.append_assoc, List.cons_append, List.nil_append]

theorem exists_equations {text : Text} (layout : Layout text)
    (statement : WireStatement text call.sampleWire) : ∃ front driver back,
    equations text = front ++ ⟨[.word call.sampleWire], driver⟩ :: back ∧
      equations (statement.before ++ (wireEquations call statement.blanks ++ statement.after)) =
        front ++ ⟨[.word call.sampleWire], call.faultInput.tokens⟩ ::
          ⟨call.faultOutput.tokens, [.word (originalName call.sampleWire)]⟩ ::
            ⟨[.word (originalName call.sampleWire)], driver⟩ :: back := by
  have hwire : drives (.word "wire".toList) = true := by decide
  have hassign : drives (.word "assign".toList) = true := by decide
  have htext := statement.tokens_text call.identifier
  have hended : Ended (Lexer.start.read statement.before).tokens.reverse := by
    intro front keyword back heq hkeyword
    rw [heq, List.append_assoc, List.cons_append] at htext
    exact layout.ended front keyword back _ _ htext hkeyword hwire
  have hinput : .symbol ';' ∉ call.faultInput.tokens := call.faultInput.symbol_not_mem (by decide)
  have houtput : .symbol ';' ∉ call.faultOutput.tokens :=
    call.faultOutput.symbol_not_mem (by decide)
  have htarget : .symbol '=' ∉ call.faultOutput.tokens :=
    call.faultOutput.symbol_not_mem (by decide)
  have hfirst : Token.symbol ';' ∉ Token.word "wire".toList ::
      ([.word call.sampleWire] ++ .symbol '=' :: call.faultInput.tokens) := by
    simp [hinput]
  have hsecond : Token.symbol ';' ∉ Token.word "assign".toList ::
      (call.faultOutput.tokens ++ .symbol '=' :: [.word (originalName call.sampleWire)]) := by
    simp [houtput]
  obtain ⟨driver, back, hdriver⟩ := exists_driver (tokensAfter statement.after)
  refine ⟨equationsOf (Lexer.start.read statement.before).tokens.reverse, driver, back, ?_, ?_⟩
  · rw [equations, htext, equationsOf_append hended, hdriver hwire (by simp) (by simp)]
  · rw [equations, statement.tokens_replaced, equationsOf_append hended,
      equationsOf_equation hwire (by simp) hfirst, equationsOf_equation hassign htarget hsecond,
      hdriver hwire (by simp) (by simp)]

theorem count_wireEquations (call : Call) {blanks : Text} (hblanks : ';' ∉ blanks) :
    (wireEquations call blanks).count ';' = 2 := by
  have hliterals : "wire ".toList.count ';' = 0 ∧ " = ".toList.count ';' = 0 ∧
      "; // fault injection \n  assign ".toList.count ';' = 1 ∧
      "; // direct original value to output \n  wire".toList.count ';' = 1 := by
    decide +kernel
  have hsemicolon : isWord ';' = false := by
    rw [isWord_ascii (by decide)]
    decide
  have hname := isName_of_identifier call.identifier
  have hsample := List.count_eq_zero.mpr (hname.not_mem hsemicolon)
  have horiginal := List.count_eq_zero.mpr ((isName_originalName hname).not_mem hsemicolon)
  have hinput := List.count_eq_zero.mpr
    ((isFaultWire_text call.faultInput).not_mem hsemicolon (by decide) (by decide))
  have houtput := List.count_eq_zero.mpr
    ((isFaultWire_text call.faultOutput).not_mem hsemicolon (by decide) (by decide))
  unfold wireEquations
  simp only [List.count_append, hliterals, hsample, horiginal, hinput, houtput,
    List.count_eq_zero.mpr hblanks]

end Call

end WireStatement

theorem Site.two_le_count {site : Site} (hbranch : site.branch = .wire)
    (sampleWire faultInputWire faultOutputWire : Text) (index : Option Nat) :
    2 ≤ (site.circuit sampleWire faultInputWire faultOutputWire index).count ';' := by
  have hliterals : ";".toList.count ';' = 1 ∧ ";\n ".toList.count ';' = 1 ∧
      "; // direct original value to output \n  ".toList.count ';' = 1 ∧
      "]; // direct original value to output \n  ".toList.count ';' = 1 := by
    decide +kernel
  unfold circuit
  split
  · unfold busCircuit busOpening
    rw [hbranch]
    simp only [List.count_append, hliterals]
    omega
  · unfold bitCircuit
    rw [hbranch]
    simp only [List.count_append, hliterals]
    omega

theorem count_taken {sampleWire input : Text} {m : Match Char} (hname : IsName sampleWire)
    (hm : matchAt (wirePattern sampleWire) input = .some m) : m.taken.count ';' = 0 := by
  obtain ⟨keyword, gap, hkeyword, -, heq⟩ := exists_of_matchAt_wirePattern hname hm
  have hequals : ';' ∉ " = ".toList := by decide
  have hsemicolon : isWord ';' = false := by
    rw [isWord_ascii (by decide)]
    decide
  rw [List.count_eq_zero, heq, wireMatch]
  simp only [List.mem_append, not_or]
  exact ⟨hkeyword.isName.not_mem hsemicolon, gap.not_mem_text (by decide) (by decide),
    hname.not_mem hsemicolon, hequals⟩

/-- A call that leaves nothing but three equations in the place of the statement has found no
other. -/
theorem WireStatement.findall_single {module module' : Module} {call : Call}
    (statement : WireStatement module.moduleText call.sampleWire)
    (hcall : module.call call = .ok module')
    (htext : module'.moduleText =
      statement.before ++ (wireEquations call statement.blanks ++ statement.after)) :
    (findall (wirePattern call.sampleWire) module.moduleText).length = 1 := by
  have hname := isName_of_identifier call.identifier
  have hproductive := wirePattern_productive call.sampleWire
  cases hfound : findall (wirePattern call.sampleWire) module.moduleText with
  | nil =>
      have hclear := clear_of_findall hproductive hfound
      have hm := statement.matchAt_found hname
      have hnone := hclear _ _ statement.text_found (fun hnil => ?_)
      · rw [List.append_nil, hm] at hnone
        cases hnone
      · have hne := hproductive _ _ (mem_of_matchAt hm)
        exact hne (List.append_eq_nil_iff.mp hnil).1
  | cons found others =>
      have hsite : module.site call.sampleWire = .ok ⟨.wire, found, module.moduleText⟩ := by
        rw [Module.site, hfound]
      have hrun := hcall
      rw [Module.call, Module.injectFault_eq, hsite, ok_bind] at hrun
      obtain ⟨index, hindex, -⟩ := bind_eq_ok.mp hrun
      rw [Module.call, Module.injectFault_emits hname (isFaultWire_text call.faultInput)
        (isFaultWire_text call.faultOutput) hsite hindex, Except.ok.injEq] at hcall
      have hcount := congrArg (List.count ';') htext
      have hbefore := congrArg (List.count ';') statement.text_found
      have hbranch : (Site.mk .wire found module.moduleText).branch = .wire := rfl
      have htwo := Site.two_le_count hbranch call.sampleWire call.faultInput.text
        call.faultOutput.text index
      have htaken := count_taken hname (statement.matchAt_found hname)
      have hblanks : ';' ∉ statement.blanks := by
        rw [← statement.gap_text]
        exact statement.gap.not_mem_text (by decide) (by decide)
      rw [← hcall] at hcount
      simp only at hcount
      rw [Site.pattern, count_sub_const hproductive (fun hm => count_taken hname hm), hfound,
        List.length_cons, List.count_append, List.count_append,
        count_wireEquations call hblanks] at hcount
      rw [List.count_append, List.count_append, htaken] at hbefore
      have hmul := Nat.mul_le_mul_left (others.length + 1) htwo
      rw [List.length_cons]
      omega

/-- A call replaces the statement and nothing else exactly when no string of the module reads
like a driving statement of the wire. -/
theorem WireStatement.replaced_iff {module : Module} {call : Call}
    (layout : Layout module.moduleText)
    (statement : WireStatement module.moduleText call.sampleWire) :
    (∃ module', module.call call = .ok module' ∧ statement.Replaced module'.moduleText) ↔
      Unquoted module.moduleText call.sampleWire := by
  have hname := isName_of_identifier call.identifier
  constructor
  · rintro ⟨module', hcall, replaced⟩ place hplace
    have hsingle := statement.findall_single hcall replaced.text_eq
    rw [hplace.eq_of_single hname hsingle statement.drivenAt]
    obtain ⟨blank, hmode⟩ := Lexer.exists_code statement.ready.2
    rw [hmode]
    rfl
  · intro unquoted
    have hunique : ∀ place, DrivenAt module.moduleText call.sampleWire place →
        place = statement.before := by
      intro place hplace
      have hliteral := unquoted place hplace
      refine statement.only place hplace ?_
      obtain ⟨keyword, gap, after, hkeyword, -, htext⟩ := hplace
      exact layout.begins hkeyword hname htext hliteral
    exact ⟨_, statement.call_eq hunique, rfl, statement.exists_equations layout⟩

end Runs

section Printing

attribute [local instance] UnicodeData.ascii

/-- A module that prints a message and a wire. -/
def printingText (message : String) : Text := lines
  ["module m(", "  input  clock,", "  input  a", ");", "  wire  w = a; // @[m.scala 9:5]",
    "  always @(posedge clock) begin", "    $fwrite(32'h80000002,\"" ++ message ++ "\",w);",
    "  end", "endmodule"]

def printing (message : String) : Module :=
  ⟨"m", printingText message, parseIo (printingText message), extractWires (printingText message)⟩

theorem isIdentifier_w : isIdentifier "w" = true := by decide
theorem isIdentifier_inputs : isIdentifier "fault_inputs" = true := by decide
theorem isIdentifier_outputs : isIdentifier "fault_outputs" = true := by decide

def printedCall : Call where
  sampleWire := "w"
  faultInput := ⟨"fault_inputs", Option.some 0, isIdentifier_inputs⟩
  faultOutput := ⟨"fault_outputs", Option.some 0, isIdentifier_outputs⟩
  busIndex := none
  draw := 0
  identifier := isIdentifier_w

/-- Code begins a word behind 42 characters of a text only. -/
def beginsOnce (size : Nat) (lexer : Lexer) (rest : Nat) : Bool :=
  !decide lexer.Begins || rest + 42 == size

def outsideStrings (lexer : Lexer) (_ : Nat) : Bool := !lexer.mode.isLiteral

/-- The statement of the wire, checked at each place of the text. -/
def printingStatement (message : String)
    (htext : printingText message = (printingText message).take 42 ++
      ("wire" ++ ("  " ++ ("w" ++ (" = " ++ (printingText message).drop 52)))))
    (hready : (Lexer.start.read ((printingText message).take 42)).Ready)
    (hcheck : ((Lexer.start.states (printingText message)).all fun state =>
      (matchAt (wirePattern "w") state.2).isNone ||
        beginsOnce (printingText message).length state.1 state.2.length) = true) :
    WireStatement (printingText message) "w" where
  before := (printingText message).take 42
  blanks := "  "
  after := (printingText message).drop 52
  text_eq := htext
  blanks_ne_nil := by decide
  blanks_space := List.all_eq_true.mp (by decide)
  ready := hready
  only := by
    intro place hplace hbegins
    have hname : IsName "w" := isName_of_identifier printedCall.identifier
    have hstate : beginsOnce (printingText message).length (Lexer.start.read place)
        ((printingText message).length - place.length) = true := hplace.of_states hname hcheck
    rw [beginsOnce, decide_eq_true hbegins, Bool.not_true, Bool.false_or, beq_iff_eq] at hstate
    obtain ⟨keyword, gap, after, -, -, heq⟩ := hplace
    have hprefix : place <+: printingText message := ⟨_, heq.symm⟩
    have hle := hprefix.length_le
    have hlength : place.length = 42 := by omega
    rw [← hlength]
    exact List.prefix_iff_eq_take.mp hprefix

def quietStatement : WireStatement (printing "at %d").moduleText printedCall.sampleWire :=
  printingStatement "at %d" (by decide +kernel) (by decide +kernel) (by decide +kernel)

/-- A string that reads like the statement. -/
def loudStatement : WireStatement (printing "wire w = %d").moduleText printedCall.sampleWire :=
  printingStatement "wire w = %d" (by decide +kernel) (by decide +kernel) (by decide +kernel)

theorem WireStatement.replaced_printing :
    ∃ module', (printing "at %d").call printedCall = .ok module' ∧
      quietStatement.Replaced module'.moduleText := by
  refine (WireStatement.replaced_iff (Layout.of_check (by decide) (by decide))
    quietStatement).mpr ?_
  intro place hplace
  have hname : IsName "w" := isName_of_identifier printedCall.identifier
  have hcheck : ((Lexer.start.states (printingText "at %d")).all fun state =>
      (matchAt (wirePattern "w") state.2).isNone ||
        outsideStrings state.1 state.2.length) = true := by
    decide +kernel
  have hstate : outsideStrings (Lexer.start.read place)
      ((printingText "at %d").length - place.length) = true := hplace.of_states hname hcheck
  rwa [outsideStrings, Bool.not_eq_true'] at hstate

/-- A message that reads like the statement is rewritten as well. -/
theorem WireStatement.loud_not_replaced : Layout (printing "wire w = %d").moduleText ∧
    ¬ ∃ module', (printing "wire w = %d").call printedCall = .ok module' ∧
      loudStatement.Replaced module'.moduleText := by
  refine ⟨Layout.of_check (by decide) (by decide), ?_⟩
  rintro ⟨module', hcall, replaced⟩
  have hrun : ((printing "wire w = %d").call printedCall).map (fun module' =>
      decide (module'.moduleText = loudStatement.before ++
        (wireEquations printedCall loudStatement.blanks ++ loudStatement.after))) = .ok false := by
    decide +kernel
  rw [hcall] at hrun
  have hdiffers := Except.ok.inj hrun
  exact of_decide_eq_false hdiffers replaced.text_eq

end Printing

end FaultInjection
