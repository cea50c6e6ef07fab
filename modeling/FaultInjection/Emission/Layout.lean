import FaultInjection.Emission.Outline
import FaultInjection.Emission.Wire
import FaultInjection.Verilog.Comments
import FaultInjection.Verilog.Equations
import Mathlib.Data.List.Chain

/-!
# The layout of emitted text

What the text of a module that a hardware compiler emits looks like between its tokens.
Its comments are locators, its directives drive nothing, and a word in front of a driven
name is a keyword.  A driving statement can then begin in code or in a string only.
-/

namespace FaultInjection

open Regex Regex.Pattern Text Verilog

variable [UnicodeData]

/-- A list of files and positions.  No word of it begins with an equals sign or a bracket. -/
structure IsPlace (place : Text) : Prop where
  line : '\n' ∉ place
  words : place.IsChain fun c d => isSpace c = true → d ≠ '=' ∧ d ≠ '['

/-- The text of a locator. -/
def locatorText (place : Text) : Text := " @[" ++ (place ++ "]")

/-- A line goes on up to its end. -/
def EndsLine (following : Text) : Prop := following.head?.all (· == '\n') = true

/-- The layout of the text of a module. -/
structure Layout (text : Text) : Prop where
  /-- Comments are locators. -/
  locator : ∀ before after, text = before ++ '/' :: '/' :: after →
    (Lexer.start.read before).mode.isCode = true →
      ∃ place following, after = locatorText place ++ following ∧ IsPlace place ∧ EndsLine following
  /-- Directives mention no keyword of an equation. -/
  directive : ∀ before after, text = before ++ grave :: after →
    (Lexer.start.read before).mode = .code true →
      ∃ line following, after = line ++ following ∧ '\n' ∉ line ∧ EndsLine following ∧
        ∀ keyword, IsDriving keyword → ¬ keyword <:+: line
  /-- A word in front of a name and an equals sign is reserved. -/
  reserved : ∀ before name after, ∀ gap : Gap, IsName name →
    text = before ++ (gap.text ++ (name ++ (" = " ++ after))) →
      (Lexer.start.read before).mode.isCode = true → (Lexer.start.read before).word ≠ [] →
        (Lexer.start.read before).word.reverse ∈ reservedWords
  /-- An equation ends before the next one begins. -/
  ended : ∀ front first middle second back,
    tokens text = front ++ first :: (middle ++ second :: back) → drives first = true →
      drives second = true → .symbol ';' ∈ middle

omit [UnicodeData] in
theorem EndsLine.prefix {line following stretch rest : Text} (hends : EndsLine following)
    (hstretch : '\n' ∉ stretch) (heq : stretch ++ rest = line ++ following) : stretch <+: line := by
  rcases List.append_eq_append_iff.mp heq with ⟨later, rfl, -⟩ | ⟨later, rfl, hrest⟩
  · exact ⟨later, rfl⟩
  · cases later with
    | nil => exact ⟨[], by simp⟩
    | cons c later =>
        rw [hrest] at hends
        have hc := eq_of_beq hends
        exact absurd (List.mem_append_right _ (hc ▸ .head _)) hstretch

theorem IsPlace.chain {place : Text} (isPlace : IsPlace place) :
    (locatorText place).IsChain fun c d => isSpace c = true → d ≠ '=' ∧ d ≠ '[' := by
  have htexts : " @[".toList = [' ', '@', '['] ∧ "]".toList = [']'] := by decide
  have hat : isSpace '@' = false := by
    rw [isSpace_ascii (by decide)]
    decide
  have hfront : ([' ', '@', '['] : Text).IsChain fun c d =>
      isSpace c = true → d ≠ '=' ∧ d ≠ '[' := by
    simp [hat]
  have hback : (place ++ [']']).IsChain fun c d => isSpace c = true → d ≠ '=' ∧ d ≠ '[' := by
    refine List.isChain_append.mpr ⟨isPlace.words, by simp, ?_⟩
    rintro c - d hd -
    cases hd
    decide
  rw [locatorText, htexts.1, htexts.2]
  refine List.isChain_append.mpr ⟨hfront, hback, ?_⟩
  rintro c hc d - hspace
  cases hc
  change isSpace '[' = true at hspace
  rw [Gap.isSpace_bracket.1] at hspace
  cases hspace

theorem IsPlace.newline_not_mem {place : Text} (isPlace : IsPlace place) :
    '\n' ∉ locatorText place := by
  have htexts : '\n' ∉ " @[".toList ∧ '\n' ∉ "]".toList := by decide
  exact List.not_mem_append htexts.1 (List.not_mem_append isPlace.line htexts.2)

/-- No word of a locator begins with an equals sign or a bracket. -/
theorem IsPlace.not_infix {place : Text} (isPlace : IsPlace place) {blank c : Char}
    (hblank : isSpace blank = true) (hc : c = '=' ∨ c = '[') {front back : Text}
    (heq : locatorText place = front ++ blank :: c :: back) : False := by
  have hchain := isPlace.chain
  rw [heq, List.isChain_append_cons_cons] at hchain
  obtain ⟨hequals, hbracket⟩ := hchain.2.1 hblank
  rcases hc with rfl | rfl
  · exact hequals rfl
  · exact hbracket rfl

/-! ## Driving statements in comments -/

theorem IsName.newline_not_mem {text : Text} (hname : IsName text) : '\n' ∉ text := by
  apply hname.not_mem
  rw [isWord_ascii (by decide)]
  decide

theorem Gap.newline_cases (gap : Gap) : '\n' ∉ gap.text ∨
    ∃ front back, gap.text = front ++ '\n' :: back ∧ '\n' ∉ front := by
  by_cases hmem : '\n' ∈ gap.text
  · obtain ⟨front, back, heq, hfront⟩ := List.eq_append_cons_of_mem hmem
    exact Or.inr ⟨front, back, heq, hfront⟩
  · exact Or.inl hmem

/-- A gap whose first line holds a closing bracket has its range there. -/
theorem Gap.exists_range {gap : Gap} {front back : Text}
    (heq : gap.text = front ++ '\n' :: back) (hmem : ']' ∈ front) :
    ∃ start blank more, front = start ++ blank :: '[' :: more ∧ isSpace blank = true := by
  have hblank : ∀ {run : Text}, (∀ c ∈ run, isSpace c = true) → ']' ∉ run := by
    intro run hrun hmem
    have hspace := hrun _ hmem
    rw [isSpace_bracket.2.2] at hspace
    cases hspace
  rw [text] at heq
  cases hbounds : gap.bounds with
  | none =>
      rw [hbounds, rangeText, List.nil_append] at heq
      have hall : ']' ∈ gap.first ++ gap.last := heq ▸ List.mem_append_left _ hmem
      rcases List.mem_append.mp hall with hfirst | hlast
      · exact absurd hfirst (hblank gap.first_space)
      · exact absurd hlast (hblank gap.last_space)
  | some bounds =>
      rw [hbounds, rangeText, List.cons_append] at heq
      rcases List.append_eq_append_iff.mp heq with ⟨later, hlater, hrest⟩ | ⟨later, hlater, -⟩
      · cases later with
        | nil =>
            rw [List.append_nil] at hlater
            exact absurd hmem (hlater ▸ hblank gap.first_space)
        | cons c later =>
            rw [List.cons_append, List.cons.injEq] at hrest
            refine ⟨gap.first.dropLast, gap.first.getLast gap.first_ne_nil, later, ?_,
              gap.first_space _ (List.getLast_mem _)⟩
            rw [hlater, ← hrest.1]
            calc gap.first ++ '[' :: later
                _ = (gap.first.dropLast ++ [gap.first.getLast gap.first_ne_nil]) ++ '[' :: later := by
                  rw [List.dropLast_append_getLast]
                _ = _ := by simp only [List.append_assoc, List.singleton_append]
      · have hfirst : ']' ∈ gap.first := hlater ▸ List.mem_append_left _ hmem
        exact absurd hfirst (hblank gap.first_space)

theorem IsPlace.no_statement {place rest following keyword sampleWire after : Text} {gap : Gap}
    (isPlace : IsPlace place) (hends : EndsLine following) (hkeyword : IsDriving keyword)
    (hname : IsName sampleWire) (hrest : '\n' ∉ rest)
    (heq : rest ++ (keyword ++ (gap.text ++ (sampleWire ++ (" = " ++ after)))) =
      locatorText place ++ following) : False := by
  have htexts : " = ".toList = [' ', '=', ' '] ∧ "]".toList = [']'] := by decide
  have hword := hkeyword.isName.newline_not_mem
  have hsample := hname.newline_not_mem
  rw [htexts.1] at heq
  rcases gap.newline_cases with hline | ⟨front, back, hgap, hfront⟩
  · -- the whole statement would stand in the locator
    have hstretch : '\n' ∉ rest ++ (keyword ++ (gap.text ++ (sampleWire ++ [' ', '=', ' ']))) := by
      simp only [List.mem_append, not_or]
      exact ⟨hrest, hword, hline, hsample, by decide⟩
    obtain ⟨later, hlater⟩ := hends.prefix hstretch (by simpa only [List.append_assoc] using heq)
    have hinfix : locatorText place = (rest ++ (keyword ++ (gap.text ++ sampleWire))) ++
        ' ' :: '=' :: ' ' :: later := by
      rw [← hlater]
      simp
    exact isPlace.not_infix isSpace_blank (Or.inl rfl) hinfix
  · -- the range of the gap would end the locator
    have hstretch : '\n' ∉ rest ++ (keyword ++ front) := by
      simp only [List.mem_append, not_or]
      exact ⟨hrest, hword, hfront⟩
    have hcut : (rest ++ (keyword ++ front)) ++ '\n' :: (back ++ (sampleWire ++
        ([' ', '=', ' '] ++ after))) = locatorText place ++ following := by
      rw [← heq, hgap]
      simp
    obtain ⟨later, hlater⟩ := hends.prefix hstretch hcut
    have hnil : later = [] := by
      cases later with
      | nil => rfl
      | cons c later =>
          rw [← hlater] at hcut
          simp only [List.append_assoc, List.append_cancel_left_eq, List.cons_append,
            List.cons.injEq] at hcut
          refine absurd ?_ isPlace.newline_not_mem
          rw [← hlater, hcut.1]
          exact List.mem_append_right _ (.head _)
    rw [hnil, List.append_nil] at hlater
    have hlast : ']' ∈ front := by
      have hend := congrArg List.getLast? hlater
      rw [locatorText, htexts.2, List.getLast?_append, List.getLast?_append, List.getLast?_append,
        List.getLast?_append] at hend
      cases hfinal : front.getLast? with
      | some c =>
          rw [hfinal] at hend
          cases hend
          exact List.mem_of_getLast? hfinal
      | none =>
          rw [hfinal] at hend
          have hletters : "wire".toList.getLast? = .some 'e' ∧ "assign".toList.getLast? = .some 'n' := by
            decide +kernel
          rcases hkeyword with rfl | rfl
          · rw [hletters.1] at hend
            cases hend
          · rw [hletters.2] at hend
            cases hend
    obtain ⟨start, blank, more, rfl, hblank⟩ := Gap.exists_range hgap hlast
    have hinfix : locatorText place = (rest ++ (keyword ++ start)) ++ blank :: '[' :: more := by
      rw [← hlater]
      simp
    exact isPlace.not_infix hblank (Or.inr rfl) hinfix

omit [UnicodeData] in
/-- No reserved word ends with a keyword of an equation but is longer. -/
theorem IsDriving.whole {keyword : Text} (hkeyword : IsDriving keyword) {front : Text}
    (hreserved : front ++ keyword ∈ reservedWords) : front = [] := by
  have hall : reservedWords.all (fun word => ["wire".toList, "assign".toList].all fun keyword =>
      !keyword.isSuffixOf word || word == keyword) = true := by
    decide +kernel
  have hmem : keyword ∈ ["wire".toList, "assign".toList] := by
    rcases hkeyword with rfl | rfl <;> simp
  have hword := List.all_eq_true.mp (List.all_eq_true.mp hall _ hreserved) keyword hmem
  rw [Bool.or_eq_true, Bool.not_eq_true', ← Bool.not_eq_true, List.isSuffixOf_iff_suffix,
    beq_iff_eq] at hword
  rcases hword with hsuffix | heq
  · exact absurd (List.suffix_append front keyword) hsuffix
  · exact List.append_left_eq_self.mp heq

omit [UnicodeData] in
theorem IsDriving.read {keyword : Text} (hkeyword : IsDriving keyword) {lexer : Lexer}
    (hmode : lexer.mode.isCode = true ∨ lexer.mode = .slash) :
    (lexer.read keyword).mode.isCode = true ∧
      (lexer.read keyword).word = keyword.reverse ++ lexer.word := by
  have hword : Lexer.IsWord keyword := by
    rcases hkeyword with rfl | rfl <;> exact isWord_keyword (by simp)
  rcases hmode with hcode | hslash
  · exact Lexer.read_inWord hcode hword.inWord
  · exact Lexer.read_slash hslash hword

/-- Outside of strings a driving statement begins where code begins a new word. -/
theorem Layout.begins {text before keyword sampleWire after : Text} {gap : Gap}
    (layout : Layout text) (hkeyword : IsDriving keyword) (hname : IsName sampleWire)
    (htext : text = before ++ (keyword ++ (gap.text ++ (sampleWire ++ (" = " ++ after)))))
    (hliteral : (Lexer.start.read before).mode.isLiteral = false) :
    (Lexer.start.read before).Begins := by
  have hcode : (Lexer.start.read before).mode.isCode = true ∨
      (Lexer.start.read before).mode = .slash → (Lexer.start.read before).Begins := by
    intro hmode
    refine ⟨?_, hmode⟩
    obtain ⟨hcode, hword⟩ := hkeyword.read hmode
    rw [← Lexer.read_append] at hcode hword
    by_contra hne
    have hmem := layout.reserved (before ++ keyword) sampleWire after gap hname
      (by rw [htext, List.append_assoc]) hcode
    rw [hword, List.reverse_append, List.reverse_reverse] at hmem
    refine hne (List.reverse_eq_nil_iff.mp (hkeyword.whole (hmem ?_)))
    exact List.append_ne_nil_of_left_ne_nil (by simpa using hkeyword.isName.ne_nil) _
  cases hmode : (Lexer.start.read before).mode with
  | code blank => exact hcode (Or.inl (by rw [hmode]; rfl))
  | slash => exact hcode (Or.inr hmode)
  | quoted | escape =>
      rw [hmode] at hliteral
      cases hliteral
  | comment =>
      obtain ⟨start, rest, hrest, ⟨rfl, hstart⟩ | ⟨rfl, hstart⟩⟩ := Lexer.exists_comment hmode
      · obtain ⟨place, following, heq, isPlace, hends⟩ := layout.locator start
          (rest ++ (keyword ++ (gap.text ++ (sampleWire ++ (" = " ++ after))))) (by simp [htext])
          hstart
        exact (isPlace.no_statement hends hkeyword hname hrest heq).elim
      · obtain ⟨line, following, heq, -, hends, hnone⟩ := layout.directive start
          (rest ++ (keyword ++ (gap.text ++ (sampleWire ++ (" = " ++ after))))) (by simp [htext])
          hstart
        have hstretch := List.not_mem_append hrest hkeyword.isName.newline_not_mem
        rw [← List.append_assoc] at heq
        obtain ⟨later, hlater⟩ := hends.prefix hstretch heq
        exact (hnone keyword hkeyword ⟨rest, later, hlater⟩).elim

/-! ## Checking a layout -/

/-- An equation ends before the next one begins, found by looking ahead. -/
def endedCheck : List Token → Bool
  | [] => true
  | token :: rest =>
      (!drives token || !(rest.takeWhile (· != .symbol ';')).any drives) && endedCheck rest

omit [UnicodeData] in
theorem ended_of_check {tokens : List Token} (hcheck : endedCheck tokens = true)
    {front middle back : List Token} {first second : Token}
    (heq : tokens = front ++ first :: (middle ++ second :: back)) (hfirst : drives first = true)
    (hsecond : drives second = true) : .symbol ';' ∈ middle := by
  induction front generalizing tokens with
  | nil =>
      rw [heq, List.nil_append, endedCheck, hfirst, Bool.and_eq_true, Bool.not_true, Bool.false_or,
        Bool.not_eq_true', ← Bool.not_eq_true, List.any_eq_true] at hcheck
      by_contra hmem
      have hmiddle : ∀ token ∈ middle, (token != .symbol ';') = true := by
        intro token htoken
        rw [bne_iff_ne]
        rintro rfl
        exact hmem htoken
      have hother : (second != .symbol ';') = true := by
        rw [bne_iff_ne]
        rintro rfl
        cases hsecond
      refine hcheck.1 ⟨second, ?_, hsecond⟩
      rw [List.takeWhile_append_of_pos hmiddle, List.takeWhile_cons, if_pos hother]
      exact List.mem_append_right _ (.head _)
  | cons token front ih =>
      rw [heq, List.cons_append, endedCheck, Bool.and_eq_true] at hcheck
      exact ih hcheck.2 rfl

/-- The line of a comment is a locator. -/
def locatorCheck (after : Text) : Bool :=
  let line := after.takeWhile (· != '\n')
  let place := (line.drop 3).dropLast
  line == locatorText place &&
    decide (place.IsChain fun c d => isSpace c = true → d ≠ '=' ∧ d ≠ '[')

omit [UnicodeData] in
theorem exists_line (text : Text) : ∃ following,
    text = text.takeWhile (· != '\n') ++ following ∧ EndsLine following ∧
      '\n' ∉ text.takeWhile (· != '\n') := by
  refine ⟨text.dropWhile (· != '\n'), List.takeWhile_append_dropWhile.symm, ?_, ?_⟩
  · have hhead := List.head?_dropWhile_not (· != '\n') text
    unfold EndsLine
    cases hfirst : (text.dropWhile (· != '\n')).head? with
    | none => rfl
    | some c =>
        rw [hfirst] at hhead
        simpa using hhead
  · intro hmem
    have hne := List.mem_takeWhile_imp hmem
    simp at hne

theorem exists_place_of_check {after : Text} (hcheck : locatorCheck after = true) :
    ∃ place following, after = locatorText place ++ following ∧ IsPlace place ∧
      EndsLine following := by
  rw [locatorCheck, Bool.and_eq_true, beq_iff_eq, decide_eq_true_eq] at hcheck
  obtain ⟨hline, hwords⟩ := hcheck
  obtain ⟨following, heq, hends, hnewline⟩ := exists_line after
  refine ⟨_, following, heq.trans (congrArg (· ++ following) hline), ⟨fun hmem => ?_, hwords⟩, hends⟩
  rw [hline] at hnewline
  exact hnewline (List.mem_append_right _ (List.mem_append_left _ hmem))

/-- A word in front of a name, by its first characters, is reserved. -/
def reservedCheck (lexer : Lexer) (after : Text) : Bool :=
  !lexer.mode.isCode || lexer.word.isEmpty || reservedWords.contains lexer.word.reverse ||
    !after.head?.any isSpace || !(after.dropWhile isSpace).head?.any fun c => isWord c || c == '['

theorem reserved_of_check {lexer : Lexer} {gap : Gap} {name rest : Text} (hname : IsName name)
    (hcheck : reservedCheck lexer (gap.text ++ (name ++ rest)) = true)
    (hcode : lexer.mode.isCode = true) (hword : lexer.word ≠ []) :
    lexer.word.reverse ∈ reservedWords := by
  obtain ⟨c, others, rfl⟩ := List.exists_cons_of_ne_nil hname.ne_nil
  have hc := hname.word c (.head _)
  have hfirst : ((gap.text ++ ((c :: others) ++ rest)).head?.any isSpace) = true := by
    obtain ⟨blank, blanks, hblank⟩ := List.exists_cons_of_ne_nil gap.first_ne_nil
    rw [Gap.text, hblank]
    exact gap.first_space blank (hblank ▸ .head _)
  have hspace : ∀ {run following : Text}, (∀ c ∈ run, isSpace c = true) →
      (following.head?.any isSpace) = false →
        (run ++ following).dropWhile isSpace = following := by
    intro run following hrun hfollowing
    rw [List.dropWhile_append_of_pos hrun]
    cases following with
    | nil => rfl
    | cons d following => exact List.dropWhile_cons_of_neg (Bool.eq_false_iff.mp hfollowing)
  have hnext : ((gap.text ++ ((c :: others) ++ rest)).dropWhile isSpace).head?.any
      (fun c => isWord c || c == '[') = true := by
    rw [Gap.text, List.append_assoc, List.append_assoc]
    cases hbounds : gap.bounds with
    | none =>
        rw [rangeText, List.nil_append, ← List.append_assoc, hspace]
        · simp [hc]
        · intro d hd
          rcases List.mem_append.mp hd with hd | hd
          · exact gap.first_space d hd
          · exact gap.last_space d hd
        · exact isSpace_of_isWord hc
    | some bounds =>
        rw [rangeText, List.cons_append, hspace gap.first_space]
        · simp
        · exact Gap.isSpace_bracket.1
  have hempty : lexer.word.isEmpty = false := List.isEmpty_eq_false_iff.mpr hword
  rw [reservedCheck, hcode, hempty, hfirst, hnext] at hcheck
  simpa using hcheck

/-- What a layout says of a place in a text. -/
def layoutCheck (lexer : Lexer) (after : Text) : Bool :=
  reservedCheck lexer after &&
    (!lexer.mode.isCode || !"//".toList.isPrefixOf after || locatorCheck (after.drop 2)) &&
    (lexer.mode != .code true || after.head? != Option.some grave ||
      ["wire".toList, "assign".toList].all fun keyword =>
        decide (¬ keyword <:+: (after.drop 1).takeWhile (· != '\n')))

/-- A text has a layout when each of its places and its tokens were checked. -/
theorem Layout.of_check {text : Text}
    (hcheck : (Lexer.start.states text).all (fun state => layoutCheck state.1 state.2) = true)
    (hended : endedCheck (tokens text) = true) : Layout text := by
  have hplace : ∀ before after, text = before ++ after →
      layoutCheck (Lexer.start.read before) after = true :=
    fun before after htext => Lexer.of_states hcheck htext
  simp only [layoutCheck, Bool.and_eq_true] at hplace
  have hslashes : "//".toList = ['/', '/'] := by decide
  refine ⟨?_, ?_, ?_, ?_⟩
  · intro before after htext hcode
    have hlocator := (hplace before _ htext).1.2
    rw [hcode, hslashes] at hlocator
    exact exists_place_of_check hlocator
  · intro before after htext hmode
    have hdirective := (hplace before _ htext).2
    rw [hmode, List.head?_cons, bne_self_eq_false, bne_self_eq_false, Bool.false_or,
      Bool.false_or, List.all_eq_true] at hdirective
    obtain ⟨following, heq, hends, hnewline⟩ := exists_line after
    refine ⟨_, following, heq, hnewline, hends, ?_⟩
    rintro keyword (rfl | rfl)
    · exact of_decide_eq_true (hdirective _ (.head _))
    · exact of_decide_eq_true (hdirective _ (.tail _ (.head _)))
  · intro before name after gap hname htext hcode hword
    exact reserved_of_check hname (hplace before _ htext).1.1 hcode hword
  · intro front first middle second back heq hfirst hsecond
    exact ended_of_check hended heq hfirst hsecond

end FaultInjection
