import Mathlib.Algebra.GroupWithZero.Nat
import FaultInjection.Design.ParseFile
import FaultInjection.Emission.Statement

/-!
# Declarations

A module whose text is a row of printed declarations, one a line, and the wires
that `extract_wires` reads from it.
-/

namespace FaultInjection

open Regex Regex.Pattern Text

section Declared

variable [UnicodeData]

inductive DeclarationWord where
  | wire
  | reg
  deriving DecidableEq, Repr

def DeclarationWord.text : DeclarationWord → Text
  | .wire => "wire"
  | .reg => "reg"

/-- What a declaration says, and the comment behind it. -/
structure Declaration where
  keyword : DeclarationWord
  bounds : Option (Nat × Nat)
  name : Text
  value : Option Text
  locator : Option Text
  ordered : ∀ high low, bounds = .some (high, low) → low ≤ high
  isName : IsName name
  value_closed : ∀ expression, value = .some expression → ';' ∉ expression
  locator_closed : ∀ place, locator = .some place → ']' ∉ place

/-! ## Printing -/

namespace Declaration

theorem blank_space : ∀ c ∈ [' '], isSpace c = true := by
  intro c hc
  rw [List.mem_singleton.mp hc]
  exact isSpace_blank

variable (declaration : Declaration)

/-- The blanks and the bounds between the keyword and the name. -/
def gap : Gap where
  first := [' ']
  bounds := declaration.bounds.map fun bounds => (decimal bounds.1, decimal bounds.2)
  last := [' ']
  first_ne_nil := List.cons_ne_nil _ _
  first_space := blank_space
  last_space := blank_space
  number := by
    intro high low heq
    obtain ⟨bounds, -, hbounds⟩ := Option.map_eq_some_iff.mp heq
    cases hbounds
    exact ⟨⟨decimal_ne_nil _, fun c hc => isDigit_of_decimal hc⟩, decimal_ne_nil _,
      fun c hc => isDigit_of_decimal hc⟩

theorem gap_bounds : declaration.gap.bounds =
    declaration.bounds.map fun bounds => (decimal bounds.1, decimal bounds.2) := rfl

/-- A semicolon, or an equals sign and a value in front of it. -/
def ending : Text :=
  match declaration.value with
  | none => [';']
  | .some expression => " = " ++ (expression ++ [';'])

def comment : Text :=
  match declaration.locator with
  | none => []
  | .some place => " // @[" ++ (place ++ [']'])

def statement : Text :=
  declaration.keyword.text ++ (declaration.gap.text ++ (declaration.name ++
    (declaration.ending ++ declaration.comment)))

/-- A declaration on a line of its own. -/
def line : Text := "  " ++ (declaration.statement ++ ['\n'])

/-- The entry of `wires` for a declaration. -/
def wire : Wire :=
  ⟨declaration.keyword.text, declaration.bounds, declaration.name,
    declaration.locator.getD []⟩

/-- The match of a declaration that is read as it is printed. -/
def found (rest : Text) : Match Char where
  taken := declaration.statement
  rest := rest
  groups := declaration.locator.toList.map (4, ·) ++ [(3, declaration.name)] ++
    (declaration.bounds.toList.map fun bounds =>
      (2, decimal bounds.1 ++ ':' :: decimal bounds.2)) ++ [(1, declaration.keyword.text)]

/-- A lower bound of one digit, and no empty value. -/
structure Readable : Prop where
  low : ∀ high low, declaration.bounds = .some (high, low) → low < 10
  value : declaration.value ≠ .some []

theorem matchAt_keyword (rest : Text) :
    matchAt (.group 1 (.alt (word "wire") (word "reg")))
        (declaration.keyword.text ++ rest) =
      .some ⟨declaration.keyword.text, rest, [(1, declaration.keyword.text)]⟩ := by
  rw [matchAt_group, matchAt_alt]
  cases declaration.keyword with
  | wire =>
      rw [DeclarationWord.text, matchAt_word_append]
      rfl
  | reg =>
      have hwire : matchAt (word "wire") ("reg".toList ++ rest) = none := rfl
      rw [DeclarationWord.text, matchAt_word_append, hwire]
      rfl

theorem low_length (readable : declaration.Readable) (high low : Text)
    (hbounds : declaration.gap.bounds = .some (high, low)) : low.length = 1 := by
  obtain ⟨bounds, hdeclared, heq⟩ := Option.map_eq_some_iff.mp hbounds
  cases heq
  rw [decimal, Nat.toDigits_of_lt_base (readable.low _ _ hdeclared)]
  rfl

theorem matchAt_name {rest : Text} (hrest : EndsRun isWord rest) :
    matchAt (.group 3 (some isWord)) (declaration.name ++ rest) =
      .some ⟨declaration.name, rest, [(3, declaration.name)]⟩ := by
  rw [matchAt_group, matchAt_some declaration.isName.ne_nil declaration.isName.word hrest]
  rfl

theorem endsRun_ending (rest : Text) : EndsRun isWord (declaration.ending ++ rest) := by
  unfold ending
  cases declaration.value with
  | none =>
      refine endsRun_cons.mpr ?_
      rw [isWord_ascii (by decide)]
      decide
  | some expression => exact endsRun_cons.mpr isWord_blank

theorem matchAt_ending (readable : declaration.Readable) (rest : Text) :
    matchAt (.alt (word ";") (chain [word " = ", someFew isAny, word ";"]))
        (declaration.ending ++ rest) =
      .some ⟨declaration.ending, rest, []⟩ := by
  rw [matchAt_alt]
  unfold ending
  cases hvalue : declaration.value with
  | none =>
      have hsemicolon : matchAt (word ";") ([';'] ++ rest) = .some ⟨[';'], rest, []⟩ :=
        matchAt_word_append ";".toList rest
      rw [hsemicolon, Option.some_or]
  | some expression =>
      obtain ⟨c, others, rfl⟩ := List.exists_cons_of_ne_nil
        fun hnil => readable.value (hnil ▸ hvalue)
      have hclosed := declaration.value_closed _ hvalue
      have hnone : matchAt (word ";") (" = ".toList ++ (c :: others ++ [';']) ++ rest) = none :=
        rfl
      have hany : ∀ c ∈ others, isAny c = true := fun _ _ => rfl
      have hfew := matchAt_few_word rest hany
        (endsFirst_of_not_mem fun hmem => hclosed (.tail _ hmem))
      have hvalueText : matchAt (.seq (someFew isAny) (word ";")) (c :: (others ++ ([';'] ++ rest))) =
          .some ⟨c :: (others ++ [';']), rest, []⟩ := by
        have hsemicolon : ";".toList = [';'] := by decide
        rw [hsemicolon, matchAt_someFew_word, hfew]
        rfl
      have hall := matchAt_seq_of_first (matchAt_word_append " = ".toList _) hvalueText
      have hinput : " = ".toList ++ (c :: others ++ [';']) ++ rest =
          " = ".toList ++ (c :: (others ++ ([';'] ++ rest))) := by
        simp
      rw [hnone, Option.none_or, chain, chain, chain, hinput, hall]
      simp [Match.after]

theorem matchAt_comment (rest : Text) :
    matchAt (maybe (chain [word " // @[", .group 4 (.few isAny), word "]"]))
        (declaration.comment ++ '\n' :: rest) =
      .some ⟨declaration.comment, '\n' :: rest, declaration.locator.toList.map (4, ·)⟩ := by
  rw [maybe, matchAt_alt]
  unfold comment
  cases hlocator : declaration.locator with
  | none =>
      have hnone : matchAt (chain [word " // @[", .group 4 (.few isAny), word "]"])
          ('\n' :: rest) = none := rfl
      rw [List.nil_append, hnone, Option.none_or]
      rfl
  | some place =>
      have hclosed := declaration.locator_closed _ hlocator
      have hplace : matchAt (.seq (.group 4 (.few isAny)) (.word [']'])) (place ++ ']' :: '\n' :: rest) =
          .some ⟨place ++ [']'], '\n' :: rest, [(4, place)]⟩ :=
        matchAt_group_few_one ('\n' :: rest) (fun _ _ => rfl) hclosed
      have hall := matchAt_seq_of_first (matchAt_word_append " // @[".toList _) hplace
      have hbracket : "]".toList = [']'] := by decide
      rw [chain, chain, chain, hbracket, List.append_assoc, List.append_assoc, List.singleton_append,
        hall, Option.some_or]
      rfl

/-- A printed statement is read whole, whatever follows its line. -/
theorem matchAt_statement (readable : declaration.Readable) (rest : Text) :
    matchAt declarationPattern (declaration.statement ++ '\n' :: rest) =
      .some (declaration.found ('\n' :: rest)) := by
  have hname : ∀ following : Text,
      ∀ c ∈ (declaration.name ++ following).head?, isWord c = true := by
    intro following c hc
    obtain ⟨first, others, heq⟩ := List.exists_cons_of_ne_nil declaration.isName.ne_nil
    rw [heq] at hc
    cases hc
    exact declaration.isName.word c (heq ▸ .head _)
  have hall := matchAt_seq_of_first (declaration.matchAt_keyword _)
    (matchAt_seq_of_first
      (declaration.gap.matchAt_text 2 (declaration.low_length readable) (hname _))
      (matchAt_seq_of_first (declaration.matchAt_name (declaration.endsRun_ending _))
        (matchAt_seq_of_first (declaration.matchAt_ending readable _)
          (declaration.matchAt_comment rest))))
  have hinput : declaration.statement ++ '\n' :: rest =
      declaration.keyword.text ++ (declaration.gap.text ++ (declaration.name ++
        (declaration.ending ++ (declaration.comment ++ '\n' :: rest)))) := by
    simp only [statement, List.append_assoc]
  have hbounds : (declaration.gap.bounds.toList.map fun bounds =>
        (2, bounds.1 ++ ':' :: bounds.2)) =
      declaration.bounds.toList.map fun bounds =>
        (2, decimal bounds.1 ++ ':' :: decimal bounds.2) := by
    rw [gap_bounds]
    cases declaration.bounds <;> rfl
  rw [hinput, declarationPattern, chain, chain, chain, chain, chain, hall, hbounds]
  simp only [Match.after, found, statement, List.append_nil]

theorem make_found (rest : Text) :
    Wire.make ((declaration.found rest).group 1) ((declaration.found rest).group 2)
        ((declaration.found rest).group 3) ((declaration.found rest).group 4) =
      declaration.wire := by
  have hkeyword : (declaration.found rest).group 1 = declaration.keyword.text := by
    unfold Match.group found
    cases declaration.bounds <;> cases declaration.locator <;> rfl
  have hname : (declaration.found rest).group 3 = declaration.name := by
    unfold Match.group found
    cases declaration.bounds <;> cases declaration.locator <;> rfl
  have hlocator : (declaration.found rest).group 4 = declaration.locator.getD [] := by
    unfold Match.group found
    cases declaration.bounds <;> cases declaration.locator <;> rfl
  have hbounds : (declaration.found rest).group 2 = ((declaration.bounds.map fun bounds =>
      decimal bounds.1 ++ ':' :: decimal bounds.2).getD []) := by
    unfold Match.group found
    cases declaration.bounds <;> cases declaration.locator <;> rfl
  rw [hkeyword, hname, hlocator, hbounds, Wire.make, wire]
  cases declaration.bounds with
  | none => rfl
  | some bounds =>
      have hne : decimal bounds.1 ++ ':' :: decimal bounds.2 ≠ [] :=
        List.append_ne_nil_of_right_ne_nil _ (List.cons_ne_nil _ _)
      rw [Option.map_some, Option.getD_some, if_neg hne,
        split_bounds (fun c hc => isDigit_of_decimal hc) (fun c hc => isDigit_of_decimal hc)]
      simp only [List.getD_cons_zero, List.getD_cons_succ, int_decimal]

end Declaration

theorem declarationPattern_productive : Productive declarationPattern := by
  have hwire : "wire".toList.isEmpty = false := by decide
  have hreg : "reg".toList.isEmpty = false := by decide
  apply productive_of_not_nullable
  rw [declarationPattern, chain, nullable, nullable, nullable, nullable_word, nullable_word, hwire,
    hreg, Bool.or_self, Bool.false_and]

theorem matchAt_declarationPattern_ne {c : Char} (hwire : c ≠ 'w') (hreg : c ≠ 'r')
    (rest : Text) : matchAt declarationPattern (c :: rest) = none := by
  have hnone : ∀ {first : Char} {text : Text}, c ≠ first →
      readings (.word (first :: text)) (c :: rest) = [] := by
    intro first text hne
    rw [readings_word_eq_nil_iff]
    rintro ⟨left, hleft⟩
    rw [List.cons_append, List.cons.injEq] at hleft
    exact hne hleft.1.symm
  have htexts : "wire".toList = ['w', 'i', 'r', 'e'] ∧ "reg".toList = ['r', 'e', 'g'] := by
    decide +kernel
  rw [declarationPattern, chain, htexts.1, htexts.2]
  apply matchAt_seq_none
  rw [readings, readings, hnone hwire, hnone hreg]
  rfl

def printed (declarations : List Declaration) : Text := declarations.flatMap Declaration.line

theorem findall_line {declaration : Declaration} (readable : declaration.Readable) (rest : Text) :
    findall declarationPattern (declaration.line ++ rest) =
      declaration.found ('\n' :: rest) :: findall declarationPattern rest := by
  have hblank : ∀ following, matchAt declarationPattern (' ' :: following) = none :=
    matchAt_declarationPattern_ne (by decide) (by decide)
  have hindent : Clear declarationPattern "  " (declaration.statement ++ '\n' :: rest) :=
    Clear.cons_iff.mpr ⟨hblank _, Clear.cons_iff.mpr ⟨hblank _, Clear.nil _ _⟩⟩
  have hnewline : Clear declarationPattern ['\n'] rest :=
    Clear.cons_iff.mpr ⟨matchAt_declarationPattern_ne (by decide) (by decide) _, Clear.nil _ _⟩
  have hinput : declaration.line ++ rest = "  " ++ (declaration.statement ++ '\n' :: rest) := by
    simp only [Declaration.line, List.append_assoc, List.singleton_append]
  have hmatch := declaration.matchAt_statement readable rest
  rw [hinput, hindent.findall,
    findall_hit hmatch (declarationPattern_productive _ _ (mem_of_matchAt hmatch))]
  exact congrArg _ hnewline.findall

theorem extractWires_printed {declarations : List Declaration}
    (readable : ∀ declaration ∈ declarations, declaration.Readable) :
    extractWires (printed declarations) = declarations.map Declaration.wire := by
  induction declarations with
  | nil => rfl
  | cons declaration declarations ih =>
      have hrest := ih fun other hother => readable other (.tail _ hother)
      rw [extractWires] at hrest
      rw [extractWires, printed, List.flatMap_cons, findall_line (readable declaration (.head _)),
        List.map_cons, declaration.make_found, List.map_cons, ← hrest]
      rfl

/-! ## What is read -/

/-- A match of the pattern, cut into its parts. -/
structure ReadsDeclaration (m : Match Char) (keyword : Text) (gap : Gap)
    (name ending comment : Text) : Prop where
  taken : m.taken = keyword ++ (gap.text ++ (name ++ (ending ++ comment)))
  keyword_eq : keyword = "wire" ∨ keyword = "reg"
  isName : IsName name
  ending_eq : ending = [';'] ∨ ∃ value, value ≠ [] ∧ ending = " = ".toList ++ (value ++ [';'])
  comment_eq : m.group 4 = [] ∨ comment = " // @[".toList ++ (m.group 4 ++ [']'])
  bounds_eq : m.group 2 =
    (gap.bounds.map fun bounds => bounds.1 ++ ':' :: bounds.2).getD []
  low_length : ∀ high low, gap.bounds = .some (high, low) → low.length = 1

theorem exists_readsDeclaration {input : Text} {m : Match Char}
    (hm : m ∈ readings declarationPattern input) :
    ∃ keyword gap name ending comment, ReadsDeclaration m keyword gap name ending comment := by
  have htexts : ";".toList = [';'] ∧ "]".toList = [']'] := by decide
  simp only [declarationPattern, chain, maybe, Pattern.some, someFew, mem_readings_group,
    mem_readings_seq, mem_readings_word, mem_readings_one, mem_readings_many, mem_readings_few,
    mem_readings_alt, mem_readings_empty] at hm
  obtain ⟨_, ⟨keyword, hkeyword, rfl⟩, _, ⟨middle, hgap, _, ⟨_, ⟨_, ⟨_, ⟨letter, _, -, hletter,
    rfl⟩, _, ⟨letters, _, -, hletters, rfl⟩, rfl⟩, rfl⟩, _, ⟨ending, hending, comment,
    hcomment, rfl⟩, rfl⟩, rfl⟩, rfl⟩ := hm
  obtain ⟨gap, hgapText, hgapGroups, hlow⟩ := exists_gap_of_reading hgap
  have hkeywordEq : (keyword.taken = "wire" ∨ keyword.taken = "reg") ∧ keyword.groups = [] := by
    rcases hkeyword with ⟨_, -, rfl⟩ | ⟨_, -, rfl⟩
    · exact ⟨Or.inl rfl, rfl⟩
    · exact ⟨Or.inr rfl, rfl⟩
  have hendingEq : (ending.taken = [';'] ∨
      ∃ value, value ≠ [] ∧ ending.taken = " = ".toList ++ (value ++ [';'])) ∧
        ending.groups = [] := by
    rcases hending with ⟨_, -, rfl⟩ | ⟨_, ⟨_, -, rfl⟩, _, ⟨_, ⟨_, ⟨c, _, -, -, rfl⟩, _,
      ⟨others, _, -, -, rfl⟩, rfl⟩, _, ⟨_, -, rfl⟩, rfl⟩, rfl⟩
    · exact ⟨Or.inl htexts.1, rfl⟩
    · refine ⟨Or.inr ⟨c :: others, List.cons_ne_nil _ _, ?_⟩, rfl⟩
      simp [htexts.1]
  have hcommentEq : comment.taken = [] ∧ comment.groups = [] ∨ ∃ place,
      comment.taken = " // @[".toList ++ (place ++ [']']) ∧ comment.groups = [(4, place)] := by
    rcases hcomment with ⟨_, ⟨_, -, rfl⟩, _, ⟨_, ⟨_, ⟨place, _, -, -, rfl⟩, rfl⟩, _, ⟨_, -, rfl⟩,
      rfl⟩, rfl⟩ | rfl
    · refine Or.inr ⟨place, ?_, rfl⟩
      simp [htexts.2]
    · exact Or.inl ⟨rfl, rfl⟩
  have hword : ∀ c ∈ letter :: letters, isWord c = true := by
    rintro c (_ | ⟨_, hc⟩)
    · exact hletter
    · exact hletters c hc
  refine ⟨keyword.taken, gap, letter :: letters, ending.taken, comment.taken, ?_, hkeywordEq.1,
    ⟨List.cons_ne_nil _ _, hword⟩, hendingEq.1, ?_, ?_, hlow⟩
  · simp [Match.after, Match.close, hgapText]
  · rcases hcommentEq with ⟨-, hgroups⟩ | ⟨place, htaken, hgroups⟩
    · refine Or.inl ?_
      simp only [Match.group, Match.after, Match.close, hgroups, hendingEq.2, hgapGroups,
        hkeywordEq.2]
      cases gap.bounds <;> rfl
    · refine Or.inr ?_
      simp only [Match.group, Match.after, Match.close, hgroups]
      exact htaken
  · simp only [Match.group, Match.after, Match.close, hendingEq.2, hgapGroups]
    rcases hcommentEq with ⟨-, hgroups⟩ | ⟨place, -, hgroups⟩
    · rw [hgroups, hkeywordEq.2]
      cases gap.bounds <;> rfl
    · rw [hgroups, hkeywordEq.2]
      cases gap.bounds <;> rfl

/-! ## Semicolons -/

theorem isWord_mark : isWord ';' = false ∧ isWord '=' = false := by
  refine ⟨?_, ?_⟩ <;> (rw [isWord_ascii (by decide)]; decide)

/-- What stands in front of the ending of a declaration has no semicolon and no equals
sign. -/
theorem front_not_mem {keyword name : Text} (hkeyword : keyword = "wire" ∨ keyword = "reg")
    (gap : Gap) (hname : IsName name) {c : Char} (hc : c = ';' ∨ c = '=') :
    c ∉ keyword ++ (gap.text ++ name) := by
  have hword : c ∉ keyword := by
    rcases hkeyword with rfl | rfl <;> rcases hc with rfl | rfl <;> decide
  have hgap : c ∉ gap.text := by
    rcases hc with rfl | rfl <;> exact gap.not_mem_text (by decide) (by decide)
  have hletters : c ∉ name := by
    rcases hc with rfl | rfl
    · exact hname.not_mem isWord_mark.1
    · exact hname.not_mem isWord_mark.2
  rw [List.mem_append, List.mem_append]
  rintro (hmem | hmem | hmem)
  · exact hword hmem
  · exact hgap hmem
  · exact hletters hmem

namespace ReadsDeclaration

variable {m : Match Char} {keyword name ending comment : Text} {gap : Gap}

theorem count_comment (reads : ReadsDeclaration m keyword gap name ending comment) :
    (m.group 4).count ';' ≤ comment.count ';' := by
  rcases reads.comment_eq with hnone | hcomment
  · rw [hnone]
    exact Nat.zero_le _
  · rw [hcomment, List.count_append, List.count_append]
    omega

theorem count_le (reads : ReadsDeclaration m keyword gap name ending comment) :
    (m.group 4).count ';' + 1 ≤ m.taken.count ';' := by
  have hcomment := reads.count_comment
  have hending : 1 ≤ ending.count ';' := by
    rcases reads.ending_eq with rfl | ⟨value, -, rfl⟩
    · exact Nat.le_refl _
    · simp only [List.count_append, List.count_singleton_self]
      omega
  simp only [reads.taken, List.count_append]
  omega

/-- A match that takes a semicolon behind an equals sign and a blank takes another one. -/
theorem count_lt (reads : ReadsDeclaration m keyword gap name ending comment)
    {front following : Text} (hcut : m.taken ++ m.rest = front ++ ';' :: following)
    (hclosed : ';' ∉ front) (hlast : ∀ c ∈ front.getLast?, c = ' ')
    (hequals : ∀ before after, front = before ++ '=' :: after → after = [' ']) :
    (m.group 4).count ';' + 1 < m.taken.count ';' := by
  have hcomment := reads.count_comment
  have hsplit : ∀ {start rest : Text}, ';' ∉ start →
      start ++ ';' :: rest = front ++ ';' :: following → start = front := by
    intro start rest hstart heq
    have hother : ∀ {text : Text}, ';' ∉ text → ∀ c ∈ text, (c != ';') = true := by
      intro text htext c hc
      exact bne_iff_ne.mpr fun h => htext (h ▸ hc)
    exact (run_unique heq (hother hstart) (hother hclosed) (by simp) (by simp)).1
  have hfront := front_not_mem reads.keyword_eq gap reads.isName (Or.inl (Eq.refl ';'))
  rcases reads.ending_eq with hending | ⟨value, hne, hending⟩
  · -- a statement without a value ends with its name
    have htaken : (keyword ++ (gap.text ++ name)) ++ ';' :: (comment ++ m.rest) =
        front ++ ';' :: following := by
      rw [← hcut, reads.taken, hending]
      simp
    have hname : name.getLast? = front.getLast? := by
      rw [← hsplit hfront htaken, ← List.append_assoc,
        List.getLast?_append_of_ne_nil _ reads.isName.ne_nil]
    have hlastName := List.getLast?_eq_some_getLast reads.isName.ne_nil
    have hblank : name.getLast reads.isName.ne_nil = ' ' := hlast _ (hname ▸ hlastName)
    have hword := reads.isName.word _ (List.getLast_mem reads.isName.ne_nil)
    rw [hblank, isWord_blank] at hword
    cases hword
  · by_cases hvalue : ';' ∈ value
    · have hpos := List.count_pos_iff.mpr hvalue
      simp only [reads.taken, hending, List.count_append, List.count_singleton_self]
      omega
    · have hequal : " = ".toList = [' ', '=', ' '] := by decide
      have hstart : ';' ∉ (keyword ++ (gap.text ++ name)) ++ ' ' :: '=' :: ' ' :: value := by
        rw [List.mem_append]
        rintro (hmem | hmem)
        · exact hfront hmem
        · simp [hvalue] at hmem
      have htaken : ((keyword ++ (gap.text ++ name)) ++ ' ' :: '=' :: ' ' :: value) ++
          ';' :: (comment ++ m.rest) = front ++ ';' :: following := by
        rw [← hcut, reads.taken, hending, hequal]
        simp
      have heq := hsplit hstart htaken
      have hblank := hequals ((keyword ++ (gap.text ++ name)) ++ [' ']) (' ' :: value)
        (by rw [← heq]; simp)
      exact absurd (List.cons.inj hblank).2 hne

end ReadsDeclaration

/-- How many semicolons a row of entries with these locators needs at least. -/
def semicolons (locators : List Text) : Nat :=
  (locators.map fun place => place.count ';' + 1).sum

def locators (text : Text) : List Text :=
  (findall declarationPattern text).map fun m => m.group 4

theorem locators_hit {text : Text} {m : Match Char}
    (hm : matchAt declarationPattern text = .some m) :
    locators text = m.group 4 :: locators m.rest := by
  rw [locators, findall_hit hm (declarationPattern_productive _ _ (mem_of_matchAt hm))]
  rfl

theorem locators_skip {c : Char} {rest : Text}
    (hnone : matchAt declarationPattern (c :: rest) = none) :
    locators (c :: rest) = locators rest := by
  rw [locators, findall, scan_skip hnone]
  rfl

omit [UnicodeData] in
theorem semicolons_cons (place : Text) (places : List Text) :
    semicolons (place :: places) = place.count ';' + 1 + semicolons places := by
  rw [semicolons, List.map_cons, List.sum_cons, ← semicolons]

theorem semicolons_locators_le (text : Text) :
    semicolons (locators text) ≤ text.count ';' := by
  induction text using scan_induction declarationPattern_productive with
  | nil => exact Nat.le_refl _
  | skip c rest hnone ih =>
      rw [locators_skip hnone]
      exact Nat.le_trans ih (List.count_le_count_cons)
  | hit text m hm hne ih =>
      have hreading := mem_of_matchAt hm
      obtain ⟨_, _, _, _, _, reads⟩ := exists_readsDeclaration hreading
      have hcount := congrArg (List.count ';') (taken_append_rest hreading)
      have hle := reads.count_le
      rw [List.count_append] at hcount
      rw [locators_hit hm, semicolons_cons]
      omega

/-- A semicolon behind an equals sign and a blank ends no entry. -/
theorem semicolons_locators_lt {front : Text} (following : Text) (hclosed : ';' ∉ front)
    (hlast : ∀ c ∈ front.getLast?, c = ' ')
    (hequals : ∀ before after, front = before ++ '=' :: after → after = [' ']) :
    semicolons (locators (front ++ ';' :: following)) < following.count ';' + 1 := by
  induction front with
  | nil =>
      have hnone := matchAt_declarationPattern_ne (c := ';') (by decide) (by decide) following
      rw [List.nil_append, locators_skip hnone]
      exact Nat.lt_succ_of_le (semicolons_locators_le following)
  | cons c front ih =>
      cases hmatch : matchAt declarationPattern (c :: (front ++ ';' :: following)) with
      | none =>
          rw [List.cons_append, locators_skip hmatch]
          refine ih (fun hmem => hclosed (.tail _ hmem)) (fun d hd => hlast d ?_)
            (fun before after heq => hequals (c :: before) after (congrArg (c :: ·) heq))
          rw [← List.singleton_append, List.getLast?_append, hd, Option.some_or]
          rfl
      | some m =>
          have hreading := mem_of_matchAt hmatch
          have hcut := taken_append_rest hreading
          obtain ⟨_, _, _, _, _, reads⟩ := exists_readsDeclaration hreading
          have hlost := reads.count_lt hcut hclosed hlast hequals
          have hcount := congrArg (List.count ';') hcut
          have hfront := List.count_eq_zero_of_not_mem hclosed
          have hrest := semicolons_locators_le m.rest
          rw [List.count_append, ← List.cons_append, List.count_append, hfront,
            List.count_cons_self] at hcount
          rw [List.cons_append, locators_hit hmatch, semicolons_cons]
          omega

/-! ## The text of declarations -/

namespace Declaration

theorem keyword_eq (declaration : Declaration) :
    declaration.keyword.text = "wire" ∨ declaration.keyword.text = "reg" := by
  cases declaration.keyword
  · exact Or.inl rfl
  · exact Or.inr rfl

/-- The indentation, the keyword, the gap and the name. -/
def front (declaration : Declaration) : Text :=
  "  " ++ (declaration.keyword.text ++ (declaration.gap.text ++ declaration.name))

theorem line_eq (declaration : Declaration) : declaration.line =
    declaration.front ++ (declaration.ending ++ (declaration.comment ++ ['\n'])) := by
  simp only [line, statement, front, List.append_assoc]

theorem mark_not_mem_front (declaration : Declaration) {c : Char} (hc : c = ';' ∨ c = '=') :
    c ∉ declaration.front := by
  have hindent : c ∉ "  ".toList := by
    rcases hc with rfl | rfl <;> decide
  rw [front, List.mem_append]
  rintro (hmem | hmem)
  · exact hindent hmem
  · exact front_not_mem declaration.keyword_eq declaration.gap declaration.isName hc hmem

theorem count_comment (declaration : Declaration) :
    declaration.comment.count ';' = (declaration.locator.getD []).count ';' := by
  have hopening : " // @[".toList.count ';' = 0 := by decide
  have hclosing : [']'].count ';' = 0 := by decide
  unfold comment
  cases declaration.locator with
  | none => rfl
  | some place =>
      rw [List.count_append, List.count_append, hopening, hclosing, Option.getD_some, Nat.zero_add,
        Nat.add_zero]

theorem count_ending (declaration : Declaration) : declaration.ending.count ';' = 1 := by
  have hequals : " = ".toList.count ';' = 0 := by decide
  unfold ending
  cases hvalue : declaration.value with
  | none => rfl
  | some expression =>
      have hnone := List.count_eq_zero_of_not_mem (declaration.value_closed _ hvalue)
      simp only [List.count_append, hequals, hnone, List.count_singleton_self]

theorem count_line (declaration : Declaration) :
    declaration.line.count ';' = (declaration.locator.getD []).count ';' + 1 := by
  have hfront := List.count_eq_zero_of_not_mem (declaration.mark_not_mem_front (Or.inl rfl))
  have hnewline : ['\n'].count ';' = 0 := by decide
  rw [line_eq, List.count_append, List.count_append, List.count_append, hfront, count_ending,
    count_comment, hnewline]
  omega

theorem semicolons_lt_of_value {declaration : Declaration} (hvalue : declaration.value = .some [])
    (rest : Text) :
    semicolons (locators (declaration.line ++ rest)) <
      declaration.line.count ';' + rest.count ';' := by
  have hequals : " = ".toList = [' ', '=', ' '] := by decide
  have hline : declaration.line = (declaration.front ++ [' ', '=', ' ']) ++
      ';' :: (declaration.comment ++ ['\n']) := by
    rw [line_eq, ending, hvalue, ← hequals]
    simp
  have hclosed : ';' ∉ declaration.front ++ [' ', '=', ' '] := by
    rw [List.mem_append]
    rintro (hmem | hmem)
    · exact declaration.mark_not_mem_front (Or.inl rfl) hmem
    · exact absurd hmem (by decide)
  have hlast : ∀ c ∈ (declaration.front ++ [' ', '=', ' ']).getLast?, c = ' ' := by
    intro c hc
    rw [List.getLast?_append_of_ne_nil _ (List.cons_ne_nil _ _)] at hc
    cases hc
    rfl
  have honly : ∀ before after,
      declaration.front ++ [' ', '=', ' '] = before ++ '=' :: after → after = [' '] := by
    intro before after heq
    have hfront : '=' ∉ declaration.front ++ [' '] := by
      rw [List.mem_append]
      rintro (hmem | hmem)
      · exact declaration.mark_not_mem_front (Or.inr rfl) hmem
      · exact absurd hmem (by decide)
    have hsplit : (declaration.front ++ [' ']) ++ '=' :: [' '] = before ++ '=' :: after := by
      rw [← heq]
      simp
    exact ((List.append_cons_inj_of_notMem hfront (by decide)).mp hsplit).2.2.symm
  have hcount := congrArg (List.count ';') hline
  rw [List.count_append, List.count_eq_zero_of_not_mem hclosed, List.count_cons_self] at hcount
  have hlost := semicolons_locators_lt (declaration.comment ++ ['\n'] ++ rest) hclosed hlast honly
  rw [List.count_append] at hlost
  rw [hline, List.append_assoc, List.cons_append, ← hline, hcount]
  omega

end Declaration

theorem count_printed (declarations : List Declaration) :
    (printed declarations).count ';' =
      semicolons (declarations.map fun declaration => declaration.locator.getD []) := by
  induction declarations with
  | nil => rfl
  | cons declaration declarations ih =>
      rw [printed, List.flatMap_cons, List.count_append, ← printed, ih, declaration.count_line,
        List.map_cons, semicolons_cons]

theorem low_lt_ten (hvalue : ∀ c, isDigit c = true → UnicodeData.decimalValue c < 10)
    {text : Text} {wire : Wire} (hwire : wire ∈ extractWires text) {high low : Nat}
    (hbounds : wire.bounds = .some (high, low)) : low < 10 := by
  obtain ⟨m, hm, rfl⟩ := List.mem_map.mp hwire
  obtain ⟨_, following, -, hmatch⟩ := exists_of_mem_findall declarationPattern_productive hm
  obtain ⟨_, gap, _, _, _, reads⟩ := exists_readsDeclaration (mem_of_matchAt hmatch)
  cases hgap : gap.bounds with
  | none =>
      rw [Wire.make, if_pos (by rw [reads.bounds_eq, hgap]; rfl)] at hbounds
      cases hbounds
  | some bounds =>
      obtain ⟨highText, lowText⟩ := bounds
      obtain ⟨⟨-, hhigh⟩, -, hlow⟩ := gap.number _ _ hgap
      obtain ⟨digit, rfl⟩ := List.length_eq_one_iff.mp (reads.low_length _ _ hgap)
      have htext : m.group 2 = highText ++ ':' :: [digit] := by
        rw [reads.bounds_eq, hgap]
        rfl
      have hne : m.group 2 ≠ [] :=
        htext ▸ List.append_ne_nil_of_right_ne_nil _ (List.cons_ne_nil _ _)
      rw [Wire.make, if_neg hne, htext, split_bounds hhigh hlow, Option.some.injEq,
        Prod.mk.injEq] at hbounds
      rw [← hbounds.2]
      have hdigit := hvalue digit (hlow digit (.head _))
      simpa [int] using hdigit

/-- The wires read are the ones declared, and the two checks answer by them. -/
structure Extracted (declarations : List Declaration) : Prop where
  wires : extractWires (printed declarations) = declarations.map Declaration.wire
  isValidWire : ∀ type module, Module.make type (printed declarations) = .ok module →
    ∀ name, module.isValidWire name = true ↔
      ∃ declaration ∈ declarations, declaration.name = name
  checkWireBit : ∀ type module, Module.make type (printed declarations) = .ok module →
    ∀ name bit, module.checkWireBit name bit =
      (declarations.find? fun declaration => declaration.name == name).map fun declaration =>
        match declaration.bounds with
        | none => true
        | .some (high, low) => decide (low ≤ bit ∧ bit ≤ high)

theorem extracted_of_wires {declarations : List Declaration}
    (hwires : extractWires (printed declarations) = declarations.map Declaration.wire) :
    Extracted declarations := by
  have hmade : ∀ type module, Module.make type (printed declarations) = .ok module →
      module.wires = declarations.map Declaration.wire := by
    intro type module hmake
    unfold Module.make at hmake
    split at hmake
    · cases hmake
    · cases hmake
      exact hwires
  have hvalid : ∀ type module, Module.make type (printed declarations) = .ok module →
      ∀ name, module.isValidWire name = true ↔
        ∃ declaration ∈ declarations, declaration.name = name := by
    intro type module hmake name
    rw [Module.isValidWire, hmade type module hmake, List.any_map, List.any_eq_true]
    simp only [Function.comp_apply, Declaration.wire, beq_iff_eq]
  refine ⟨hwires, hvalid, fun type module hmake name bit => ?_⟩
  have hfind : module.wires.find? (fun wire => wire.name == name) =
      (declarations.find? fun declaration => declaration.name == name).map Declaration.wire := by
    rw [hmade type module hmake, List.find?_map]
    rfl
  rw [Module.checkWireBit, hfind]
  split
  · rw [Option.map_map]
    congr 1
    funext declaration
    simp only [Function.comp_apply, Declaration.wire]
    cases declaration.bounds with
    | none => rfl
    | some bounds => simp [and_comm]
  · rename_i hinvalid
    have hnone : declarations.find? (fun declaration => declaration.name == name) = none := by
      rw [List.find?_eq_none]
      intro declaration hmem hname
      exact hinvalid ((hvalid type module hmake name).mpr
        ⟨declaration, hmem, eq_of_beq hname⟩)
    rw [hnone]
    rfl

theorem map_chiselRef (text : Text) : (extractWires text).map Wire.chiselRef = locators text := by
  rw [extractWires, List.map_map, locators]
  refine List.map_congr_left fun m _ => ?_
  rw [Function.comp_apply, Wire.make]
  split <;> rfl

/-- Declarations that are read as they are printed have a lower bound of one digit and no
empty value. -/
theorem readable_of_wires (hvalue : ∀ c, isDigit c = true → UnicodeData.decimalValue c < 10)
    {declarations : List Declaration}
    (hwires : extractWires (printed declarations) = declarations.map Declaration.wire) :
    ∀ declaration ∈ declarations, declaration.Readable := by
  induction declarations with
  | nil =>
      intro declaration hmem
      cases hmem
  | cons declaration declarations ih =>
      have hreadable : declaration.Readable := by
        refine ⟨fun high low hbounds => ?_, fun hempty => ?_⟩
        · have hmem : declaration.wire ∈ extractWires (printed (declaration :: declarations)) := by
            rw [hwires]
            exact .head _
          exact low_lt_ten hvalue hmem hbounds
        · have hlost := Declaration.semicolons_lt_of_value hempty (printed declarations)
          have hplaces := map_chiselRef (printed (declaration :: declarations))
          rw [hwires, List.map_map] at hplaces
          have hcount : (printed (declaration :: declarations)).count ';' =
              semicolons (locators (printed (declaration :: declarations))) := by
            rw [count_printed, ← hplaces]
            rfl
          rw [printed, List.flatMap_cons, List.count_append, ← printed] at hcount
          exact absurd hcount (Nat.ne_of_gt hlost)
      have hrest : extractWires (printed declarations) = declarations.map Declaration.wire := by
        rw [extractWires, printed, List.flatMap_cons, findall_line hreadable, List.map_cons,
          List.map_cons] at hwires
        exact (List.cons.inj hwires).2
      intro other hother
      rcases List.mem_cons.mp hother with rfl | hother
      · exact hreadable
      · exact ih hrest other hother

/--
The wires of printed declarations are read back exactly when every lower bound has one digit
and no value is empty.
-/
theorem extracted_iff (hvalue : ∀ c, isDigit c = true → UnicodeData.decimalValue c < 10)
    (declarations : List Declaration) :
    Extracted declarations ↔ ∀ declaration ∈ declarations, declaration.Readable := by
  constructor
  · intro extracted
    exact readable_of_wires hvalue extracted.wires
  · intro readable
    exact extracted_of_wires (extractWires_printed readable)

end Declared

section Samples

attribute [local instance] UnicodeData.ascii

theorem decimalValue_lt_ten (c : Char) (hc : isDigit c = true) :
    UnicodeData.decimalValue c < 10 := by
  have hdigit : c.isDigit = true := hc
  have hhigh : c.val ≤ 57 := (Bool.and_eq_true_iff.mp hdigit).2 |> of_decide_eq_true
  have hle : c.toNat ≤ 57 := UInt32.le_iff_toNat_le.mp hhigh
  have hvalue : UnicodeData.decimalValue c = c.toNat - 48 := rfl
  omega

/-- `wire  slt = io_a < io_b; // @[alu.scala 12:3]` -/
def sltDeclaration : Declaration where
  keyword := .wire
  bounds := none
  name := "slt"
  value := .some "io_a < io_b".toList
  locator := .some "alu.scala 12:3".toList
  ordered := by
    intro high low heq
    cases heq
  isName := isName_of_ascii (by decide) (by decide)
  value_closed := by
    intro expression heq
    cases heq
    decide +kernel
  locator_closed := by
    intro place heq
    cases heq
    decide +kernel

/-- A register of the given bounds, without a value and without a comment. -/
def fieldDeclaration (high low : Nat) (hle : low ≤ high) : Declaration where
  keyword := .reg
  bounds := .some (high, low)
  name := "field"
  value := none
  locator := none
  ordered := by
    intro high low heq
    cases heq
    exact hle
  isName := isName_of_ascii (by decide) (by decide)
  value_closed := by
    intro expression heq
    cases heq
  locator_closed := by
    intro place heq
    cases heq

theorem extracted_iff_field :
    Extracted [sltDeclaration, fieldDeclaration 15 8 (by decide)] := by
  refine (extracted_iff decimalValue_lt_ten _).mpr ?_
  intro declaration hmem
  simp only [List.mem_cons, List.not_mem_nil, or_false] at hmem
  rcases hmem with rfl | rfl
  · refine ⟨fun high low heq => ?_, by decide⟩
    cases heq
  · refine ⟨fun high low heq => ?_, by decide⟩
    cases heq
    decide

/-- The declaration `reg [15:10] field;` is not found. -/
theorem fieldDeclaration_dropped :
    extractWires (printed [fieldDeclaration 15 10 (by decide)]) = [] ∧
      ¬ Extracted [fieldDeclaration 15 10 (by decide)] := by
  have hnone : extractWires (printed [fieldDeclaration 15 10 (by decide)]) = [] := by
    decide +kernel
  refine ⟨hnone, fun extracted => ?_⟩
  have hwires := extracted.wires
  rw [hnone] at hwires
  cases hwires

end Samples

end FaultInjection
