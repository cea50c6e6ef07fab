import FaultInjection.Emission.Statement
import FaultInjection.Traversal.Rewiring

/-!
# The header of a rewritten module

A module with faults gets a new type and fault ports by a substitution for its
header.  Layouts of a header, what the substitution makes of them, and the rewritings
of a module that leave its header and its ports alone until then.
-/

namespace FaultInjection

open Regex Regex.Pattern Text

section Headers

variable [UnicodeData]

omit [UnicodeData] in
theorem isAlphanum_of_mem_hexdigest {text : Text} {c : Char} (hc : c ∈ Sha256.hexdigest text) :
    c.isAlphanum = true := by
  have hcases : (c.isUpper || c.isLower || c.isDigit) = true := by
    have hdigit := Sha256.isHexDigit_of_mem_hexdigest hc
    rw [Sha256.isHexDigit, Bool.or_eq_true, Bool.and_eq_true, decide_eq_true_eq,
      decide_eq_true_eq] at hdigit
    rcases hdigit with hdigit | ⟨hlow, hhigh⟩
    · rw [hdigit, Bool.or_true]
    · have hlower : c.isLower = true :=
        Bool.and_eq_true_iff.mpr ⟨decide_eq_true hlow,
          decide_eq_true (UInt32.le_trans hhigh (by decide))⟩
      rw [hlower, Bool.or_true, Bool.true_or]
  exact hcases

theorem isName_hexdigest (text : Text) : IsName (Sha256.hexdigest text) := by
  have hlength := Sha256.length_hexdigest text
  refine isName_of_ascii ?_ (List.all_eq_true.mpr fun c hc => ?_)
  · rintro hnil
    rw [hnil] at hlength
    cases hlength
  · have halnum := isAlphanum_of_mem_hexdigest hc
    have hbound := (toNat_of_isAlphanum halnum).2
    rw [halnum, Bool.true_or, Bool.and_true, decide_eq_true_eq]
    omega

theorem isName_newModuleType {type : Text} (htype : IsName type) (moduleText : Text) :
    IsName (newModuleType type moduleText) := by
  have hline : ∀ c ∈ "_".toList, isWord c = true :=
    (isName_of_ascii (by decide) (by decide)).word
  refine ⟨?_, fun c hc => ?_⟩
  · rw [newModuleType]
    exact List.append_ne_nil_of_left_ne_nil (List.append_ne_nil_of_left_ne_nil htype.ne_nil _) _
  · rw [newModuleType, List.mem_append, List.mem_append] at hc
    rcases hc with (hc | hc) | hc
    · exact htype.word c hc
    · exact hline c hc
    · exact (isName_hexdigest moduleText).word c hc

omit [UnicodeData] in
theorem newModuleType_ne {type : Text} (moduleText : Text) :
    newModuleType type moduleText ≠ type := by
  intro heq
  have hlength := congrArg List.length heq
  rw [newModuleType, List.length_append, Sha256.length_hexdigest] at hlength
  simp only [List.length_append] at hlength
  omega

omit [UnicodeData] in
theorem backslash_not_mem_faultIoBounds (count : Nat) : '\\' ∉ faultIoBounds count := by
  have hdecimal : '\\' ∉ decimal (count - 1) := fun hmem =>
    absurd (isDigit_of_mem_decimal hmem) (by decide)
  have hliterals : '\\' ∉ "[".toList ∧ '\\' ∉ ":0]".toList := by decide
  unfold faultIoBounds
  split
  · exact List.not_mem_nil
  · rw [List.mem_append, List.mem_append, not_or, not_or]
    exact ⟨⟨hliterals.1, hdecimal⟩, hliterals.2⟩

omit [UnicodeData] in
theorem backslash_not_mem_faultPorts (count : Nat) : '\\' ∉ faultPorts count := by
  have hliterals : '\\' ∉ "\tinput\t\t".toList ∧ '\\' ∉ "\tfault_inputs,\n\toutput\t\t".toList ∧
      '\\' ∉ "\tfault_outputs,\n".toList := by
    decide +kernel
  have hbounds := backslash_not_mem_faultIoBounds count
  unfold faultPorts
  simp only [List.mem_append, not_or]
  exact ⟨⟨⟨⟨hliterals.1, hbounds⟩, hliterals.2.1⟩, hbounds⟩, hliterals.2.2⟩

omit [UnicodeData] in
theorem exists_faultPorts (count : Nat) :
    ∃ ports, faultPorts count = '\t' :: 'i' :: ports := by
  have hports : "\tinput\t\t".toList = '\t' :: 'i' :: "nput\t\t".toList := by decide
  unfold faultPorts
  rw [hports]
  simp only [List.cons_append]
  exact ⟨_, rfl⟩

/-! ## The template -/

/-- The replacement string for a header. -/
def headerTemplate (newType : Text) (count : Nat) : Text :=
  '\\' :: '1' :: (newType ++ '\\' :: '2' :: faultPorts count)

theorem rewriteHeader_none (type newType : Text) (count : Nat) (moduleText : Text) :
    rewriteHeader type newType count none moduleText =
      Template.resub (headerPattern type) 2 (headerTemplate newType count) moduleText := by
  have hone : "\\1".toList = ['\\', '1'] ∧ "\\2".toList = ['\\', '2'] := by decide
  show Template.resub _ 2 _ moduleText = _
  rw [hone.1, hone.2, headerTemplate]
  simp only [List.cons_append, List.nil_append, List.append_assoc]

theorem parse_headerTemplate {c d : Char} {others : Text} (hname : IsName (c :: d :: others))
    (hc : c.isDigit = false) (count : Nat) :
    Template.parse 2 (headerTemplate (c :: d :: others) count) =
      .ok (.reference 1 :: ((c :: d :: others).map .literal ++
        .reference 2 :: (faultPorts count).map .literal)) := by
  have hplain := backslash_not_mem_faultPorts count
  obtain ⟨ports, hports⟩ := exists_faultPorts count
  rw [hports] at hplain
  rw [headerTemplate, hports]
  exact Template.parse_references (Nat.le_refl 2) hc (by decide) (backslash_not_mem hname) hplain

/-- A type that begins with a digit runs into the reference in front of it. -/
theorem parse_headerTemplate_digit {c d : Char} {others : Text} (hname : IsName (c :: d :: others))
    (hc : c.isDigit = true) (count : Nat) {parts : List Template.Part}
    (hparse : Template.parse 2 (headerTemplate (c :: d :: others) count) = .ok parts) :
    (Template.isOctal c = true ∧ Template.isOctal d = true) ∧ ∃ control,
      parts = .literal control :: (others.map .literal ++
        .reference 2 :: (faultPorts count).map .literal) := by
  obtain ⟨hoctal, fuel, control, left, hfuel, hleft, rfl⟩ :=
    Template.octal_of_parse (by decide) hc hparse
  have hplain := backslash_not_mem_faultPorts count
  have hothers := backslash_not_mem hname
  rw [List.mem_cons, List.mem_cons, not_or, not_or] at hothers
  obtain ⟨ports, hports⟩ := exists_faultPorts count
  rw [hports] at hplain hfuel hleft ⊢
  have hsecond := Template.parseItems_second (Nat.le_refl 2) (by decide) hothers.2.2 hplain hfuel
  cases hsecond.symm.trans hleft
  exact ⟨hoctal, control, rfl⟩

theorem exists_newModuleType {type : Text} (htype : IsName type) (moduleText : Text) :
    ∃ c d others, newModuleType type moduleText = c :: d :: others ∧ type.head? = .some c ∧
      64 ≤ others.length ∧ ((∃ rest, type = c :: d :: rest) ∨ d = '_') := by
  have hline : "_".toList = ['_'] := by decide
  have hlength := Sha256.length_hexdigest moduleText
  obtain ⟨c, rest, rfl⟩ := List.exists_cons_of_ne_nil htype.ne_nil
  cases rest with
  | nil =>
      refine ⟨c, '_', Sha256.hexdigest moduleText, ?_, rfl, Nat.le_of_eq hlength.symm, Or.inr rfl⟩
      rw [newModuleType, hline]
      rfl
  | cons d rest =>
      refine ⟨c, d, rest ++ '_' :: Sha256.hexdigest moduleText, ?_, rfl, ?_,
        Or.inl ⟨rest, rfl⟩⟩
      · rw [newModuleType, hline]
        simp
      · rw [List.length_append, List.length_cons, hlength]
        omega

theorem rewriteHeader_eq {type : Text} (htype : IsName type)
    (hletter : ∀ c ∈ type.head?, c.isDigit = false) (moduleText text : Text) (count : Nat) :
    rewriteHeader type (newModuleType type moduleText) count none text =
      .ok (sub (headerPattern type) (fun m => m.group 1 ++
        (newModuleType type moduleText ++ (m.group 2 ++ faultPorts count))) text) := by
  have hname := isName_newModuleType htype moduleText
  obtain ⟨c, d, others, hnew, hhead, -⟩ := exists_newModuleType htype moduleText
  rw [hnew] at hname ⊢
  rw [rewriteHeader_none, Template.resub, parse_headerTemplate hname (hletter c hhead)]
  refine congrArg Except.ok (congrArg (sub _ · text) (funext fun m => ?_))
  rw [Template.expand, List.flatMap_cons, List.flatMap_append, List.flatMap_cons,
    ← Template.expand, ← Template.expand, Template.expand_literal, Template.expand_literal]
  rfl

/-- When the type begins with a digit, the substitution returns only if the first two are octal,
and puts one character in their place. -/
theorem rewriteHeader_digit {type : Text} (htype : IsName type) {c : Char}
    (hhead : type.head? = .some c) (hdigit : c.isDigit = true) {moduleText text text' : Text}
    {count : Nat}
    (hrun : rewriteHeader type (newModuleType type moduleText) count none text = .ok text') :
    ∃ d rest control others, type = c :: d :: rest ∧
      (Template.isOctal c = true ∧ Template.isOctal d = true) ∧ 64 ≤ others.length ∧
        (∀ e ∈ others, isWord e = true) ∧ text' = sub (headerPattern type)
          (fun m => control :: (others ++ (m.group 2 ++ faultPorts count))) text := by
  have hname := isName_newModuleType htype moduleText
  obtain ⟨c', d, others, hnew, hhead', hlength, htail⟩ := exists_newModuleType htype moduleText
  rw [hhead, Option.some.injEq] at hhead'
  subst hhead'
  rw [hnew] at hname hrun
  rw [rewriteHeader_none] at hrun
  obtain ⟨parts, hparts, rfl⟩ := map_eq_ok.mp hrun
  obtain ⟨hoctal, control, rfl⟩ := parse_headerTemplate_digit hname hdigit count hparts
  obtain ⟨rest, htype'⟩ : ∃ rest, type = c :: d :: rest := by
    rcases htail with hrest | rfl
    · exact hrest
    · exact absurd hoctal.2 (by decide)
  refine ⟨d, rest, control, others, htype', hoctal, hlength,
    fun e he => hname.word e (.tail _ (.tail _ he)), ?_⟩
  refine congrArg (sub _ · text) (funext fun m => ?_)
  rw [Template.expand, List.flatMap_cons, List.flatMap_append, List.flatMap_cons,
    ← Template.expand, ← Template.expand, Template.expand_literal, Template.expand_literal]
  rfl

/-! ## Matches of the header -/

/-- Three words, the first and the last of them captured. -/
def threeWords (first middle last : Text) : Pattern Char :=
  .seq (.group 1 (word first)) (.seq (word middle) (.group 2 (word last)))

def threeMatch (first middle last rest : Text) : Match Char :=
  ⟨first ++ (middle ++ last), rest, [(2, last), (1, first)]⟩

section Words

variable {first middle last : Text}

omit [UnicodeData]

theorem matchAt_threeWords (rest : Text) :
    matchAt (threeWords first middle last) (first ++ (middle ++ last) ++ rest) =
      .some (threeMatch first middle last rest) := by
  have hopen : matchAt (.group 1 (word first)) (first ++ (middle ++ (last ++ rest))) =
      .some ⟨first, middle ++ (last ++ rest), [(1, first)]⟩ := by
    rw [matchAt_group, matchAt_word_append]
    rfl
  have hclose : matchAt (.group 2 (word last)) (last ++ rest) = .some ⟨last, rest, [(2, last)]⟩ := by
    rw [matchAt_group, matchAt_word_append]
    rfl
  rw [threeWords, List.append_assoc, List.append_assoc, matchAt_seq_of_first hopen
    (matchAt_seq_of_first (matchAt_word_append middle _) hclose)]
  rfl

theorem exists_of_matchAt_threeWords {input : Text} {m : Match Char}
    (hm : matchAt (threeWords first middle last) input = .some m) :
    ∃ rest, input = first ++ (middle ++ last) ++ rest ∧ m = threeMatch first middle last rest := by
  have hreading := mem_of_matchAt hm
  simp only [threeWords, mem_readings_group, mem_readings_seq, mem_readings_word] at hreading
  obtain ⟨_, ⟨_, ⟨left, rfl, rfl⟩, rfl⟩, _, ⟨_, ⟨left', hleft, rfl⟩, _,
    ⟨_, ⟨rest, hrest, rfl⟩, rfl⟩, rfl⟩, rfl⟩ := hreading
  have hmiddle : left = middle ++ left' := hleft
  have hlast : left' = last ++ rest := hrest
  have hinput : first ++ left = first ++ (middle ++ last) ++ rest := by
    rw [hmiddle, hlast, List.append_assoc, List.append_assoc]
  refine ⟨rest, hinput, ?_⟩
  rw [hinput, matchAt_threeWords, Option.some.injEq] at hm
  exact hm.symm

theorem threeWords_productive (hfirst : first ≠ []) : Productive (threeWords first middle last) := by
  obtain ⟨c, rest, rfl⟩ := List.exists_cons_of_ne_nil hfirst
  exact productive_of_not_nullable rfl

theorem threeWords_avoids {c : Char} (hfirst : c ∉ first) (hmiddle : c ∉ middle)
    (hlast : c ∉ last) : Avoids c (threeWords first middle last) :=
  ⟨avoids_word hfirst, avoids_word hmiddle, avoids_word hlast⟩

theorem matchAt_threeWords_none {input : Text}
    (hstarts : ¬ first ++ (middle ++ last) <+: input) :
    matchAt (threeWords first middle last) input = none := by
  cases hm : matchAt (threeWords first middle last) input with
  | none => rfl
  | some m =>
      obtain ⟨rest, rfl, -⟩ := exists_of_matchAt_threeWords hm
      exact absurd ⟨rest, rfl⟩ hstarts

/-- No match begins in a stretch that ends with another character exactly when it holds none. -/
theorem clear_threeWords_iff {c : Char} (hlast : ∀ d ∈ last.getLast?, d ≠ c) (hne : last ≠ [])
    {stretch : Text} : Clear (threeWords first middle last) (stretch ++ [c]) [] ↔
      ¬ first ++ (middle ++ last) <:+: stretch := by
  constructor
  · rintro hclear ⟨before, after, rfl⟩
    have hnone := hclear before (first ++ (middle ++ last) ++ (after ++ [c]))
      (by simp only [List.append_assoc]) (by simp)
    rw [List.append_nil, matchAt_threeWords] at hnone
    cases hnone
  · intro hstretch before after hcut hafter
    refine matchAt_threeWords_none ?_
    rintro ⟨rest, hrest⟩
    rw [List.append_nil] at hrest
    subst hrest
    rcases List.eq_nil_or_concat rest with rfl | ⟨inner, d, rfl⟩
    · -- the last word does not end with that character
      obtain ⟨front, d, rfl⟩ := (List.eq_nil_or_concat last).resolve_left hne
      rw [List.concat_eq_append] at hcut hlast
      rw [List.append_nil, ← List.append_assoc, ← List.append_assoc, ← List.append_assoc] at hcut
      have hd := List.singleton_inj.mp (List.append_inj' hcut rfl).2
      exact hlast d (by simp) hd.symm
    · rw [List.concat_eq_append, ← List.append_assoc, ← List.append_assoc] at hcut
      refine hstretch ⟨before, inner, ?_⟩
      exact (List.append_inj' hcut rfl).1.symm

end Words

/-- The one layout that the substitution comes upon. -/
def headerText (type : Text) : Text := "module ".toList ++ (type ++ "(\n".toList)

def headerMatch (type rest : Text) : Match Char := threeMatch "module ".toList type "(\n".toList rest

omit [UnicodeData] in
theorem matchAt_headerPattern (type rest : Text) :
    matchAt (headerPattern type) (headerText type ++ rest) = .some (headerMatch type rest) :=
  matchAt_threeWords rest

omit [UnicodeData] in
theorem exists_of_matchAt_header {type input : Text} {m : Match Char}
    (hm : matchAt (headerPattern type) input = .some m) :
    ∃ rest, input = headerText type ++ rest ∧ m = headerMatch type rest :=
  exists_of_matchAt_threeWords hm

omit [UnicodeData] in
theorem matchAt_header_none {type input : Text} (hstarts : ¬ headerText type <+: input) :
    matchAt (headerPattern type) input = none :=
  matchAt_threeWords_none hstarts

omit [UnicodeData] in
theorem headerPattern_productive (type : Text) : Productive (headerPattern type) := by
  have hopen : "module ".toList ≠ [] := by decide
  have hwords : Productive (threeWords "module ".toList type "(\n".toList) :=
    threeWords_productive hopen
  exact hwords

theorem headerPattern_avoids {type : Text} (htype : IsName type) :
    Avoids ')' (headerPattern type) := by
  have hliterals : ')' ∉ "module ".toList ∧ ')' ∉ "(\n".toList := by decide
  have hword : isWord ')' = false := by
    rw [isWord_ascii (by decide)]
    decide
  have hmiddle : ')' ∉ type := by
    intro hmem
    rw [htype.word _ hmem] at hword
    cases hword
  have hwords : Avoids ')' (threeWords "module ".toList type "(\n".toList) :=
    threeWords_avoids hliterals.1 hmiddle hliterals.2
  exact hwords

omit [UnicodeData] in
/-- No header begins in a port list that ends with a bracket exactly when it holds none. -/
theorem clear_headerPattern_iff {type ports : Text} :
    Clear (headerPattern type) (ports ++ [')']) [] ↔ ¬ headerText type <:+: ports := by
  have hlast : ∀ d ∈ "(\n".toList.getLast?, d ≠ ')' := by
    intro d hd
    rw [show "(\n".toList = ['(', '\n'] from by decide] at hd
    cases hd
    decide
  have hne : "(\n".toList ≠ [] := by decide
  exact clear_threeWords_iff hlast hne

omit [UnicodeData] in
theorem headerText_eq (type : Text) :
    headerText type = ['m', 'o', 'd', 'u', 'l', 'e'] ++ ' ' :: (type ++ ['(', '\n']) := by
  have hopen : "module ".toList = ['m', 'o', 'd', 'u', 'l', 'e'] ++ [' '] := by decide
  have hclose : "(\n".toList = ['(', '\n'] := by decide
  have hwords : ∀ {first last : Text}, first = ['m', 'o', 'd', 'u', 'l', 'e'] ++ [' '] →
      last = ['(', '\n'] → first ++ (type ++ last) =
        ['m', 'o', 'd', 'u', 'l', 'e'] ++ ' ' :: (type ++ ['(', '\n']) := by
    rintro _ _ rfl rfl
    rw [List.append_assoc, List.singleton_append]
  exact hwords hopen hclose

omit [UnicodeData] in
theorem clear_header_of_not_mem {type stretch : Text} (hletter : 'm' ∉ stretch)
    (following : Text) : Clear (headerPattern type) stretch following := by
  intro before after heq hne
  refine matchAt_header_none ?_
  rintro ⟨rest, hrest⟩
  obtain ⟨c, after, rfl⟩ := List.exists_cons_of_ne_nil hne
  rw [headerText_eq] at hrest
  refine hletter ?_
  rw [heq, ← (List.cons.inj hrest).1]
  exact List.mem_append_right _ (.head _)

theorem isWord_module : ∀ c ∈ ['m', 'o', 'd', 'u', 'l', 'e'], isWord c = true :=
  (isName_of_ascii (List.cons_ne_nil _ _) (by decide)).word

theorem clear_header_front {type gap rest : Text} (htype : IsName type)
    (hspace : ∀ c ∈ gap, isSpace c = true)
    (hstarts : ¬ headerText type <+:
      ['m', 'o', 'd', 'u', 'l', 'e'] ++ (gap ++ (type ++ '(' :: rest))) :
    Clear (headerPattern type) (['m', 'o', 'd', 'u', 'l', 'e'] ++ (gap ++ (type ++ ['('])))
      rest := by
  have hgap : 'm' ∉ gap := by
    intro hmem
    have hword := isWord_of_isSpace (hspace _ hmem)
    rw [isWord_module 'm' (.head _)] at hword
    cases hword
  rw [Clear.append_iff, Clear.append_iff, Clear.append_iff]
  refine ⟨Clear.cons_iff.mpr ⟨?_, clear_header_of_not_mem (by decide) _⟩,
    clear_header_of_not_mem hgap _, ?_, clear_header_of_not_mem (by decide) _⟩
  · refine matchAt_header_none ?_
    simpa only [List.cons_append, List.nil_append, List.append_assoc] using hstarts
  · -- a word that goes on with a bracket is not followed by a blank
    intro before after heq hne
    refine matchAt_header_none ?_
    rintro ⟨following, hfollowing⟩
    have hafter : ∀ c ∈ after, isWord c = true := by
      intro c hc
      refine htype.word c ?_
      rw [heq]
      exact List.mem_append_right _ hc
    rw [headerText_eq, List.append_assoc] at hfollowing
    have hends := ((endsRun_cons.mpr isWord_blank).unique (endsRun_cons.mpr isWord_bracket)
      isWord_module hafter hfollowing).2
    exact absurd (List.cons.inj hends).1 (by decide)

/-! ## Layouts -/

/-- A header and a port list that begins on the same or on the next line. -/
structure Header (type text : Text) where
  gap : Text
  start : Text
  ports : Text
  behind : Text
  text_eq : text = "module".toList ++ (gap ++ (type ++ '(' :: (start ++ (ports ++ ')' :: behind))))
  gap_ne_nil : gap ≠ []
  gap_space : ∀ c ∈ gap, isSpace c = true
  type_name : IsName type
  layout : start = ['\n'] ∨ start = [] ∧ ports.head? ≠ .some '\n'

theorem Chunk.exists_header (chunk : Chunk) (hclose : ')' ∈ chunk.inside) :
    ∃ header : Header chunk.type chunk.text, ')' ∉ header.ports := by
  obtain ⟨list, behind, hinside, hlist⟩ := List.eq_append_cons_of_mem hclose
  have hbracket : "(".toList ++ chunk.inside = '(' :: (list ++ ')' :: behind) := by
    rw [hinside]
    rfl
  have htext : chunk.text = "module".toList ++ (chunk.gap ++ (chunk.type ++ '(' ::
      (list ++ ')' :: behind))) :=
    congrArg (fun rest => "module".toList ++ (chunk.gap ++ (chunk.type ++ rest))) hbracket
  by_cases hnewline : list.head? = .some '\n'
  · obtain ⟨ports, rfl⟩ := List.head?_eq_some_iff.mp hnewline
    exact ⟨⟨chunk.gap, ['\n'], ports, behind, htext, chunk.gap_ne_nil, chunk.gap_space,
      chunk.type_name, Or.inl rfl⟩, fun hmem => hlist (.tail _ hmem)⟩
  · exact ⟨⟨chunk.gap, [], list, behind, htext, chunk.gap_ne_nil, chunk.gap_space,
      chunk.type_name, Or.inr ⟨rfl, hnewline⟩⟩, hlist⟩

namespace Header

variable {type text : Text}

/-- The text up to the end of the port list. -/
def front (header : Header type text) : Text :=
  "module".toList ++ (header.gap ++ (type ++ '(' :: (header.start ++ (header.ports ++ [')']))))

theorem front_def (header : Header type text) : header.front =
    "module".toList ++ (header.gap ++ (type ++ '(' :: (header.start ++ (header.ports ++ [')'])))) :=
  rfl

omit [UnicodeData] in
theorem header_append (keyword gap type start ports behind : Text) :
    keyword ++ (gap ++ (type ++ '(' :: (start ++ (ports ++ ')' :: behind)))) =
      keyword ++ (gap ++ (type ++ '(' :: (start ++ (ports ++ [')'])))) ++ behind := by
  simp only [List.append_assoc, List.cons_append, List.nil_append]

omit [UnicodeData] in
theorem inner_append (keyword gap type start ports : Text) :
    keyword ++ (gap ++ (type ++ '(' :: (start ++ (ports ++ [')'])))) =
      keyword ++ (gap ++ (type ++ '(' :: (start ++ ports))) ++ [')'] := by
  simp only [List.append_assoc, List.cons_append]

theorem front_append (header : Header type text) : text = header.front ++ header.behind :=
  header.text_eq.trans (header_append _ _ _ _ _ _)

theorem exists_inner (header : Header type text) : ∃ inner, header.front = inner ++ [')'] :=
  ⟨_, inner_append _ _ _ _ _⟩

/-- The header that the substitution comes upon, with a type that does not run into the reference
in the template and no second such header among the ports. -/
structure Fits (header : Header type text) : Prop where
  gap_eq : header.gap = [' ']
  start_eq : header.start = ['\n']
  letters : ∀ c d rest, type = c :: d :: rest →
    ¬ (Template.isOctal c = true ∧ Template.isOctal d = true)
  single : ¬ headerText type <:+: header.ports

/-- A text with a type in its header, the fault ports in front of the original ports, and these
as they were. -/
def Headed (header : Header type text) (newType : Text) (count : Nat) (text' : Text) : Prop :=
  ∃ gap start behind, gap ≠ [] ∧ (∀ c ∈ gap, isSpace c = true) ∧
    (∀ c ∈ start, isSpace c = true) ∧ text' = "module".toList ++ (gap ++ (newType ++ '(' ::
      (start ++ (faultPorts count ++ (header.ports ++ ')' :: behind)))))

omit [UnicodeData] in
theorem module_eq : "module".toList = ['m', 'o', 'd', 'u', 'l', 'e'] := by decide

theorem endsRun_type {type : Text} (htype : IsName type) (rest : Text) :
    EndsRun isSpace (type ++ rest) := by
  obtain ⟨c, others, rfl⟩ := List.exists_cons_of_ne_nil htype.ne_nil
  exact endsRun_cons.mpr (isSpace_of_isWord (htype.word c (.head _)))

theorem words_unique {gap gap' type type' rest rest' : Text} (hgap : ∀ c ∈ gap, isSpace c = true)
    (hgap' : ∀ c ∈ gap', isSpace c = true) (htype : IsName type) (htype' : IsName type')
    (heq : gap ++ (type ++ '(' :: rest) = gap' ++ (type' ++ '(' :: rest')) :
    gap = gap' ∧ type = type' ∧ rest = rest' := by
  obtain ⟨rfl, hwords⟩ := (endsRun_type htype _).unique (endsRun_type htype' _) hgap hgap' heq
  obtain ⟨rfl, hrest⟩ := (endsRun_cons.mpr isWord_bracket).unique
    (endsRun_cons.mpr isWord_bracket) htype.word htype'.word hwords
  exact ⟨rfl, rfl, (List.cons.inj hrest).2⟩

/-- A text has one layout whose port list ends at the first closing bracket. -/
theorem eq_of_ports {header header' : Header type text} (hports : ')' ∉ header.ports)
    (hports' : ')' ∉ header'.ports) : header = header' := by
  have hlist : ∀ header : Header type text, ')' ∉ header.ports →
      ∀ c ∈ header.start ++ header.ports, (c != ')') = true := by
    intro header hports c hc
    rcases List.mem_append.mp hc with hc | hc
    · rcases header.layout with hstart | ⟨hstart, -⟩ <;> rw [hstart] at hc
      · rw [List.mem_singleton.mp hc]
        decide
      · cases hc
    · exact bne_iff_ne.mpr fun heq => hports (heq ▸ hc)
  have hends : ∀ behind, EndsRun (· != ')') (')' :: behind) := fun behind =>
    endsRun_cons.mpr (by decide)
  have hwords := List.append_cancel_left (header.text_eq.symm.trans header'.text_eq)
  obtain ⟨hgap, -, hrest⟩ := words_unique header.gap_space header'.gap_space header.type_name
    header'.type_name hwords
  rw [← List.append_assoc, ← List.append_assoc] at hrest
  obtain ⟨hfront, hbehind⟩ :=
    (hends _).unique (hends _) (hlist header hports) (hlist header' hports') hrest
  obtain ⟨gap, start, ports, behind, htext, hne, hspace, hname, hlayout⟩ := header
  obtain ⟨gap', start', ports', behind', htext', hne', hspace', hname', hlayout'⟩ := header'
  obtain rfl : gap = gap' := hgap
  obtain rfl : behind = behind' := (List.cons.inj hbehind).2
  rcases hlayout with rfl | ⟨rfl, hhead⟩ <;> rcases hlayout' with rfl | ⟨rfl, hhead'⟩
  · obtain rfl : ports = ports' := List.append_cancel_left hfront
    rfl
  · have hnewline : '\n' :: ports = ports' := hfront
    exact absurd (by rw [← hnewline]; rfl) hhead'
  · have hnewline : ports = '\n' :: ports' := hfront
    exact absurd (by rw [hnewline]; rfl) hhead
  · obtain rfl : ports = ports' := hfront
    rfl

theorem starts_iff (header : Header type text) (behind : Text) :
    headerText type <+: header.front ++ behind ↔ header.gap = [' '] ∧ header.start = ['\n'] := by
  have hblank : ∀ c ∈ [' '], isSpace c = true := by
    rintro c (_ | ⟨_, ⟨⟩⟩)
    exact isSpace_blank
  rw [headerText_eq, front_def, module_eq]
  constructor
  · rintro ⟨rest, heq⟩
    simp only [List.append_assoc, List.cons_append, List.nil_append, List.cons.injEq,
      true_and] at heq
    have hwords : [' '] ++ (type ++ '(' :: ('\n' :: rest)) = header.gap ++ (type ++ '(' ::
        (header.start ++ (header.ports ++ ')' :: behind))) := heq
    obtain ⟨hgap, -, hrest⟩ :=
      words_unique hblank header.gap_space header.type_name header.type_name hwords
    refine ⟨hgap.symm, ?_⟩
    rcases header.layout with hstart | ⟨hstart, hports⟩
    · exact hstart
    · rw [hstart, List.nil_append] at hrest
      cases hlist : header.ports with
      | nil =>
          rw [hlist] at hrest
          exact absurd (List.cons.inj hrest).1 (by decide)
      | cons c ports =>
          rw [hlist] at hrest hports
          exact absurd (congrArg Option.some (List.cons.inj hrest).1.symm) hports
  · rintro ⟨hgap, hstart⟩
    rw [hgap, hstart]
    exact ⟨header.ports ++ ')' :: behind, by simp⟩

theorem not_headed (header : Header type text) {behind : Text}
    (hstarts : ¬ headerText type <+: header.front ++ behind) {newType : Text}
    (hname : IsName newType) (hne : newType ≠ type) {count : Nat}
    (replacement : Match Char → Text) :
    ¬ header.Headed newType count
      (sub (headerPattern type) replacement (header.front ++ behind)) := by
  rintro ⟨gap, start, rest, -, hgap, -, heq⟩
  have htext : header.front ++ behind = ['m', 'o', 'd', 'u', 'l', 'e'] ++
      (header.gap ++ (type ++ ['('])) ++ (header.start ++ (header.ports ++ ')' :: behind)) := by
    rw [front_def, module_eq]
    simp only [List.append_assoc, List.cons_append, List.nil_append]
  have hclear : Clear (headerPattern type) (['m', 'o', 'd', 'u', 'l', 'e'] ++
      (header.gap ++ (type ++ ['(']))) (header.start ++ (header.ports ++ ')' :: behind)) := by
    refine clear_header_front header.type_name header.gap_space ?_
    rw [htext] at hstarts
    simpa only [List.append_assoc, List.cons_append, List.nil_append] using hstarts
  rw [htext, hclear.sub, module_eq] at heq
  simp only [List.append_assoc, List.cons_append, List.nil_append, List.cons.injEq,
    true_and] at heq
  obtain ⟨-, hnew, -⟩ := words_unique header.gap_space hgap header.type_name hname heq
  exact hne hnew.symm

theorem not_headed_octal (header : Header type text) {newType others rest : Text} {control : Char}
    {count : Nat} (hlength : 64 ≤ others.length) (hword : ∀ c ∈ others, isWord c = true) :
    ¬ header.Headed newType count (control :: (others ++ rest)) := by
  rintro ⟨gap, start, behind, hne, hgap, -, heq⟩
  rw [module_eq] at heq
  have htail := (List.cons.inj heq).2
  rcases List.append_eq_append_iff.mp htail with ⟨more, hmore, -⟩ | ⟨more, hmore, hrest⟩
  · have hshort := congrArg List.length hmore
    simp only [List.length_cons, List.length_nil, List.length_append] at hshort
    omega
  · cases more with
    | nil =>
        have hshort := congrArg List.length hmore
        simp only [List.append_nil, List.length_cons, List.length_nil] at hshort
        omega
    | cons c more =>
        obtain ⟨blank, gap, rfl⟩ := List.exists_cons_of_ne_nil hne
        have hc : blank = c := (List.cons.inj hrest).1
        have hletter := hword c (by rw [hmore]; exact List.mem_append_right _ (.head _))
        rw [← hc, isWord_of_isSpace (hgap blank (.head _))] at hletter
        cases hletter

omit [UnicodeData] in
theorem sub_headerText (type rest : Text) (replacement : Match Char → Text) :
    sub (headerPattern type) replacement (headerText type ++ rest) =
      replacement (headerMatch type rest) ++ sub (headerPattern type) replacement rest := by
  have hm := matchAt_headerPattern type rest
  exact sub_hit hm (headerPattern_productive type _ _ (mem_of_matchAt hm)) replacement

omit [UnicodeData] in
theorem newHeader_eq (type newType : Text) (count : Nat) (rest : Text) :
    (headerMatch type rest).group 1 ++ (newType ++ ((headerMatch type rest).group 2 ++
        faultPorts count)) =
      ['m', 'o', 'd', 'u', 'l', 'e'] ++ ([' '] ++ (newType ++ '(' :: ('\n' :: faultPorts count))) := by
  have hopen : "module ".toList = ['m', 'o', 'd', 'u', 'l', 'e'] ++ [' '] := by decide
  have hclose : "(\n".toList = ['(', '\n'] := by decide
  have hgroups : (headerMatch type rest).group 1 = "module ".toList ∧
      (headerMatch type rest).group 2 = "(\n".toList := ⟨rfl, rfl⟩
  rw [hgroups.1, hgroups.2, hopen, hclose, List.append_assoc]
  rfl

/-- What follows the fault ports is what follows them in the layout. -/
theorem rest_of_ports {count : Nat} {start rest rest' : Text}
    (hstart : ∀ c ∈ start, isSpace c = true)
    (heq : '\n' :: (faultPorts count ++ rest) = start ++ (faultPorts count ++ rest')) :
    rest = rest' := by
  obtain ⟨ports, hports⟩ := exists_faultPorts count
  have hspace : isSpace '\n' = true ∧ isSpace '\t' = true := by
    rw [isSpace_ascii (by decide), isSpace_ascii (by decide)]
    decide
  have hletter : isSpace 'i' = false := by
    rw [isSpace_ascii (by decide)]
    decide
  have hruns : ['\n', '\t'] ++ ('i' :: (ports ++ rest)) =
      (start ++ ['\t']) ++ ('i' :: (ports ++ rest')) := by
    rw [hports] at heq
    simpa using heq
  have hnewline : ∀ c ∈ ['\n', '\t'], isSpace c = true := by
    simp [hspace]
  have hstart' : ∀ c ∈ start ++ ['\t'], isSpace c = true := by
    intro c hc
    rcases List.mem_append.mp hc with hc | hc
    · exact hstart c hc
    · rw [List.mem_singleton.mp hc]
      exact hspace.2
  have hends := ((endsRun_cons.mpr hletter).unique (endsRun_cons.mpr hletter) hnewline hstart'
    hruns).2
  exact List.append_cancel_left (List.cons.inj hends).2

/-- The substitution when it returns and its template is read as two references. -/
theorem exists_replacement {type : Text} (htype : IsName type)
    (hletter : ∀ c ∈ type.head?, c.isDigit = false) (moduleText text : Text) (count : Nat) :
    ∃ replacement : Match Char → Text,
      (∀ rest, replacement (headerMatch type rest) = ['m', 'o', 'd', 'u', 'l', 'e'] ++
        ([' '] ++ (newModuleType type moduleText ++ '(' :: ('\n' :: faultPorts count)))) ∧
      rewriteHeader type (newModuleType type moduleText) count none text =
        .ok (sub (headerPattern type) replacement text) :=
  ⟨_, newHeader_eq type _ count, rewriteHeader_eq htype hletter moduleText text count⟩

theorem not_infix_of_sub {type newType ports behind behind' more : Text} (htype : IsName type)
    (hnew : IsName newType) (hne : newType ≠ type) {replacement : Match Char → Text}
    (hreplacement : ∀ rest, replacement (headerMatch type rest) =
      ['m', 'o', 'd', 'u', 'l', 'e'] ++ ([' '] ++ (newType ++ '(' :: more)))
    (heq : sub (headerPattern type) replacement (ports ++ ')' :: behind) =
      ports ++ ')' :: behind') : ¬ headerText type <:+: ports := by
  rintro ⟨before, after, hports⟩
  have hplace : ports ++ ')' :: behind =
      before ++ (headerText type ++ (after ++ ')' :: behind)) := by
    rw [← hports]
    simp only [List.append_assoc]
  rcases clear_or_first (headerPattern type) (ports ++ ')' :: behind) with
    hclear | ⟨stretch, following, m, hcut, hclear, hm⟩
  · have hnone := hclear before _ hplace (by simp [headerText_eq])
    rw [List.append_nil, matchAt_headerPattern] at hnone
    cases hnone
  · obtain ⟨rest, rfl, -⟩ := exists_of_matchAt_header hm
    -- the first header does not begin behind this one, so it lies among the ports
    have hle : stretch.length ≤ before.length := by
      by_contra hlt
      rcases List.append_eq_append_iff.mp (hplace.symm.trans hcut) with
        ⟨more, hmore, hheader⟩ | ⟨more, hmore, -⟩
      · have hne : more ≠ [] := by
          rintro rfl
          rw [List.append_nil] at hmore
          rw [hmore] at hlt
          omega
        have hnone := hclear before more hmore hne
        rw [← hheader, matchAt_headerPattern] at hnone
        cases hnone
      · rw [hmore, List.length_append] at hlt
        omega
    obtain ⟨left, hleft⟩ : stretch ++ headerText type <+: ports := by
      refine List.prefix_of_prefix_length_le ⟨rest, ?_⟩ ⟨')' :: behind, rfl⟩ ?_
      · rw [hcut, List.append_assoc]
      · rw [← hports]
        simp only [List.length_append]
        omega
    rw [hcut, hclear.sub, sub_headerText, hreplacement, ← hleft, headerText_eq] at heq
    simp only [List.append_assoc, List.cons_append, List.nil_append,
      List.append_cancel_left_eq, List.cons.injEq, true_and] at heq
    have hwords : [] ++ (newType ++ '(' :: (more ++ sub (headerPattern type) replacement rest)) =
        [] ++ (type ++ '(' :: ('\n' :: (left ++ ')' :: behind'))) := heq
    exact hne (words_unique (by simp) (by simp) hnew htype hwords).2.1

theorem front_eq (header : Header type text) (hgap : header.gap = [' '])
    (hstart : header.start = ['\n']) (behind : Text) :
    header.front ++ behind = headerText type ++ (header.ports ++ ')' :: behind) := by
  rw [front_def, headerText_eq, module_eq, hgap, hstart]
  simp only [List.append_assoc, List.cons_append, List.nil_append]

omit [UnicodeData] in
theorem isSpace_layout [UnicodeData] :
    (∀ c ∈ [' '], isSpace c = true) ∧ ∀ c ∈ ['\n'], isSpace c = true := by
  simp only [List.forall_mem_singleton]
  rw [isSpace_ascii (by decide), isSpace_ascii (by decide)]
  decide

section Replacement

variable {newType behind : Text} {count : Nat} {replacement : Match Char → Text}

theorem octal_not_headed (header : Header type text) (hname : IsName newType)
    (hne : newType ≠ type) {control : Char} {others : Text} (hlength : 64 ≤ others.length)
    (hword : ∀ c ∈ others, isWord c = true) (inserted : Match Char → Text) :
    ¬ header.Headed newType count (sub (headerPattern type)
      (fun m => control :: (others ++ inserted m)) (header.front ++ behind)) := by
  by_cases hstarts : headerText type <+: header.front ++ behind
  · obtain ⟨hgap, hstart⟩ := (header.starts_iff behind).mp hstarts
    rw [header.front_eq hgap hstart, sub_headerText, List.cons_append, List.append_assoc]
    exact header.not_headed_octal hlength hword
  · exact header.not_headed hstarts hname hne _

variable (hreplacement : ∀ rest, replacement (headerMatch type rest) =
  ['m', 'o', 'd', 'u', 'l', 'e'] ++ ([' '] ++ (newType ++ '(' :: ('\n' :: faultPorts count))))

include hreplacement

theorem headed_of_layout (header : Header type text) (hgap : header.gap = [' '])
    (hstart : header.start = ['\n']) (hsingle : ¬ headerText type <:+: header.ports) :
    header.Headed newType count
      (sub (headerPattern type) replacement (header.front ++ behind)) := by
  have hclear : Clear (headerPattern type) (header.ports ++ [')']) behind :=
    (headerPattern_avoids header.type_name).clear (clear_headerPattern_iff.mpr hsingle) behind
  have hrest : header.ports ++ ')' :: behind = header.ports ++ [')'] ++ behind := by
    rw [List.append_assoc, List.singleton_append]
  refine ⟨[' '], ['\n'], sub (headerPattern type) replacement behind, List.cons_ne_nil _ _,
    isSpace_layout.1, isSpace_layout.2, ?_⟩
  rw [header.front_eq hgap hstart, sub_headerText, hreplacement, hrest, hclear.sub, module_eq]
  simp only [List.append_assoc, List.cons_append, List.nil_append]

theorem layout_of_headed (header : Header type text) (hname : IsName newType)
    (hne : newType ≠ type) (headed : header.Headed newType count
      (sub (headerPattern type) replacement (header.front ++ behind))) :
    (header.gap = [' '] ∧ header.start = ['\n']) ∧ ¬ headerText type <:+: header.ports := by
  have hstarts : headerText type <+: header.front ++ behind := by
    by_contra hnot
    exact header.not_headed hnot hname hne _ headed
  obtain ⟨hgap, hstart⟩ := (header.starts_iff behind).mp hstarts
  refine ⟨⟨hgap, hstart⟩, ?_⟩
  obtain ⟨gap, start, rest, -, hgapSpace, hstartSpace, heq⟩ := headed
  rw [header.front_eq hgap hstart, sub_headerText, hreplacement, module_eq] at heq
  simp only [List.append_assoc, List.cons_append, List.nil_append, List.cons.injEq,
    true_and] at heq
  obtain ⟨-, -, hrest⟩ := words_unique isSpace_layout.1 hgapSpace hname hname heq
  exact not_infix_of_sub header.type_name hname hne hreplacement (rest_of_ports hstartSpace hrest)

end Replacement

/--
The substitution gives a module its new type and puts the fault ports in front of its ports
exactly when the header fits.
-/
theorem headed_iff (header : Header type text) {moduleText behind text' : Text} {count : Nat}
    (hrun : rewriteHeader type (newModuleType type moduleText) count none
      (header.front ++ behind) = .ok text') :
    header.Headed (newModuleType type moduleText) count text' ↔ header.Fits := by
  have htype := header.type_name
  have hname := isName_newModuleType htype moduleText
  have hne : newModuleType type moduleText ≠ type := newModuleType_ne moduleText
  constructor
  · intro headed
    have hletter : ∀ c ∈ type.head?, c.isDigit = false := by
      intro c hc
      rw [← Bool.not_eq_true]
      intro hdigit
      obtain ⟨d, rest, control, others, -, -, hlength, hword, htext⟩ :=
        rewriteHeader_digit htype hc hdigit hrun
      rw [htext] at headed
      exact header.octal_not_headed hname hne hlength hword _ headed
    obtain ⟨replacement, hreplacement, hsub⟩ :=
      exists_replacement htype hletter moduleText (header.front ++ behind) count
    rw [hsub, Except.ok.injEq] at hrun
    subst hrun
    obtain ⟨⟨hgap, hstart⟩, hsingle⟩ := header.layout_of_headed hreplacement hname hne headed
    refine ⟨hgap, hstart, fun c d rest heq hoctal => ?_, hsingle⟩
    have hc := hletter c (by rw [heq]; rfl)
    rw [Template.isOctal_of_not_digit hc] at hoctal
    cases hoctal.1
  · rintro ⟨hgap, hstart, hletters, hsingle⟩
    have hletter : ∀ c ∈ type.head?, c.isDigit = false := by
      intro c hc
      rw [← Bool.not_eq_true]
      intro hdigit
      obtain ⟨d, rest, -, -, heq, hoctal, -⟩ := rewriteHeader_digit htype hc hdigit hrun
      exact hletters c d rest heq hoctal
    obtain ⟨replacement, hreplacement, hsub⟩ :=
      exists_replacement htype hletter moduleText (header.front ++ behind) count
    rw [hsub, Except.ok.injEq] at hrun
    subst hrun
    exact header.headed_of_layout hreplacement hgap hstart hsingle

end Header

end Headers

end FaultInjection
