import FaultInjection.Design.Discovery
import FaultInjection.Traversal.Rewrite

/-!
# Rewiring an instance

The child that a fault lies under gets its new type and its fault ports by a
substitution in the text of its parent.  The instance lines that the search for
children comes upon, and when the substitution changes such a line and nothing else.
-/

namespace FaultInjection

open Regex Regex.Pattern Text

section Rewiring

variable [UnicodeData]

/-- An instance that the search comes upon: what stands before its type, and the optional blank
in front of its bracket. -/
structure InstanceLine (text : Text) (place : Place) (before gap : Text) : Prop where
  text_eq : text = before ++ (place.type ++ ' ' :: (place.name ++ (gap ++ '(' :: place.after)))
  indented : ∃ front start indent, before = front ++ (start ++ indent) ∧
    (start = ['\n'] ∨ start = ['\\', 'n']) ∧ indent ≠ [] ∧ ∀ c ∈ indent, isBlank c = true
  gapped : gap = [] ∨ gap = [' ']
  isType : IsName place.type
  isName : IsName place.name

omit [UnicodeData] in
theorem escape?_eq_some_iff {text rest : Text} :
    escape? text = .some rest ↔ text = '\n' :: rest ∨ text = '\\' :: 'n' :: rest := by
  constructor
  · intro hescape
    unfold escape? at hescape
    split at hescape
    · cases hescape
      exact Or.inl rfl
    · cases hescape
      exact Or.inr rfl
    · cases hescape
  · rintro (rfl | rfl) <;> rfl

/-- The instance lines of a text are the places that the search comes upon. -/
theorem mem_discovered_iff {text : Text} {place : Place} :
    place ∈ discovered text ↔ ∃ before gap, InstanceLine text place before gap := by
  rw [discovered, placesBehind, List.mem_filterMap]
  constructor
  · rintro ⟨behind, hbehind, hplace⟩
    obtain ⟨rest, hrest, hat⟩ := Option.bind_eq_some_iff.mp hplace
    obtain ⟨indent, gap, rfl, hindent, hgap, htype, hname⟩ :=
      (instanceAt_eq_some_iff fun _ => isWord_of_isBlank).mp hat
    obtain ⟨front, rfl⟩ := List.mem_tails _ _ |>.mp hbehind
    obtain ⟨start, rfl, hstart⟩ : ∃ start, behind = start ++ (indent ++ (place.type ++
        ' ' :: (place.name ++ (gap ++ '(' :: place.after)))) ∧
          (start = ['\n'] ∨ start = ['\\', 'n']) := by
      rcases escape?_eq_some_iff.mp hrest with rfl | rfl
      · exact ⟨_, rfl, Or.inl rfl⟩
      · exact ⟨_, rfl, Or.inr rfl⟩
    refine ⟨front ++ (start ++ indent), gap, ?_, ⟨front, start, indent, rfl, hstart, hindent⟩,
      hgap, htype, hname⟩
    simp only [List.append_assoc]
  · rintro ⟨before, gap, rfl, ⟨front, start, indent, rfl, hstart, hindent⟩, hgap, htype, hname⟩
    refine ⟨start ++ (indent ++ (place.type ++ ' ' :: (place.name ++ (gap ++ '(' :: place.after)))),
      (List.mem_tails _ _).mpr ⟨front, by simp only [List.append_assoc]⟩, ?_⟩
    have hescape : escape? (start ++ (indent ++ (place.type ++
        ' ' :: (place.name ++ (gap ++ '(' :: place.after))))) =
          .some (indent ++ (place.type ++ ' ' :: (place.name ++ (gap ++ '(' :: place.after)))) := by
      rw [escape?_eq_some_iff]
      rcases hstart with rfl | rfl
      · exact Or.inl rfl
      · exact Or.inr rfl
    rw [hescape]
    exact (instanceAt_eq_some_iff fun _ => isWord_of_isBlank).mpr
      ⟨indent, gap, rfl, hindent, hgap, htype, hname⟩

/-! ## The two patterns of a name -/

/-- A text begins with a name, a blank and a bracket, and its line ends at a newline. -/
def Declares (name text line behind : Text) : Prop :=
  text = name ++ ' ' :: '(' :: (line ++ '\n' :: behind) ∧ '\n' ∉ line

/-- The match of a declaration. -/
def declaredLine (name line behind : Text) : Match Char :=
  ⟨name ++ ' ' :: '(' :: (line ++ ['\n']), behind, []⟩

omit [UnicodeData] in
theorem matchAt_declaration {name text line behind : Text} (declares : Declares name text line behind) :
    matchAt (childDeclarationPattern name) text = .some (declaredLine name line behind) := by
  obtain ⟨rfl, hline⟩ := declares
  have htexts : " (".toList = [' ', '('] ∧ "\n".toList = ['\n'] := by decide
  have hplain : ∀ c ∈ line, isPlain c = true := by
    intro c hc
    rw [isPlain, bne_iff_ne]
    rintro rfl
    exact hline hc
  have hfew : matchAt (.seq (.few isPlain) (word ['\n'])) (line ++ '\n' :: behind) =
      .some ⟨line ++ ['\n'], behind, []⟩ :=
    matchAt_few_word behind hplain (endsFirst_of_not_mem hline)
  have hopen : matchAt (.seq (word [' ', '(']) (.seq (.few isPlain) (word ['\n'])))
      (' ' :: '(' :: (line ++ '\n' :: behind)) =
        .some ⟨' ' :: '(' :: (line ++ ['\n']), behind, []⟩ := by
    have hword := matchAt_word_seq [' ', '('] (line ++ '\n' :: behind)
      (.seq (.few isPlain) (word ['\n']))
    rw [hfew] at hword
    exact hword
  rw [childDeclarationPattern, chain, chain, chain, chain, htexts.1, htexts.2, matchAt_word_seq, hopen]
  rfl

omit [UnicodeData] in
theorem declares_of_matchAt {name text : Text} {m : Match Char}
    (hm : matchAt (childDeclarationPattern name) text = .some m) :
    ∃ line behind, Declares name text line behind ∧ m = declaredLine name line behind := by
  have htexts : " (".toList = [' ', '('] ∧ "\n".toList = ['\n'] := by decide
  by_cases hstarts : name <+: text
  · obtain ⟨rest, rfl⟩ := hstarts
    rw [childDeclarationPattern, chain, chain, chain, chain, htexts.1, htexts.2, matchAt_word_seq] at hm
    obtain ⟨m₁, hm₁, rfl⟩ := Option.map_eq_some_iff.mp hm
    by_cases hopen : [' ', '('] <+: rest
    · obtain ⟨rest, rfl⟩ := hopen
      rw [matchAt_word_seq] at hm₁
      obtain ⟨m₂, hm₂, rfl⟩ := Option.map_eq_some_iff.mp hm₁
      obtain ⟨line, behind, rfl, hline, -, rfl⟩ := exists_of_matchAt_few_word hm₂
      refine ⟨line, behind, ⟨rfl, fun hmem => ?_⟩, rfl⟩
      exact absurd (hline _ hmem) (by decide)
    · rw [matchAt_word_seq_none _ hopen] at hm₁
      cases hm₁
  · rw [childDeclarationPattern, chain, matchAt_word_seq_none _ hstarts] at hm
    cases hm

theorem childDeclarationPattern_productive {name : Text} (hname : IsName name) :
    Productive (childDeclarationPattern name) := by
  obtain ⟨c, others, rfl⟩ := List.exists_cons_of_ne_nil hname.ne_nil
  exact productive_of_not_nullable rfl

/-- The match of an instance line. -/
def instanced (type name line behind : Text) : Match Char :=
  ⟨type ++ ' ' :: (name ++ ' ' :: '(' :: (line ++ ['\n'])), behind, []⟩

theorem matchAt_instance_append {type : Text} (hne : type ≠ [])
    (hword : ∀ c ∈ type, isWord c = true) (name rest : Text) :
    matchAt (childInstancePattern name) (type ++ ' ' :: rest) =
      (matchAt (childDeclarationPattern name) rest).map (.after ⟨type ++ [' '], rest, []⟩) := by
  have hblank : " ".toList = [' '] := by decide
  have hnext : ∀ c left, isWord c = true →
      readings (.seq (word [' ']) (childDeclarationPattern name)) (c :: left) = [] := by
    intro c left hc
    refine readings_word_seq_none _ ?_
    rintro ⟨rest, heq⟩
    rw [List.cons_append, List.cons.injEq] at heq
    rw [← heq.1, isWord_blank] at hc
    cases hc
  have hopen : matchAt (.seq (word [' ']) (childDeclarationPattern name)) (' ' :: rest) =
      (matchAt (childDeclarationPattern name) rest).map (.after ⟨[' '], rest, []⟩) :=
    matchAt_word_seq [' '] rest (childDeclarationPattern name)
  rw [childInstancePattern, chain, chain, chain, hblank,
    matchAt_some_seq hne hword (endsRun_cons.mpr isWord_blank) hnext, hopen, Option.map_map]
  refine congrArg (Option.map · _) (funext fun m => ?_)
  simp [Match.after]

theorem matchAt_instance {type name rest line behind : Text} (hne : type ≠ [])
    (hword : ∀ c ∈ type, isWord c = true) (declares : Declares name rest line behind) :
    matchAt (childInstancePattern name) (type ++ ' ' :: rest) =
      .some (instanced type name line behind) := by
  rw [matchAt_instance_append hne hword, matchAt_declaration declares]
  simp [Match.after, declaredLine, instanced]

theorem exists_of_matchAt_instance {name text : Text} {m : Match Char}
    (hm : matchAt (childInstancePattern name) text = .some m) :
    ∃ type rest line behind, text = type ++ ' ' :: rest ∧ type ≠ [] ∧
      (∀ c ∈ type, isWord c = true) ∧ Declares name rest line behind ∧
        m = instanced type name line behind := by
  have hblank : " ".toList = [' '] := by decide
  obtain ⟨type, rest, rfl, hne, hword⟩ : ∃ type rest, text = type ++ ' ' :: rest ∧ type ≠ [] ∧
      ∀ c ∈ type, isWord c = true := by
    have hreading := mem_of_matchAt hm
    rw [childInstancePattern, chain, chain, chain, hblank, Pattern.some,
      mem_readings_seq] at hreading
    obtain ⟨run, hrun, after, hafter, -⟩ := hreading
    obtain ⟨first, hfirst, others, hothers, rfl⟩ := mem_readings_seq.mp hrun
    obtain ⟨c, left, rfl, hc, rfl⟩ := mem_readings_one.mp hfirst
    obtain ⟨letters, rest, rfl, hletters, rfl⟩ := mem_readings_many.mp hothers
    obtain ⟨blank, hblank, -⟩ := mem_readings_seq.mp hafter
    obtain ⟨rest', hrest, -⟩ := mem_readings_word.mp hblank
    refine ⟨c :: letters, rest', ?_, List.cons_ne_nil _ _, ?_⟩
    · exact congrArg (c :: letters ++ ·) hrest
    · rintro d (_ | ⟨_, hd⟩)
      · exact hc
      · exact hletters d hd
  rw [matchAt_instance_append hne hword] at hm
  obtain ⟨m', hm', rfl⟩ := Option.map_eq_some_iff.mp hm
  obtain ⟨line, behind, declares, rfl⟩ := declares_of_matchAt hm'
  refine ⟨type, rest, line, behind, rfl, hne, hword, declares, ?_⟩
  simp [Match.after, declaredLine, instanced]

theorem childInstancePattern_productive (name : Text) :
    Productive (childInstancePattern name) := productive_of_not_nullable rfl

/-! ## Places of a name -/

/-- A name with a bracket stands in a line that ends. -/
def NamedAt (name text front : Text) : Prop :=
  ∃ rest, text = front ++ (name ++ ' ' :: '(' :: rest) ∧ '\n' ∈ rest

/-- A word ends and a blank stands in front of such a place. -/
def InstancedAt (name text front : Text) : Prop :=
  ∃ c, isWord c = true ∧ NamedAt name text (front ++ [c, ' '])

omit [UnicodeData] in
theorem exists_declares {name text front : Text} (declared : NamedAt name text front) :
    ∃ rest line behind, text = front ++ rest ∧ Declares name rest line behind := by
  obtain ⟨rest, rfl, hmem⟩ := declared
  obtain ⟨line, behind, rfl, hline⟩ := List.eq_append_cons_of_mem hmem
  exact ⟨_, line, behind, rfl, rfl, hline⟩

omit [UnicodeData] in
theorem Declares.namedAt {name rest line behind : Text} (declares : Declares name rest line behind)
    (front : Text) : NamedAt name (front ++ rest) front := by
  obtain ⟨rfl, -⟩ := declares
  exact ⟨_, rfl, List.mem_append_right _ (.head _)⟩

omit [UnicodeData] in
/-- No declaration begins in a stretch when every place of the name is behind it. -/
theorem clear_declaration_iff {name stretch following : Text} :
    Clear (childDeclarationPattern name) stretch following ↔
      ∀ front, NamedAt name (stretch ++ following) front → stretch.length ≤ front.length := by
  constructor
  · intro hclear front hat
    by_contra hlt
    obtain ⟨rest, line, behind, heq, declares⟩ := exists_declares hat
    rcases List.append_eq_append_iff.mp heq with ⟨more, hmore, -⟩ | ⟨more, rfl, hmore⟩
    · rw [hmore, List.length_append] at hlt
      omega
    · have hne : more ≠ [] := by
        rintro rfl
        simp at hlt
      have hnone := hclear front more rfl hne
      rw [← hmore, matchAt_declaration declares] at hnone
      cases hnone
  · rintro hall before after rfl hne
    cases hm : matchAt (childDeclarationPattern name) (after ++ following) with
    | none => rfl
    | some m =>
        obtain ⟨line, behind, declares, -⟩ := declares_of_matchAt hm
        have hle := hall before (by
          rw [List.append_assoc]
          exact declares.namedAt before)
        rw [List.length_append] at hle
        have hpos := List.length_pos_of_ne_nil hne
        omega

/-- No instance begins in a stretch that ends between words when every place of the name is
behind it. -/
theorem clear_instance_iff {name stretch following : Text}
    (hend : following = [] ∨ ∃ front c, stretch = front ++ [c] ∧ isWord c = false) :
    Clear (childInstancePattern name) stretch following ↔
      ∀ front, InstancedAt name (stretch ++ following) front → stretch.length ≤ front.length := by
  constructor
  · rintro hclear front ⟨c, hc, hat⟩
    by_contra hlt
    obtain ⟨rest, line, behind, heq, declares⟩ := exists_declares hat
    rw [List.append_assoc] at heq
    rcases List.append_eq_append_iff.mp heq with ⟨more, hmore, -⟩ | ⟨more, rfl, hmore⟩
    · rw [hmore, List.length_append] at hlt
      omega
    · have hne : more ≠ [] := by
        rintro rfl
        simp at hlt
      have hnone := hclear front more rfl hne
      have hmatch := matchAt_instance (List.cons_ne_nil c []) (by simpa using hc) declares
      rw [← hmore] at hnone
      exact absurd (hmatch.symm.trans hnone) (Option.some_ne_none _)
  · rintro hall before after rfl hne
    cases hm : matchAt (childInstancePattern name) (after ++ following) with
    | none => rfl
    | some m =>
        obtain ⟨type, rest, line, behind, heq, htype, hword, declares, -⟩ :=
          exists_of_matchAt_instance hm
        obtain ⟨letters, c, rfl⟩ := (List.eq_nil_or_concat type).resolve_left htype
        rw [List.concat_eq_append] at heq hword
        have hat : InstancedAt name (before ++ after ++ following) (before ++ letters) := by
          refine ⟨c, hword c (List.mem_append_right _ (.head _)), ?_⟩
          have htext : before ++ after ++ following = before ++ letters ++ [c, ' '] ++ rest := by
            rw [List.append_assoc, heq]
            simp
          rw [htext]
          exact declares.namedAt _
        have hle := hall _ hat
        simp only [List.length_append] at hle
        have hshort : letters.length < after.length := by
          by_contra hlong
          rcases hend with rfl | ⟨front, d, hfront, hd⟩
          · have hlength := congrArg List.length heq
            simp only [List.length_append, List.length_cons, List.append_nil] at hlength
            omega
          · -- the run of letters would take the end of the stretch
            obtain ⟨inner, d', rfl⟩ := (List.eq_nil_or_concat after).resolve_left hne
            rw [List.concat_eq_append, ← List.append_assoc] at hfront
            obtain rfl : d' = d := List.singleton_inj.mp (List.append_inj' hfront rfl).2
            rw [List.concat_eq_append] at heq
            obtain ⟨more, hmore, -⟩ | ⟨more, hmore, -⟩ := List.append_eq_append_iff.mp heq
            · have hmem : d' ∈ letters ++ [c] := by
                rw [hmore]
                exact List.mem_append_left _ (List.mem_append_right _ (.head _))
              rw [hword d' hmem] at hd
              cases hd
            · rw [List.concat_eq_append, hmore] at hlong
              simp only [List.length_append, List.length_singleton] at hlong
              omega
        omega

/-- The first line with a place of the name, from the bracket on. -/
def FirstDeclared (name text line : Text) : Prop :=
  ∃ front rest behind, text = front ++ rest ∧ Declares name rest line behind ∧
    ∀ front', NamedAt name text front' → front.length ≤ front'.length

theorem findall_declaration_iff {name text line : Text} (hname : IsName name) :
    (∃ behind others, findall (childDeclarationPattern name) text =
        declaredLine name line behind :: others) ↔ FirstDeclared name text line := by
  have hproductive := childDeclarationPattern_productive hname
  constructor
  · rintro ⟨behind, others, hfound⟩
    obtain ⟨front, rest, rfl, hclear, hm⟩ := first_of_findall hproductive hfound
    obtain ⟨line', behind', declares, heq⟩ := declares_of_matchAt hm
    obtain ⟨rfl, rfl⟩ : line = line' ∧ behind = behind' := by
      simpa [declaredLine] using heq
    exact ⟨front, rest, behind, rfl, declares, clear_declaration_iff.mp hclear⟩
  · rintro ⟨front, rest, behind, rfl, declares, hfirst⟩
    have hm := matchAt_declaration declares
    rw [(clear_declaration_iff.mpr hfirst).findall,
      findall_hit hm (hproductive _ _ (mem_of_matchAt hm))]
    exact ⟨behind, _, rfl⟩

theorem exists_firstDeclared {name text front : Text} (hname : IsName name)
    (hat : NamedAt name text front) :
    ∃ line behind others, findall (childDeclarationPattern name) text =
      declaredLine name line behind :: others := by
  have hproductive := childDeclarationPattern_productive hname
  have hfound : findall (childDeclarationPattern name) text ≠ [] := by
    intro hnone
    have hle := clear_declaration_iff.mp (clear_of_findall hproductive hnone) front
      (by rwa [List.append_nil])
    obtain ⟨rest, rfl, -⟩ := hat
    simp only [List.length_append, List.length_cons] at hle
    omega
  obtain ⟨m, others, hfound⟩ := List.exists_cons_of_ne_nil hfound
  obtain ⟨stretch, rest, -, -, hm⟩ := first_of_findall hproductive hfound
  obtain ⟨line, behind, -, rfl⟩ := declares_of_matchAt hm
  exact ⟨line, behind, others, hfound⟩

/-! ## Rewiring one child -/

/-- The two lines of connections. -/
def portLines (faultIndices : List Nat) : Text :=
  "\t\t" ++ faultInputString faultIndices ++ ",\n\t\t" ++ faultOutputString faultIndices ++ ",\n"

omit [UnicodeData] in
theorem not_mem_faultParams {c : Char} {port : Text} (hport : c ∉ port)
    (hdigit : c.isDigit = false) (hmark : c ∉ "\x7b[], \x7d".toList) (faultIndices : List Nat) :
    c ∉ faultParams port faultIndices := by
  have hdecimal : ∀ n, c ∉ decimal n := by
    intro n hc
    rw [isDigit_of_mem_decimal hc] at hdigit
    cases hdigit
  have htexts : "\x7b[], \x7d".toList =
      "\x7b".toList ++ ("[".toList ++ ("], ".toList ++ "\x7d".toList)) := by decide
  rw [htexts] at hmark
  simp only [List.mem_append, not_or] at hmark
  obtain ⟨hopen, hleft, hright, hclose⟩ := hmark
  have hterms : c ∉ faultIndices.flatMap fun index =>
      (port ++ "[" ++ decimal index ++ "], " : Text) := by
    intro hc
    obtain ⟨index, -, hc⟩ := List.mem_flatMap.mp hc
    simp only [List.mem_append, hport, hleft, hdecimal, hright, or_self] at hc
  rw [faultParams]
  split
  · simp only [List.mem_append, not_or]
    exact ⟨⟨hopen, fun hc => hterms (List.mem_of_mem_take hc)⟩, hclose⟩
  · exact hport

omit [UnicodeData] in
theorem not_mem_portLines {c : Char} (hdigit : c.isDigit = false)
    (hmark : c ∉ "\x7b[], \x7d".toList)
    (hnames : c ∉ "fault_inputs".toList ∧ c ∉ "fault_outputs".toList)
    (htexts : c ∉ ".fault_inputs(".toList ∧ c ∉ ".fault_outputs(".toList ∧ c ∉ ")".toList)
    (hlayout : c ∉ "\t\t".toList ∧ c ∉ ",\n\t\t".toList ∧ c ∉ ",\n".toList)
    (faultIndices : List Nat) : c ∉ portLines faultIndices := by
  have hinputs := not_mem_faultParams hnames.1 hdigit hmark faultIndices
  have houtputs := not_mem_faultParams hnames.2 hdigit hmark faultIndices
  unfold portLines faultInputString faultOutputString
  simp only [List.mem_append, not_or]
  exact ⟨⟨⟨⟨hlayout.1, ⟨htexts.1, hinputs⟩, htexts.2.2⟩, hlayout.2.1⟩,
    ⟨htexts.2.1, houtputs⟩, htexts.2.2⟩, hlayout.2.2⟩

omit [UnicodeData] in
theorem portLines_plain (faultIndices : List Nat) :
    '\\' ∉ portLines faultIndices ∧ '>' ∉ portLines faultIndices :=
  ⟨not_mem_portLines (by decide) (by decide) (by decide) (by decide)
      (by decide) faultIndices,
    not_mem_portLines (by decide) (by decide) (by decide) (by decide)
      (by decide) faultIndices⟩

/-- The text in which an instance line has the type of a child and two more lines behind it. -/
def rewiredText (newType : Text) (place : Place) (before gap : Text) (faultIndices : List Nat)
    (line behind : Text) : Text :=
  before ++ (newType ++ ' ' :: (place.name ++ (gap ++ '(' :: (line ++ '\n' ::
    (portLines faultIndices ++ behind)))))

/-- The substitution comes upon the line of the instance alone, and the child of that name gives
it its type. -/
structure Rewires (heap : Heap) (ref child : Nat) (text : Text) (place : Place)
    (before gap : Text) (faultIndices : List Nat) (line behind : Text) : Prop where
  after_eq : place.after = line ++ '\n' :: behind
  one_line : '\n' ∉ line
  places : findall (childInstancePattern place.name) text =
    [⟨place.type ++ ' ' :: (place.name ++ (gap ++ '(' :: (line ++ ['\n']))), behind, []⟩]
  result : rewireChild heap ref text (place.name, faultIndices) = .ok
    (rewiredText (heap.moduleOf child).type place before gap faultIndices line behind)

/-- The line of an instance ends, has a blank in front of the bracket, is the only one that the
substitution comes upon, and reads like the first line with its name. -/
structure Rewirable (text : Text) (place : Place) (before gap line behind : Text) : Prop where
  after_eq : place.after = line ++ '\n' :: behind
  one_line : '\n' ∉ line
  spaced : gap = [' ']
  front : ∀ front, InstancedAt place.name text front → before.length ≤ front.length
  back : ∀ front, ¬ InstancedAt place.name behind front
  copied : ∃ first parts, FirstDeclared place.name text first ∧
    Template.parse 0 (first ++ ['\n']) = .ok parts ∧
      Template.expand parts (instanced place.type place.name line behind) = line ++ ['\n']

namespace InstanceLine

variable {text : Text} {place : Place} {before gap line behind : Text}

/-- The words of an instance line in front of its bracket end between words. -/
theorem exists_blank (found : InstanceLine text place before gap) :
    ∃ front c, before = front ++ [c] ∧ isWord c = false := by
  obtain ⟨front, start, indent, hbefore, -, hne, hblanks⟩ := found.indented
  obtain ⟨blanks, c, rfl⟩ := (List.eq_nil_or_concat indent).resolve_left hne
  rw [List.concat_eq_append] at hbefore hblanks
  refine ⟨front ++ (start ++ blanks), c, ?_, ?_⟩
  · rw [hbefore]
    simp only [List.append_assoc]
  · exact isWord_of_isBlank (hblanks c (List.mem_append_right _ (.head _)))

/-- The text of an instance line with a blank in front of its bracket. -/
theorem spaced_eq (found : InstanceLine text place before gap) (hgap : gap = [' '])
    (hafter : place.after = line ++ '\n' :: behind) :
    text = before ++ (place.type ++ ' ' ::
      (place.name ++ ' ' :: '(' :: (line ++ '\n' :: behind))) := by
  rw [found.text_eq, hgap, hafter]
  rfl

/-- The substitution comes upon lines with a blank in front of the bracket only. -/
theorem gap_of_findall (found : InstanceLine text place before gap)
    (hplaces : findall (childInstancePattern place.name) text =
      [⟨place.type ++ ' ' :: (place.name ++ (gap ++ '(' :: (line ++ ['\n']))), behind, []⟩]) :
    gap = [' '] := by
  obtain ⟨stretch, following, -, -, hm⟩ :=
    first_of_findall (childInstancePattern_productive _) hplaces
  obtain ⟨type, rest, line', behind', -, -, hword, -, heq⟩ := exists_of_matchAt_instance hm
  have htaken : place.type ++ ' ' :: (place.name ++ (gap ++ '(' :: (line ++ ['\n']))) =
      type ++ ' ' :: (place.name ++ ' ' :: '(' :: (line' ++ ['\n'])) := congrArg Match.taken heq
  have hbehind := ((endsRun_cons.mpr isWord_blank).unique (endsRun_cons.mpr isWord_blank)
    found.isType.word hword htaken).2
  rw [List.cons.injEq, List.append_cancel_left_eq] at hbehind
  rcases found.gapped with rfl | rfl
  · exact absurd (List.cons.inj hbehind.2).1 (by decide)
  · rfl

end InstanceLine

theorem not_instancedAt_iff {name text : Text} :
    (∀ front, ¬ InstancedAt name text front) ↔ Clear (childInstancePattern name) text [] := by
  rw [clear_instance_iff (Or.inl rfl), List.append_nil]
  refine forall_congr' fun front => ⟨fun hnot hat => absurd hat hnot, fun hle hat => ?_⟩
  have hlength := hle hat
  obtain ⟨c, -, rest, rfl, -⟩ := hat
  simp only [List.length_append, List.length_cons] at hlength
  omega

/-- The lines in front of and behind an instance line are left alone. -/
theorem findall_instance_iff {name type before line behind : Text} (htype : IsName type)
    (hline : '\n' ∉ line) :
    findall (childInstancePattern name)
        (before ++ (type ++ ' ' :: (name ++ ' ' :: '(' :: (line ++ '\n' :: behind)))) =
        [instanced type name line behind] ↔
      Clear (childInstancePattern name) before
          (type ++ ' ' :: (name ++ ' ' :: '(' :: (line ++ '\n' :: behind))) ∧
        Clear (childInstancePattern name) behind [] := by
  have hproductive := childInstancePattern_productive name
  have declares : Declares name (name ++ ' ' :: '(' :: (line ++ '\n' :: behind)) line behind :=
    ⟨rfl, hline⟩
  have hm := matchAt_instance htype.ne_nil htype.word declares
  have hcut := taken_append_rest (mem_of_matchAt hm)
  constructor
  · intro hfound
    obtain ⟨stretch, following, heq, hclear, hfirst⟩ := first_of_findall hproductive hfound
    have hfollowing := taken_append_rest (mem_of_matchAt hfirst)
    rw [hcut] at hfollowing
    subst hfollowing
    obtain rfl := List.append_cancel_right heq
    refine ⟨hclear, clear_of_findall hproductive ?_⟩
    rw [hclear.findall, findall_hit hm (hproductive _ _ (mem_of_matchAt hm)),
      List.cons.injEq] at hfound
    exact hfound.2
  · rintro ⟨hbefore, hbehind⟩
    have hnone : findall (childInstancePattern name) (instanced type name line behind).rest = [] :=
      findall_of_clear hbehind
    rw [hbefore.findall, findall_hit hm (hproductive _ _ (mem_of_matchAt hm)), hnone]

theorem sub_instance {name type before line behind : Text} (htype : IsName type)
    (hline : '\n' ∉ line)
    (hbefore : Clear (childInstancePattern name) before
      (type ++ ' ' :: (name ++ ' ' :: '(' :: (line ++ '\n' :: behind))))
    (hbehind : Clear (childInstancePattern name) behind []) (replacement : Match Char → Text) :
    sub (childInstancePattern name) replacement
        (before ++ (type ++ ' ' :: (name ++ ' ' :: '(' :: (line ++ '\n' :: behind)))) =
      before ++ (replacement (instanced type name line behind) ++ behind) := by
  have declares : Declares name (name ++ ' ' :: '(' :: (line ++ '\n' :: behind)) line behind :=
    ⟨rfl, hline⟩
  have hm := matchAt_instance htype.ne_nil htype.word declares
  have hrest : sub (childInstancePattern name) replacement
      (instanced type name line behind).rest = behind := sub_of_clear hbehind replacement
  rw [hbefore.sub, sub_hit hm (childInstancePattern_productive _ _ _ (mem_of_matchAt hm)), hrest]

theorem backslash_not_mem {name : Text} (hname : IsName name) : '\\' ∉ name := by
  have hword : isWord '\\' = false := by
    rw [isWord_ascii (by decide)]
    decide
  intro hmem
  rw [hname.word _ hmem] at hword
  cases hword

/-- The call of `re.sub` for a child whose first line was found. -/
theorem rewireChild_eq {heap : Heap} {self child : Nat} {text name first behind : Text}
    {others : List (Match Char)} (hname : IsName name)
    (hchild : heap.childNamed? self name = .some child)
    (htype : IsName (heap.moduleOf child).type)
    (hfound : findall (childDeclarationPattern name) text = declaredLine name first behind :: others)
    (faultIndices : List Nat) :
    rewireChild heap self text (name, faultIndices) =
      (Template.parse 0 (first ++ ['\n'])).map fun parts =>
        sub (childInstancePattern name) (fun m => (heap.moduleOf child).type ++ ' ' ::
          (name ++ ' ' :: '(' :: (Template.expand parts m ++ portLines faultIndices))) text := by
  have hblank : " ".toList = [' '] := by decide
  have htemplate : (heap.moduleOf child).type ++ " " ++ (declaredLine name first behind).taken ++
      "\t\t" ++ faultInputString faultIndices ++ ",\n\t\t" ++ faultOutputString faultIndices ++
        ",\n" = ((heap.moduleOf child).type ++ ' ' :: (name ++ [' ', '('])) ++
          (first ++ '\n' :: portLines faultIndices) := by
    unfold portLines
    simp only [hblank, declaredLine, List.append_assoc, List.cons_append, List.nil_append]
  have hplain : '\\' ∉ (heap.moduleOf child).type ++ ' ' :: (name ++ [' ', '(']) := by
    simp [backslash_not_mem htype, backslash_not_mem hname]
  obtain ⟨hports, hbracket⟩ := portLines_plain faultIndices
  rw [rewireChild, hchild]
  simp only [hfound]
  rw [htemplate, Template.resub_around hports hbracket hplain]
  simp only [List.append_assoc, List.cons_append, List.nil_append]

/--
The rewiring of a child changes the type on its own line, adds the two lines of connections
behind it and leaves all other text alone, exactly when the line ends and has a blank in front of
its bracket, no other line has a word, a blank, the name, a blank and a bracket, and the first
line with the name and a bracket goes on like the line of the child.
-/
theorem rewires_iff_rewirable {heap : Heap} {self child : Nat} {text : Text} {place : Place}
    {before gap : Text} (found : InstanceLine text place before gap)
    (hchild : heap.childNamed? self place.name = .some child)
    (htype : IsName (heap.moduleOf child).type) (faultIndices : List Nat) (line behind : Text) :
    Rewires heap self child text place before gap faultIndices line behind ↔
      Rewirable text place before gap line behind := by
  constructor
  · rintro ⟨hafter, hline, hplaces, hresult⟩
    have hgap := found.gap_of_findall hplaces
    have htext := found.spaced_eq hgap hafter
    subst hgap
    rw [htext] at hplaces
    obtain ⟨hbefore, hbehind⟩ := (findall_instance_iff found.isType hline).mp hplaces
    refine ⟨hafter, hline, rfl, ?_, not_instancedAt_iff.mpr hbehind, ?_⟩
    · rw [htext]
      exact (clear_instance_iff (Or.inr found.exists_blank)).mp hbefore
    · have hat : NamedAt place.name text (before ++ (place.type ++ [' '])) := by
        refine ⟨line ++ '\n' :: behind, ?_, List.mem_append_right _ (.head _)⟩
        rw [htext]
        simp only [List.append_assoc, List.cons_append, List.nil_append]
      obtain ⟨first, behind', others, hfirst⟩ := exists_firstDeclared found.isName hat
      rw [rewireChild_eq found.isName hchild htype hfirst, rewiredText] at hresult
      obtain ⟨parts, hparts, hsub⟩ := map_eq_ok.mp hresult
      refine ⟨first, parts, (findall_declaration_iff found.isName).mp ⟨_, _, hfirst⟩, hparts, ?_⟩
      rw [htext, sub_instance found.isType hline hbefore hbehind] at hsub
      simp only [List.append_assoc, List.cons_append, List.nil_append, List.append_cancel_left_eq,
        List.cons.injEq, true_and] at hsub
      have hcancel : Template.expand parts (instanced place.type place.name line behind) ++
          (portLines faultIndices ++ behind) =
            line ++ ['\n'] ++ (portLines faultIndices ++ behind) := by
        rw [hsub, List.append_assoc, List.singleton_append]
      exact List.append_cancel_right hcancel
  · rintro ⟨hafter, hline, rfl, hfront, hback, first, parts, hfirst, hparts, hexpand⟩
    have htext := found.spaced_eq rfl hafter
    have hbefore : Clear (childInstancePattern place.name) before
        (place.type ++ ' ' :: (place.name ++ ' ' :: '(' :: (line ++ '\n' :: behind))) := by
      rw [clear_instance_iff (Or.inr found.exists_blank), ← htext]
      exact hfront
    have hbehind := not_instancedAt_iff.mp hback
    refine ⟨hafter, hline, ?_, ?_⟩
    · rw [htext]
      exact (findall_instance_iff found.isType hline).mpr ⟨hbefore, hbehind⟩
    · obtain ⟨behind', others, hfound⟩ := (findall_declaration_iff found.isName).mpr hfirst
      rw [rewireChild_eq found.isName hchild htype hfound, hparts, htext,
        Except.map, sub_instance found.isType hline hbefore hbehind, hexpand]
      simp only [rewiredText, List.append_assoc, List.cons_append, List.nil_append]

/-! ## The children of one call -/

/-- Children are rewired one after the other, each on its own line. -/
inductive Rewirings (heap : Heap) (self : Nat) : Text → Dict Text (List Nat) → Text → Prop where
  | nil (text : Text) : Rewirings heap self text [] text
  | cons {text : Text} {place : Place} {before gap line behind last : Text} {child : Nat}
      {faultIndices : List Nat} {others : Dict Text (List Nat)}
      (found : InstanceLine text place before gap)
      (hchild : heap.childNamed? self place.name = .some child)
      (htype : IsName (heap.moduleOf child).type)
      (rewirable : Rewirable text place before gap line behind)
      (rest : Rewirings heap self (rewiredText (heap.moduleOf child).type place before gap
        faultIndices line behind) others last) :
      Rewirings heap self text ((place.name, faultIndices) :: others) last

theorem Rewirings.run {heap : Heap} {self : Nat} {text last : Text}
    {childFaults : Dict Text (List Nat)} (rewirings : Rewirings heap self text childFaults last) :
    rewireChildren heap self text childFaults = .ok last := by
  induction rewirings with
  | nil text => rfl
  | @cons text place before gap line behind last child faultIndices others found hchild htype
      rewirable rest ih =>
      have hstep := ((rewires_iff_rewirable found hchild htype faultIndices line behind).mpr rewirable).result
      exact foldlM_cons_eq_ok.mpr ⟨_, hstep, ih⟩

/-- A call whose children are rewired one after the other returns when its header is found. -/
theorem injectFaults_of_rewirings {heap : Heap} {self : Nat} {faultDriver : Option Text}
    {organized : Organized} {last text : Text} (hne : heap.pathsOf self ≠ [])
    (horganize : organizeFaults heap.draws heap.drawn (heap.moduleOf self) (heap.pathsOf self) =
      .ok organized)
    (rewirings : Rewirings (heap.copyModule self) self organized.module.moduleText
      organized.childFaults last)
    (hheader : rewriteHeader organized.module.type (newModuleType organized.module.type last)
      (heap.pathsOf self).length faultDriver last = .ok text) :
    injectFaults heap self faultDriver =
      .ok (⟨organized, last, text, horganize, rewirings.run, hheader⟩ :
        Rewriting heap self faultDriver).result :=
  injectFaults_of_rewriting hne _

/-- The loop over the children reaches a child. -/
structure Turn (heap : Heap) (ref : Nat) (name : Text) where
  organized : Organized
  earlier : Dict Text (List Nat)
  later : Dict Text (List Nat)
  faultIndices : List Nat
  text : Text
  organize : organizeFaults heap.draws heap.drawn (heap.moduleOf ref) (heap.pathsOf ref) =
    .ok organized
  split : organized.childFaults = earlier ++ (name, faultIndices) :: later
  reached : rewireChildren (heap.copyModule ref) ref organized.module.moduleText earlier =
    .ok text

namespace Turn

variable {heap : Heap} {ref child : Nat} {place : Place} {before gap : Text}

/-- The turn of a child changes its own line and nothing else. -/
structure Rewires (turn : Turn heap ref place.name) (child : Nat) (before gap line behind : Text) :
    Prop where
  after_eq : place.after = line ++ '\n' :: behind
  one_line : '\n' ∉ line
  places : findall (childInstancePattern place.name) turn.text =
    [⟨place.type ++ ' ' :: (place.name ++ (gap ++ '(' :: (line ++ ['\n']))), behind, []⟩]
  result : rewireChildren (heap.copyModule ref) ref turn.organized.module.moduleText
      (turn.earlier ++ [(place.name, turn.faultIndices)]) =
    .ok (rewiredText ((heap.copyModule ref).moduleOf child).type place before gap
      turn.faultIndices line behind)

/--
When `inject_faults` comes to a child, it changes the type on the line of the child, puts the two
lines of connections behind it and leaves all other text alone, exactly when the line ends and has
a blank in front of its bracket, no other line has a word, a blank, the name, a blank and a
bracket, and the first line with the name, a blank and a bracket goes on like the line of the
child.
-/
theorem rewires_iff (turn : Turn heap ref place.name)
    (found : InstanceLine turn.text place before gap)
    (hchild : heap.childNamed? ref place.name = .some child)
    (htype : IsName ((heap.copyModule ref).moduleOf child).type) (line behind : Text) :
    turn.Rewires child before gap line behind ↔
      Rewirable turn.text place before gap line behind := by
  have hchild' : (heap.copyModule ref).childNamed? ref place.name = .some child := by
    rw [(heap.copyModule_links ref).childNamed?, hchild]
  rw [← rewires_iff_rewirable found hchild' htype turn.faultIndices line behind]
  have hloop : rewireChildren (heap.copyModule ref) ref turn.organized.module.moduleText
      (turn.earlier ++ [(place.name, turn.faultIndices)]) =
        rewireChild (heap.copyModule ref) ref turn.text (place.name, turn.faultIndices) := by
    have hearlier := turn.reached
    rw [rewireChildren] at hearlier
    rw [rewireChildren, List.foldlM_append, hearlier, ok_bind, List.foldlM_cons]
    cases rewireChild (heap.copyModule ref) ref turn.text (place.name, turn.faultIndices) <;> rfl
  constructor
  · rintro ⟨hafter, hline, hplaces, hresult⟩
    exact ⟨hafter, hline, hplaces, hloop ▸ hresult⟩
  · rintro ⟨hafter, hline, hplaces, hresult⟩
    exact ⟨hafter, hline, hplaces, hloop.trans hresult⟩

end Turn

end Rewiring

section Lines

attribute [local instance] UnicodeData.ascii

/-- A design with two instances that each have a blank in front of the bracket. -/
def twoLines : Text := lines [
  "module Core(", "  input  clock", ");", "  Buf buf (", "    .x(clock)", "  );",
  "  ALU alu ( // adds", "    .y(clock)", "  );", "endmodule",
  "module Buf(", "  input  x", ");", "endmodule",
  "module ALU(", "  input  y", ");", "  wire  sum = y;", "endmodule"]

/-- The line of the second instance. -/
def aluPlace : Place :=
  ⟨"ALU", "alu", " // adds\n    .y(clock)\n  );\nendmodule"⟩

def aluBefore : Text :=
  "module Core(\n  input  clock\n);\n  Buf buf (\n    .x(clock)\n  );\n  "

def aluBehind : Text := "    .y(clock)\n  );\nendmodule"

/-- The text of the parent around the line. -/
def aluText : Text :=
  aluBefore ++ (aluPlace.type ++ ' ' :: (aluPlace.name ++ ([' '] ++ '(' :: aluPlace.after)))

theorem aluPlace_line : InstanceLine aluText aluPlace aluBefore [' '] where
  text_eq := rfl
  indented := ⟨"module Core(\n  input  clock\n);\n  Buf buf (\n    .x(clock)\n  );", ['\n'],
    [' ', ' '], by decide, Or.inl rfl, by decide, by simp [isBlank]⟩
  gapped := Or.inr rfl
  isType := by decide
  isName := by decide

theorem exists_ok_of_isSome {ε α : Type} {run : Except ε α}
    (hsome : run.toOption.isSome = true) : ∃ value, run = .ok value := by
  cases run with
  | error => cases hsome
  | ok value => exact ⟨value, rfl⟩

/-- The search finds the second instance, its turn rewires it, and the call returns. -/
theorem Turn.rewires_iff_twoLines :
    ∃ (tree marked : ModuleTree) (turn : Turn marked.heap 0 aluPlace.name) (heap : Heap),
      ModuleTree.IsSetUp twoLines "Core" tree ∧
        tree.markFaults ["/Root/alu/:sum"] = .ok marked ∧
          aluPlace ∈ discovered turn.text ∧
            turn.Rewires 2 aluBefore [' '] " // adds" aluBehind ∧
              Rewirable turn.text aluPlace aluBefore [' '] " // adds" aluBehind ∧
                injectFaults marked.heap 0 (.some faultDriverType) = .ok heap := by
  have hfacts : (ModuleTree.setUp twoLines "Core" (fun _ => 0) 5 >>= fun tree =>
      tree.markFaults ["/Root/alu/:sum"] >>= fun marked =>
        (organizeFaults marked.heap.draws marked.heap.drawn (marked.heap.moduleOf 0)
          (marked.heap.pathsOf 0)).map fun organized =>
            decide (organized.childFaults = [(aluPlace.name, [0])] ∧
              organized.module.moduleText = aluText ∧
              marked.heap.childNamed? 0 aluPlace.name = .some 2 ∧
              ((marked.heap.copyModule 0).moduleOf 2).type = "ALU".toList ∧
              rewireChildren (marked.heap.copyModule 0) 0 aluText [(aluPlace.name, [0])] =
                .ok (rewiredText "ALU" aluPlace aluBefore [' '] [0] " // adds" aluBehind) ∧
              marked.heap.pathsOf 0 ≠ [] ∧
              (rewriteHeader organized.module.type (newModuleType organized.module.type
                  (rewiredText "ALU" aluPlace aluBefore [' '] [0] " // adds" aluBehind))
                (marked.heap.pathsOf 0).length (.some faultDriverType)
                (rewiredText "ALU" aluPlace aluBefore [' '] [0] " // adds"
                  aluBehind)).toOption.isSome = true)) =
      .ok true := by
    decide +kernel
  obtain ⟨tree, htree, hfacts⟩ := bind_eq_ok.mp hfacts
  obtain ⟨marked, hmark, hfacts⟩ := bind_eq_ok.mp hfacts
  obtain ⟨organized, horganize, hfacts⟩ := map_eq_ok.mp hfacts
  obtain ⟨hchildren, htext, hchild, htype, hrewire, hpaths, hheader⟩ := of_decide_eq_true hfacts
  obtain ⟨turn, hturn, horganized, hearlier, hindices⟩ :
      ∃ turn : Turn marked.heap 0 aluPlace.name, turn.text = aluText ∧
        turn.organized.module.moduleText = aluText ∧ turn.earlier = [] ∧
          turn.faultIndices = [0] :=
    ⟨⟨organized, [], [], [0], aluText, horganize, hchildren, by rw [htext]; rfl⟩,
      rfl, htext, rfl, rfl⟩
  have rewires : turn.Rewires 2 aluBefore [' '] " // adds" aluBehind := by
    refine ⟨by decide, by decide, ?_, ?_⟩
    · rw [hturn]
      decide +kernel
    · rw [horganized, hearlier, hindices, htype]
      exact hrewire
  have hline : InstanceLine turn.text aluPlace aluBefore [' '] := hturn ▸ aluPlace_line
  have hname : IsName ((marked.heap.copyModule 0).moduleOf 2).type := by
    rw [htype]
    decide +kernel
  have rewirable := (turn.rewires_iff hline hchild hname _ _).mp rewires
  have hcopied : (marked.heap.copyModule 0).childNamed? 0 aluPlace.name = .some 2 := by
    rw [(marked.heap.copyModule_links 0).childNamed?, hchild]
  -- the only child is the whole loop
  have rewirings : Rewirings (marked.heap.copyModule 0) 0 organized.module.moduleText
      organized.childFaults
      (rewiredText "ALU" aluPlace aluBefore [' '] [0] " // adds" aluBehind) := by
    rw [htext, hchildren, ← htype]
    exact .cons aluPlace_line hcopied hname (hturn ▸ rewirable) (.nil _)
  obtain ⟨text, hwritten⟩ := exists_ok_of_isSome hheader
  obtain ⟨heap, hreturns⟩ : ∃ heap,
      injectFaults marked.heap 0 (.some faultDriverType) = .ok heap :=
    ⟨_, injectFaults_of_rewirings hpaths horganize rewirings hwritten⟩
  exact ⟨tree, marked, turn, heap, ⟨_, _, htree⟩, hmark,
    mem_discovered_iff.mpr ⟨_, _, hline⟩, rewires, rewirable, hreturns⟩

/-- A design with an instance that has no blank in front of its bracket. -/
def closeDesign : Text := lines [
  "module Core(", "  input  clock", ");", "  ALU alu(", "    .y(clock)", "  );", "endmodule",
  "module ALU(", "  input  y", ");", "  wire  sum = y;", "endmodule"]

/-- The instance is found as a child, and a fault below it makes `inject_faults` raise. -/
theorem closeDesign_raises :
    ∃ tree marked, ModuleTree.IsSetUp closeDesign "Core" tree ∧
      tree.markFaults ["/Root/alu/:sum"] = .ok marked ∧
        (∃ place ∈ discovered (marked.heap.moduleOf 0).moduleText,
          place.label = ("ALU".toList, "alu".toList) ∧
            marked.heap.childNamed? 0 place.name = .some 1) ∧
          injectFaults marked.heap 0 (.some "driver") = .error .indexError := by
  have hfacts : (ModuleTree.setUp closeDesign "Core" (fun _ => 0) 5 >>= fun tree =>
      (tree.markFaults ["/Root/alu/:sum"]).map fun (marked : ModuleTree) =>
        decide ((∃ place ∈ discovered (marked.heap.moduleOf 0).moduleText,
            place.label = ("ALU".toList, "alu".toList) ∧
              marked.heap.childNamed? 0 place.name = .some 1) ∧
          (injectFaults marked.heap 0 (.some "driver")).map (fun _ => ()) =
            .error .indexError)) = .ok true := by
    decide +kernel
  obtain ⟨tree, htree, hfacts⟩ := bind_eq_ok.mp hfacts
  obtain ⟨marked, hmark, hfacts⟩ := map_eq_ok.mp hfacts
  obtain ⟨hplace, hinject⟩ := of_decide_eq_true hfacts
  refine ⟨tree, marked, ⟨_, _, htree⟩, hmark, hplace, ?_⟩
  cases hrun : injectFaults marked.heap 0 (.some "driver") with
  | ok heap =>
      rw [hrun] at hinject
      cases hinject
  | error error =>
      rw [hrun] at hinject
      cases hinject
      rfl

end Lines

end FaultInjection
