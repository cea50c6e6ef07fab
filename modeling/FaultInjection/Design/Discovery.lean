import Mathlib.Data.List.Infix
import FaultInjection.Design.SetUp
import FaultInjection.Python.Repr

/-!
# Finding the instances

`_find_children` searches the `repr` of a text, where a newline is a backslash with
an `n` behind it.  The lines of the text that instantiate a module, the places that
the search comes upon, and when they are the same.
-/

namespace FaultInjection

open Regex Regex.Pattern Text

section Search

variable [UnicodeData]

/-- A place where a module is instantiated: the two words and what follows the bracket. -/
structure Place where
  type : Text
  name : Text
  after : Text
  deriving DecidableEq, Repr

def Place.label (place : Place) : Text × Text := (place.type, place.name)

def foundAt (m : Match Char) : Place := ⟨m.group 1, m.group 2, m.rest⟩

/-- An indentation, a type, a blank, a name, an optional blank and a bracket. -/
def instancePattern (isIndent : Char → Bool) : Pattern Char :=
  chain [some isIndent, .group 1 (some isWord), word " ", .group 2 (some isWord),
    maybe (word " "), word "("]

def instanceAt (isIndent : Char → Bool) (text : Text) : Option Place :=
  (matchAt (instancePattern isIndent) text).map foundAt

def isBlank (c : Char) : Bool := c == ' '

def isBlankOrTab (c : Char) : Bool := c == ' ' || c == '\t'

/-- The text behind the start of a line. -/
def line? : Text → Option Text
  | '\n' :: rest => .some rest
  | _ => none

/-- The text behind a newline or behind a backslash and an `n`. -/
def escape? : Text → Option Text
  | '\n' :: rest => .some rest
  | '\\' :: 'n' :: rest => .some rest
  | _ => none

/-- The headers behind the starts of a text, in order. -/
def placesBehind (start? : Text → Option Text) (isIndent : Char → Bool) (text : Text) :
    List Place :=
  text.tails.filterMap fun rest => (start? rest).bind (instanceAt isIndent)

/-- The lines of a text that begin with an indentation and instantiate a module. -/
def instanceLines (text : Text) : List Place :=
  (instanceAt isBlankOrTab text).toList ++ placesBehind line? isBlankOrTab text

/-- The places that the search in the `repr` of a text comes upon. -/
def discovered (text : Text) : List Place := placesBehind escape? isBlank text

/-! ## Headers -/

/-- A text begins with a header. -/
def Instantiates (isIndent : Char → Bool) (text : Text) (place : Place) : Prop :=
  ∃ indent gap, text = indent ++ (place.type ++ ' ' :: (place.name ++ (gap ++ '(' :: place.after))) ∧
    (indent ≠ [] ∧ ∀ c ∈ indent, isIndent c = true) ∧ (gap = [] ∨ gap = [' ']) ∧
    IsName place.type ∧ IsName place.name

omit [UnicodeData] in
theorem matchAt_gap {gap : Text} (hgap : gap = [] ∨ gap = [' ']) (after : Text) :
    matchAt (maybe (word " ")) (gap ++ '(' :: after) = .some ⟨gap, '(' :: after, []⟩ := by
  rw [maybe, matchAt_alt]
  rcases hgap with rfl | rfl
  · have hnone : matchAt (word " ") ('(' :: after) = none := rfl
    rw [List.nil_append, hnone, Option.none_or]
    rfl
  · have hblank : matchAt (word " ") ([' '] ++ '(' :: after) = .some ⟨[' '], '(' :: after, []⟩ :=
      matchAt_word_append " ".toList _
    rw [hblank, Option.some_or]

theorem matchAt_name {name : Text} (hname : IsName name) (index : Nat) {rest : Text}
    (hrest : EndsRun isWord rest) :
    matchAt (.group index (some isWord)) (name ++ rest) = .some ⟨name, rest, [(index, name)]⟩ := by
  rw [matchAt_group, matchAt_some hname.ne_nil hname.word hrest]
  rfl

theorem instanceAt_eq_some_iff {isIndent : Char → Bool}
    (hindent : ∀ c, isIndent c = true → isWord c = false) {text : Text} {place : Place} :
    instanceAt isIndent text = .some place ↔ Instantiates isIndent text place := by
  have htexts : " ".toList = [' '] ∧ "(".toList = ['('] := by decide +kernel
  constructor
  · intro hat
    obtain ⟨m, hm, rfl⟩ := Option.map_eq_some_iff.mp hat
    have hreading := mem_of_matchAt hm
    have hcut := taken_append_rest hreading
    simp only [instancePattern, chain, maybe, Pattern.some, mem_readings_group, mem_readings_seq,
      mem_readings_word, mem_readings_one, mem_readings_many, mem_readings_alt,
      mem_readings_empty] at hreading
    obtain ⟨_, ⟨_, ⟨space, _, -, hspace, rfl⟩, _, ⟨spaces, _, -, hspaces, rfl⟩, rfl⟩, _, ⟨_, ⟨_,
      ⟨_, ⟨letter, _, -, hletter, rfl⟩, _, ⟨letters, _, -, hletters, rfl⟩, rfl⟩, rfl⟩, _, ⟨_,
      ⟨_, -, rfl⟩, _, ⟨_, ⟨_, ⟨_, ⟨initial, _, -, hinitial, rfl⟩, _, ⟨others, _, -, hothers, rfl⟩,
      rfl⟩, rfl⟩, _, ⟨gap, hgap, _, ⟨after, hafter, rfl⟩, rfl⟩, rfl⟩, rfl⟩, rfl⟩, rfl⟩ := hreading
    have hall : ∀ {accepts : Char → Bool} {c : Char} {rest : Text}, accepts c = true →
        (∀ d ∈ rest, accepts d = true) → ∀ d ∈ c :: rest, accepts d = true := by
      rintro accepts c rest hc hrest d (_ | ⟨_, hd⟩)
      · exact hc
      · exact hrest d hd
    have hgapText : (gap.taken = [] ∨ gap.taken = [' ']) ∧ gap.groups = [] := by
      rcases hgap with ⟨_, -, rfl⟩ | rfl
      · exact ⟨Or.inr htexts.1, rfl⟩
      · exact ⟨Or.inl rfl, rfl⟩
    refine ⟨space :: spaces, gap.taken, ?_, ⟨List.cons_ne_nil _ _, hall hspace hspaces⟩,
      hgapText.1, ⟨?_, ?_⟩, ⟨?_, ?_⟩⟩
    all_goals
      simp only [foundAt, Match.group, Match.after, Match.close, hgapText.2]
    · rw [← hcut]
      simp [Match.after, Match.close, htexts]
      rfl
    · exact List.cons_ne_nil _ _
    · exact hall hletter hletters
    · exact List.cons_ne_nil _ _
    · exact hall hinitial hothers
  · rintro ⟨indent, gap, rfl, ⟨hne, hall⟩, hgap, htype, hname⟩
    have hword : ∀ {name : Text}, IsName name → ∀ rest, EndsRun isIndent (name ++ rest) := by
      intro name hname rest
      obtain ⟨c, others, rfl⟩ := List.exists_cons_of_ne_nil hname.ne_nil
      refine endsRun_cons.mpr ?_
      rw [← Bool.not_eq_true]
      intro hc
      have hletter := hname.word c (.head _)
      rw [hindent c hc] at hletter
      cases hletter
    have hgapEnds : EndsRun isWord (gap ++ '(' :: place.after) := by
      rcases hgap with rfl | rfl
      · exact endsRun_cons.mpr isWord_bracket
      · exact endsRun_cons.mpr isWord_blank
    have hblank : matchAt (word " ") (' ' :: (place.name ++ (gap ++ '(' :: place.after))) =
        .some ⟨[' '], place.name ++ (gap ++ '(' :: place.after), []⟩ :=
      matchAt_word_append " ".toList _
    have hbracket : matchAt (word "(") ('(' :: place.after) = .some ⟨['('], place.after, []⟩ :=
      matchAt_word_append "(".toList _
    have hmatch := matchAt_seq_of_first (matchAt_some hne hall (hword htype _))
      (matchAt_seq_of_first (matchAt_name htype 1 (endsRun_cons.mpr isWord_blank))
        (matchAt_seq_of_first hblank (matchAt_seq_of_first (matchAt_name hname 2 hgapEnds)
          (matchAt_seq_of_first (matchAt_gap hgap _) hbracket))))
    rw [instanceAt, instancePattern, chain, chain, chain, chain, chain, chain, hmatch]
    rfl

theorem isWord_of_isBlank {c : Char} (hc : isBlank c = true) : isWord c = false := by
  rw [isBlank, beq_iff_eq] at hc
  rw [hc]
  exact isWord_blank

theorem isWord_of_isBlankOrTab {c : Char} (hc : isBlankOrTab c = true) : isWord c = false := by
  rw [isBlankOrTab, Bool.or_eq_true, beq_iff_eq, beq_iff_eq] at hc
  rcases hc with rfl | rfl
  · exact isWord_blank
  · rw [isWord_ascii (by decide)]
    decide

theorem Instantiates.exists_run {isIndent : Char → Bool} {text : Text} {place : Place}
    (hplace : Instantiates isIndent text place) :
    ∃ run, text = run ++ place.after ∧ run ≠ [] ∧
      (∀ c ∈ run, isIndent c = true ∨ isWord c = true ∨ c = ' ' ∨ c = '(') ∧
      ∀ {isOther : Char → Bool} {after : Text},
        (∀ c ∈ run, isIndent c = true → isOther c = true) →
          Instantiates isOther (run ++ after) { place with after := after } := by
  obtain ⟨indent, gap, rfl, ⟨hne, hall⟩, hgap, htype, hname⟩ := hplace
  refine ⟨indent ++ (place.type ++ ' ' :: (place.name ++ (gap ++ ['(']))), by simp, by simp [hne],
    ?_, ?_⟩
  · intro c hc
    simp only [List.mem_append, List.mem_cons, List.not_mem_nil, or_false] at hc
    rcases hc with hc | hc | hc | hc | hc | hc
    · exact Or.inl (hall c hc)
    · exact Or.inr (Or.inl (htype.word c hc))
    · exact Or.inr (Or.inr (Or.inl hc))
    · exact Or.inr (Or.inl (hname.word c hc))
    · rcases hgap with rfl | rfl
      · cases hc
      · exact Or.inr (Or.inr (Or.inl (List.mem_singleton.mp hc)))
    · exact Or.inr (Or.inr (Or.inr hc))
  · intro isOther after hother
    refine ⟨indent, gap, by simp, ⟨hne, fun c hc => ?_⟩, hgap, htype, hname⟩
    exact hother c (List.mem_append_left _ hc) (hall c hc)

/-! ## The search in the printed form -/

/-- A place as it stands in the printed form. -/
def Place.printed (quote : Char) (place : Place) : Place :=
  { place with after := escaped quote place.after }

theorem header_no_mark {quote c : Char} (hquote : IsQuote quote)
    (hc : isSpace c = true ∨ isWord c = true ∨ c = ' ' ∨ c = '(') : c ≠ '\\' ∧ c ≠ quote := by
  have hmark : ∀ d, d = '\\' ∨ d = '\'' ∨ d = '"' →
      ¬ (isSpace d = true ∨ isWord d = true ∨ d = ' ' ∨ d = '(') := by
    intro d hd
    have hascii : d.toNat < 128 := by
      rcases hd with rfl | rfl | rfl <;> decide
    rw [isSpace_ascii hascii, isWord_ascii hascii]
    rcases hd with rfl | rfl | rfl <;> decide
  refine ⟨?_, ?_⟩
  · rintro rfl
    exact hmark _ (Or.inl rfl) hc
  · rintro rfl
    exact hmark _ (Or.inr hquote) hc

theorem instanceAt_escaped {quote : Char} (hquote : IsQuote quote) (text : Text) :
    instanceAt isSpace (escaped quote text) =
      (instanceAt isBlank text).map (Place.printed quote) := by
  refine Option.ext fun place => ?_
  rw [instanceAt_eq_some_iff fun c => isWord_of_isSpace, Option.map_eq_some_iff]
  constructor
  · intro hplace
    obtain ⟨run, hrun, -, hmem, hread⟩ := hplace.exists_run
    obtain ⟨after, rfl, hprintable, hafter⟩ :=
      exists_of_escaped_append hquote (fun c hc => header_no_mark hquote (hmem c hc)) hrun
    refine ⟨{ place with after := after }, ?_, ?_⟩
    · rw [instanceAt_eq_some_iff fun c => isWord_of_isBlank]
      refine hread fun c hc hspace => beq_iff_eq.mpr ?_
      exact UnicodeData.printable_of_space c hspace (hprintable c hc)
    · rw [Place.printed, ← hafter]
  · rintro ⟨place, hplace, rfl⟩
    rw [instanceAt_eq_some_iff fun c => isWord_of_isBlank] at hplace
    obtain ⟨run, rfl, -, hmem, hread⟩ := hplace.exists_run
    have hplain : ∀ c ∈ run, reprChar quote c = [c] := by
      have hascii : UnicodeData.isPrintable ' ' = true ∧ UnicodeData.isPrintable '_' = true ∧
          UnicodeData.isPrintable '(' = true := by
        refine ⟨?_, ?_, ?_⟩ <;> (rw [UnicodeData.printable_ascii _ (by decide)]; decide)
      intro c hc
      have hkind := hmem c hc
      refine reprChar_of_isPrintable ?_ (header_no_mark hquote (hkind.imp_left fun hblank => ?_))
      · rcases hkind with hblank | hword | rfl | rfl
        · rw [beq_iff_eq.mp hblank]
          exact hascii.1
        · rw [isWord, Bool.or_eq_true, beq_iff_eq] at hword
          rcases hword with halnum | rfl
          · exact UnicodeData.printable_of_alnum c halnum
          · exact hascii.2.1
        · exact hascii.1
        · exact hascii.2.2
      · rw [beq_iff_eq.mp hblank]
        exact isSpace_blank
    rw [escaped_append hplain]
    refine hread fun c _ hblank => ?_
    rw [beq_iff_eq.mp hblank]
    exact isSpace_blank

theorem childPattern_eq :
    childPattern = .seq (word ['\\', 'n']) (instancePattern isSpace) := by
  have htext : "\\n".toList = ['\\', 'n'] := by decide +kernel
  rw [childPattern, htext]
  rfl

theorem childPattern_productive : Productive childPattern := by
  apply productive_of_not_nullable
  rw [childPattern_eq, nullable, nullable_word]
  rfl

theorem clear_childPattern {stretch : Text} (hstretch : '\\' ∉ stretch) (following : Text) :
    Clear childPattern stretch following := by
  rw [childPattern_eq]
  exact Clear.of_not_mem _ hstretch following

theorem findall_backslash {c : Char} (hc : c ≠ 'n') (rest : Text) :
    findall childPattern ('\\' :: c :: rest) = findall childPattern (c :: rest) := by
  have hnone : matchAt childPattern ('\\' :: c :: rest) = none := by
    rw [childPattern_eq]
    refine matchAt_word_seq_none _ ?_
    rintro ⟨left, heq⟩
    simp only [List.cons_append, List.nil_append, List.cons.injEq, true_and] at heq
    exact hc heq.1.symm
  have hclear : Clear childPattern ['\\'] (c :: rest) :=
    Clear.cons_iff.mpr ⟨hnone, Clear.nil _ _⟩
  exact hclear.findall

/-- Behind a backslash and an `n` the search looks for a header. -/
theorem findall_escape {quote : Char} (hquote : IsQuote quote) (text : Text) :
    (findall childPattern ('\\' :: 'n' :: escaped quote text)).map foundAt =
      ((instanceAt isBlank text).map (Place.printed quote)).toList ++
        (findall childPattern (escaped quote text)).map foundAt := by
  have hmatch := matchAt_word_seq ['\\', 'n'] (escaped quote text) (instancePattern isSpace)
  rw [← childPattern_eq] at hmatch
  rw [← instanceAt_escaped hquote]
  cases hm : matchAt (instancePattern isSpace) (escaped quote text) with
  | none =>
      rw [hm] at hmatch
      have hclear : Clear childPattern ['\\', 'n'] (escaped quote text) :=
        Clear.cons_iff.mpr ⟨hmatch, clear_childPattern (by decide) _⟩
      rw [instanceAt, hm]
      exact congrArg (List.map foundAt) hclear.findall
  | some m =>
      have hplace : instanceAt isSpace (escaped quote text) = .some (foundAt m) := by
        rw [instanceAt, hm]
        rfl
      obtain ⟨run, hrun, -, hmem, -⟩ :=
        ((instanceAt_eq_some_iff fun c => isWord_of_isSpace).mp hplace).exists_run
      have hclear : Clear childPattern run m.rest := by
        refine clear_childPattern (fun hbackslash => ?_) _
        exact (header_no_mark hquote (hmem _ hbackslash)).1 rfl
      have hrest : findall childPattern (escaped quote text) = findall childPattern m.rest :=
        (congrArg _ hrun).trans hclear.findall
      rw [hm, Option.map_some] at hmatch
      have hhit := findall_hit hmatch (childPattern_productive _ _ (mem_of_matchAt hmatch))
      have hsame : foundAt (Match.after ⟨['\\', 'n'], escaped quote text, []⟩ m) = foundAt m := by
        simp only [foundAt, Match.group, Match.after, List.append_nil]
      rw [hplace, hrest]
      refine (congrArg (List.map foundAt) hhit).trans ?_
      rw [List.map_cons, hsame]
      rfl

theorem placesBehind_cons (start? : Text → Option Text) (isIndent : Char → Bool) (c : Char)
    (text : Text) :
    placesBehind start? isIndent (c :: text) =
      ((start? (c :: text)).bind (instanceAt isIndent)).toList ++
        placesBehind start? isIndent text := by
  rw [placesBehind, List.tails, List.filterMap_cons]
  cases (start? (c :: text)).bind (instanceAt isIndent) <;> rfl

omit [UnicodeData] in
theorem escape?_of_ne {c : Char} (hc : c ≠ '\\' ∧ c ≠ '\n') (text : Text) :
    escape? (c :: text) = none := by
  unfold escape?
  split
  · rename_i heq
    exact absurd (List.cons.inj heq).1 hc.2
  · rename_i heq
    exact absurd (List.cons.inj heq).1 hc.1
  · rfl

/-- The printed form does not begin with an `n` where the text does not. -/
theorem escaped_head {quote : Char} (hquote : IsQuote quote) {text : Text}
    (htext : ∀ rest, text ≠ 'n' :: rest) :
    ∃ c rest, escaped quote text = c :: rest ∧ c ≠ 'n' := by
  cases text with
  | nil =>
      refine ⟨quote, [], rfl, ?_⟩
      rcases hquote with rfl | rfl <;> decide
  | cons c text =>
      rw [escaped_cons]
      cases reprChar_cases hquote c with
      | plain hrepr hprintable hbackslash hnewline =>
          refine ⟨c, escaped quote text, by rw [hrepr]; rfl, ?_⟩
          rintro rfl
          exact htext text rfl
      | newline hrepr hc => exact ⟨'\\', _, by rw [hrepr]; rfl, by decide⟩
      | backslash hrepr hc => exact ⟨'\\', _, by rw [hrepr]; rfl, by decide⟩
      | escape d more hrepr hd hmore hc => exact ⟨'\\', _, by rw [hrepr]; rfl, by decide⟩

/-- The search comes upon the headers behind newlines and behind backslashes with an `n`. -/
theorem findall_escaped {quote : Char} (hquote : IsQuote quote) (text : Text) :
    (findall childPattern (escaped quote text)).map foundAt =
      (discovered text).map (Place.printed quote) := by
  induction text with
  | nil =>
      have hclear : Clear childPattern [quote] [] := by
        refine clear_childPattern ?_ _
        rcases hquote with rfl | rfl <;> decide
      have hnone := hclear.findall
      rw [List.append_nil, findall_nil] at hnone
      rw [escaped, List.flatMap_nil, List.nil_append, hnone]
      rfl
  | cons c text ih =>
      rw [escaped_cons, discovered, placesBehind_cons, List.map_append, ← discovered, ← ih]
      cases reprChar_cases hquote c with
      | plain hrepr hprintable hbackslash hnewline =>
          have hclear : Clear childPattern [c] (escaped quote text) :=
            clear_childPattern (fun hmem => hbackslash (List.mem_singleton.mp hmem).symm) _
          rw [hrepr, escape?_of_ne ⟨hbackslash, hnewline⟩, hclear.findall]
          rfl
      | newline hrepr hc =>
          rw [hrepr, hc]
          refine (findall_escape hquote text).trans ?_
          cases hat : instanceAt isBlank text with
          | none => simp [escape?, hat]
          | some place => simp [escape?, hat]
      | backslash hrepr hc =>
          rw [hrepr, hc]
          refine (congrArg (List.map foundAt) (findall_backslash (by decide) _)).trans ?_
          by_cases hn : ∃ rest, text = 'n' :: rest
          · obtain ⟨rest, rfl⟩ := hn
            have hletter : escaped quote ('n' :: rest) = 'n' :: escaped quote rest := by
              have hprintable : UnicodeData.isPrintable 'n' = true := by
                rw [UnicodeData.printable_ascii _ (by decide)]
                decide
              have hmark : 'n' ≠ quote := by
                rcases hquote with rfl | rfl <;> decide
              rw [escaped_cons, reprChar_of_isPrintable hprintable ⟨by decide, hmark⟩]
              rfl
            have hclear : Clear childPattern ['n'] (escaped quote rest) :=
              clear_childPattern (by decide) _
            have hskip : findall childPattern ('n' :: escaped quote rest) =
                findall childPattern (escaped quote rest) := hclear.findall
            rw [hletter, hskip]
            refine (findall_escape hquote rest).trans ?_
            cases hat : instanceAt isBlank rest with
            | none => simp [escape?, hat]
            | some place => simp [escape?, hat]
          · have hnone : escape? ('\\' :: text) = none := by
              unfold escape?
              split
              · rename_i heq
                exact absurd (List.cons.inj heq).1 (by decide)
              · rename_i rest heq
                exact absurd ⟨rest, (List.cons.inj heq).2⟩ hn
              · rfl
            obtain ⟨d, rest, hhead, hd⟩ := escaped_head hquote (not_exists.mp hn)
            rw [hnone, hhead]
            exact congrArg (List.map foundAt) (findall_backslash hd rest)
      | escape d more hrepr hd hmore hc =>
          have hclear : Clear childPattern (d :: more) (escaped quote text) := by
            refine clear_childPattern (fun hmem => ?_) _
            rcases List.mem_cons.mp hmem with heq | hmem
            · exact hd.1 heq.symm
            · exact hmore hmem
          rw [hrepr, escape?_of_ne hc]
          refine (congrArg (List.map foundAt) (findall_backslash hd.2 _)).trans ?_
          exact congrArg (List.map foundAt) hclear.findall

theorem findall_repr (text : Text) :
    (findall childPattern (repr text)).map foundAt =
      (discovered text).map (Place.printed (reprQuote text)) := by
  have hquote := isQuote_reprQuote text
  have hclear : Clear childPattern [reprQuote text] (escaped (reprQuote text) text) := by
    refine clear_childPattern ?_ _
    rcases hquote with hquote | hquote <;> (rw [hquote]; decide)
  have hskip : findall childPattern (repr text) =
      findall childPattern (escaped (reprQuote text) text) := hclear.findall
  rw [hskip, findall_escaped hquote]

/-! ## Places one behind the other -/

/-- Starts are newlines and backslashes, and a start takes something. -/
structure IsStart (start? : Text → Option Text) : Prop where
  none : ∀ {c : Char}, c ≠ '\\' ∧ c ≠ '\n' → ∀ text, start? (c :: text) = none
  nil : start? [] = .none
  behind : ∀ {text rest : Text}, start? text = .some rest →
    ∃ c run, text = c :: (run ++ rest) ∧ ∀ d ∈ run, d ≠ '\\' ∧ d ≠ '\n'

omit [UnicodeData] in
theorem line?_of_ne {c : Char} (hc : c ≠ '\n') (text : Text) : line? (c :: text) = none := by
  unfold line?
  split
  · rename_i heq
    exact absurd (List.cons.inj heq).1 hc
  · rfl

omit [UnicodeData] in
theorem isStart_line? : IsStart line? where
  none := fun hc => line?_of_ne hc.2
  nil := rfl
  behind := by
    intro text rest hrest
    unfold line? at hrest
    split at hrest
    · cases hrest
      exact ⟨'\n', [], rfl, by simp⟩
    · cases hrest

omit [UnicodeData] in
theorem isStart_escape? : IsStart escape? where
  none := escape?_of_ne
  nil := rfl
  behind := by
    intro text rest hrest
    unfold escape? at hrest
    split at hrest
    · cases hrest
      exact ⟨'\n', [], rfl, by simp⟩
    · cases hrest
      exact ⟨'\\', ['n'], rfl, by simp⟩
    · cases hrest

/-- Indentations contain no words, no backslashes and no newlines. -/
def IsIndent (isIndent : Char → Bool) : Prop :=
  ∀ c, isIndent c = true → isWord c = false ∧ c ≠ '\\' ∧ c ≠ '\n'

theorem isIndent_isBlankOrTab : IsIndent isBlankOrTab := by
  intro c hc
  refine ⟨isWord_of_isBlankOrTab hc, ?_⟩
  rw [isBlankOrTab, Bool.or_eq_true, beq_iff_eq, beq_iff_eq] at hc
  rcases hc with rfl | rfl <;> decide

theorem isIndent_isBlank : IsIndent isBlank := fun c hc =>
  isIndent_isBlankOrTab c (Bool.or_eq_true_iff.mpr (Or.inl hc))

section Behind

variable {start? : Text → Option Text} {isIndent : Char → Bool}

theorem exists_header (hindent : IsIndent isIndent) {text : Text} {place : Place}
    (hplace : instanceAt isIndent text = .some place) :
    ∃ run, text = run ++ place.after ∧ run ≠ [] ∧ ∀ c ∈ run, c ≠ '\\' ∧ c ≠ '\n' := by
  obtain ⟨run, hrun, hne, hmem, -⟩ :=
    ((instanceAt_eq_some_iff fun c hc => (hindent c hc).1).mp hplace).exists_run
  refine ⟨run, hrun, hne, fun c hc => ?_⟩
  rcases hmem c hc with hc | hc | rfl | rfl
  · exact (hindent c hc).2
  · have hmarks : isWord '\\' = false ∧ isWord '\n' = false := by
      refine ⟨?_, isWord_newline⟩
      rw [isWord_ascii (by decide)]
      decide
    refine ⟨?_, ?_⟩
    · rintro rfl
      rw [hmarks.1] at hc
      cases hc
    · rintro rfl
      rw [hmarks.2] at hc
      cases hc
  · decide
  · decide

theorem placesBehind_append (hstart : IsStart start?) {run : Text}
    (hrun : ∀ c ∈ run, c ≠ '\\' ∧ c ≠ '\n') (text : Text) :
    placesBehind start? isIndent (run ++ text) = placesBehind start? isIndent text := by
  induction run with
  | nil => rfl
  | cons c run ih =>
      rw [List.cons_append, placesBehind_cons, hstart.none (hrun c (.head _)),
        ih fun d hd => hrun d (.tail _ hd)]
      rfl

theorem exists_of_mem_placesBehind (hstart : IsStart start?) (hindent : IsIndent isIndent)
    {text : Text} {place : Place} (hplace : place ∈ placesBehind start? isIndent text) :
    ∃ run, run ≠ [] ∧ text = run ++ place.after := by
  obtain ⟨rest, hrest, hbind⟩ := List.mem_filterMap.mp hplace
  obtain ⟨line, hline, hat⟩ := Option.bind_eq_some_iff.mp hbind
  obtain ⟨before, rfl⟩ := (List.mem_tails _ _).mp hrest
  obtain ⟨c, mark, rfl, -⟩ := hstart.behind hline
  obtain ⟨run, rfl, hne, -⟩ := exists_header hindent hat
  exact ⟨before ++ c :: (mark ++ run), by simp, by simp⟩

theorem printed_not_mem (hstart : IsStart start?) (hindent : IsIndent isIndent) {quote : Char}
    (hquote : IsQuote quote) {isOther : Char → Bool} (hother : IsIndent isOther) {mark text : Text}
    (hmark : ∀ c ∈ mark, c ≠ '\\' ∧ c ≠ '\n') {place : Place}
    (hplace : instanceAt isOther text = .some place) :
    place.printed quote ∉
      (placesBehind start? isIndent (mark ++ text)).map (Place.printed quote) := by
  obtain ⟨run, rfl, -, hrun⟩ := exists_header hother hplace
  rw [placesBehind_append hstart hmark, placesBehind_append hstart hrun]
  intro hmem
  obtain ⟨later, hmem, heq⟩ := List.mem_map.mp hmem
  obtain ⟨between, hne, hbetween⟩ := exists_of_mem_placesBehind hstart hindent hmem
  have hafter : escaped quote later.after = escaped quote place.after := congrArg Place.after heq
  have hlength := length_escaped_lt hquote hne later.after
  rw [← hbetween, hafter] at hlength
  exact Nat.lt_irrefl _ hlength

theorem printed_not_mem_of_start (hstart : IsStart start?) (hindent : IsIndent isIndent)
    {quote : Char} (hquote : IsQuote quote) {other? : Text → Option Text}
    {isOther : Char → Bool} (hother : IsStart other?) (hotherIndent : IsIndent isOther) {c : Char}
    {text : Text} {place : Place}
    (hplace : (other? (c :: text)).bind (instanceAt isOther) = .some place) :
    place.printed quote ∉ (placesBehind start? isIndent text).map (Place.printed quote) := by
  obtain ⟨rest, hrest, hat⟩ := Option.bind_eq_some_iff.mp hplace
  obtain ⟨d, mark, hcut, hmark⟩ := hother.behind hrest
  obtain ⟨rfl, rfl⟩ := List.cons.inj hcut
  exact printed_not_mem hstart hindent hquote hotherIndent hmark hat

end Behind

/-- An instantiation is read by an indentation that takes all of its leading blanks and
tabs. -/
theorem instantiates_iff {isIndent : Char → Bool}
    (hindent : ∀ c, isIndent c = true → isBlankOrTab c = true) {text : Text} {place : Place} :
    Instantiates isIndent text place ↔ Instantiates isBlankOrTab text place ∧
      ∀ c ∈ text.takeWhile isBlankOrTab, isIndent c = true := by
  have htake : ∀ {indent gap : Text}, (∀ c ∈ indent, isBlankOrTab c = true) →
      IsName place.type → (indent ++ (place.type ++ ' ' :: (place.name ++
        (gap ++ '(' :: place.after)))).takeWhile isBlankOrTab = indent := by
    intro indent gap hall htype
    obtain ⟨c, others, heq⟩ := List.exists_cons_of_ne_nil htype.ne_nil
    have hword := htype.word c (heq ▸ .head _)
    have hc : ¬ isBlankOrTab c = true := by
      intro hblank
      rw [isWord_of_isBlankOrTab hblank] at hword
      cases hword
    rw [List.takeWhile_append_of_pos hall, heq, List.cons_append, List.takeWhile_cons_of_neg hc,
      List.append_nil]
  constructor
  · rintro ⟨indent, gap, rfl, ⟨hne, hall⟩, hgap, htype, hname⟩
    have hblank : ∀ c ∈ indent, isBlankOrTab c = true := fun c hc => hindent c (hall c hc)
    rw [htake hblank htype]
    exact ⟨⟨indent, gap, rfl, ⟨hne, hblank⟩, hgap, htype, hname⟩, hall⟩
  · rintro ⟨⟨indent, gap, rfl, ⟨hne, hall⟩, hgap, htype, hname⟩, hevery⟩
    rw [htake hall htype] at hevery
    exact ⟨indent, gap, rfl, ⟨hne, hevery⟩, hgap, htype, hname⟩

/-- Only an indentation without tabs is read in the printed form. -/
theorem instanceAt_isBlank (text : Text) :
    instanceAt isBlank text =
      if '\t' ∈ text.takeWhile isBlankOrTab then none else instanceAt isBlankOrTab text := by
  have hiff : ∀ place, Instantiates isBlank text place ↔ Instantiates isBlankOrTab text place ∧
      ∀ c ∈ text.takeWhile isBlankOrTab, isBlank c = true :=
    fun place => instantiates_iff fun c hc => Bool.or_eq_true_iff.mpr (Or.inl hc)
  have hread : ∀ place, instanceAt isBlank text = .some place ↔ Instantiates isBlank text place :=
    fun place => instanceAt_eq_some_iff fun c => isWord_of_isBlank
  split
  · rename_i htab
    rw [Option.eq_none_iff_forall_ne_some]
    intro place hplace
    exact absurd (((hiff place).mp ((hread place).mp hplace)).2 _ htab) (by decide)
  · rename_i htab
    refine Option.ext fun place => ?_
    rw [hread, hiff, instanceAt_eq_some_iff fun c => isWord_of_isBlankOrTab, and_iff_left_iff_imp]
    intro _ c hc
    have hkind := List.mem_takeWhile_imp hc
    rw [isBlankOrTab, Bool.or_eq_true] at hkind
    refine hkind.resolve_right fun heq => htab ?_
    rw [← beq_iff_eq.mp heq]
    exact hc

/-! ## Comparing the places -/

section Compare

variable {view : Place → Place} {first second : Option Place} {behind behind' : List Place}

omit [UnicodeData] in
/-- Two rows agree exactly when their heads and the rests do, where no head comes again in the
other rest. -/
theorem heads_iff (hfirst : ∀ place ∈ first, view place ∉ behind'.map view)
    (hsecond : ∀ place ∈ second, view place ∉ behind.map view)
    (hboth : ∀ place ∈ first, ∀ other ∈ second, place = other) :
    (first.toList ++ behind).map view = (second.toList ++ behind').map view ↔
      first = second ∧ behind.map view = behind'.map view := by
  cases first with
  | none =>
      cases second with
      | none => simp
      | some other =>
          refine ⟨fun heq => ?_, fun hand => by cases hand.1⟩
          refine absurd ?_ (hsecond other rfl)
          rw [Option.toList_none, List.nil_append] at heq
          rw [heq]
          exact .head _
  | some place =>
      cases second with
      | none =>
          refine ⟨fun heq => ?_, fun hand => by cases hand.1⟩
          refine absurd ?_ (hfirst place rfl)
          rw [Option.toList_none, List.nil_append] at heq
          rw [← heq]
          exact .head _
      | some other =>
          obtain rfl := hboth place rfl other rfl
          simp

end Compare

/-- The known instantiations of a text are read alike by the search and line by line. -/
structure Indented (known : Text → Bool) (text : Text) : Prop where
  first : ∀ place, instanceAt isBlankOrTab text = .some place → known place.type = false
  blanks : ∀ line place, '\n' :: line <:+ text → instanceAt isBlankOrTab line = .some place →
    known place.type = true → '\t' ∉ line.takeWhile isBlankOrTab
  literals : ∀ rest place, '\\' :: 'n' :: rest <:+ text → instanceAt isBlank rest = .some place →
    known place.type = false

section Rows

variable (known : Text → Bool)

/-- The places of known types. -/
def knownPlaces (places : List Place) : List Place := places.filter fun place => known place.type

omit [UnicodeData] in
theorem knownPlaces_toList (place? : Option Place) : knownPlaces known place?.toList =
    (place?.filter fun place => known place.type).toList := by
  cases place? with
  | none => rfl
  | some place =>
      rw [Option.toList_some, Option.filter_some, knownPlaces, List.filter_singleton]
      cases known place.type <;> rfl

theorem knownPlaces_cons (start? : Text → Option Text) (isIndent : Char → Bool) (c : Char)
    (text : Text) :
    knownPlaces known (placesBehind start? isIndent (c :: text)) =
      (((start? (c :: text)).bind (instanceAt isIndent)).filter fun place =>
        known place.type).toList ++ knownPlaces known (placesBehind start? isIndent text) := by
  rw [placesBehind_cons, knownPlaces, List.filter_append, ← knownPlaces, ← knownPlaces,
    knownPlaces_toList]

/-- At one place of a text the search and the lines agree. -/
def Agrees (text : Text) : Prop :=
  (((escape? text).bind (instanceAt isBlank)).filter fun place => known place.type) =
    ((line? text).bind (instanceAt isBlankOrTab)).filter fun place => known place.type

theorem agrees_line (text : Text) :
    Agrees known ('\n' :: text) ↔ ∀ place, instanceAt isBlankOrTab text = .some place →
      known place.type = true → '\t' ∉ text.takeWhile isBlankOrTab := by
  have hsearch : (escape? ('\n' :: text)).bind (instanceAt isBlank) = instanceAt isBlank text := rfl
  have hline : (line? ('\n' :: text)).bind (instanceAt isBlankOrTab) =
      instanceAt isBlankOrTab text := rfl
  rw [Agrees, hsearch, hline, instanceAt_isBlank]
  split
  · rename_i htab
    rw [Option.filter_none, eq_comm, Option.filter_eq_none_iff]
    exact forall₂_congr fun place _ => ⟨fun hunknown hknown => absurd hknown hunknown,
      fun hnone hknown => hnone hknown htab⟩
  · rename_i htab
    exact ⟨fun _ _ _ _ => htab, fun _ => rfl⟩

theorem agrees_literal (text : Text) :
    Agrees known ('\\' :: 'n' :: text) ↔ ∀ place, instanceAt isBlank text = .some place →
      known place.type = false := by
  have hsearch : (escape? ('\\' :: 'n' :: text)).bind (instanceAt isBlank) =
      instanceAt isBlank text := rfl
  have hline : (line? ('\\' :: 'n' :: text)).bind (instanceAt isBlankOrTab) = none := rfl
  rw [Agrees, hsearch, hline, Option.filter_none, Option.filter_eq_none_iff]
  exact forall₂_congr fun place _ => Bool.not_eq_true _ ▸ Iff.rfl

theorem agrees_of_starts {text : Text}
    (hline : ∀ line, text = '\n' :: line → Agrees known text)
    (hliteral : ∀ rest, text = '\\' :: 'n' :: rest → Agrees known text) : Agrees known text := by
  cases hescape : escape? text with
  | none =>
      have hnone : line? text = none := by
        unfold line?
        split
        · cases hescape
        · rfl
      rw [Agrees, hescape, hnone]
      rfl
  | some rest =>
      unfold escape? at hescape
      split at hescape
      · exact hline _ rfl
      · exact hliteral _ rfl
      · cases hescape

theorem not_mem_knownPlaces {quote : Char} {row : List Place} {place : Place}
    (hplace : place.printed quote ∉ row.map (Place.printed quote)) :
    place.printed quote ∉ (knownPlaces known row).map (Place.printed quote) := by
  intro hmem
  obtain ⟨other, hother, heq⟩ := List.mem_map.mp hmem
  exact hplace (List.mem_map.mpr ⟨other, (List.mem_filter.mp hother).1, heq⟩)

theorem agrees_iff {quote : Char} (hquote : IsQuote quote) (text : Text) :
    (knownPlaces known (discovered text)).map (Place.printed quote) =
        (knownPlaces known (placesBehind line? isBlankOrTab text)).map (Place.printed quote) ↔
      ∀ rest, rest <:+ text → Agrees known rest := by
  induction text with
  | nil =>
      refine ⟨fun _ rest hrest => ?_, fun _ => rfl⟩
      rw [List.suffix_nil.mp hrest]
      rfl
  | cons c text ih =>
      rw [discovered, knownPlaces_cons, knownPlaces_cons, heads_iff, ← discovered, ih]
      · constructor
        · rintro ⟨hhead, htail⟩ rest hrest
          rcases List.suffix_cons_iff.mp hrest with rfl | hrest
          · exact hhead
          · exact htail rest hrest
        · intro hall
          exact ⟨hall _ List.suffix_rfl,
            fun rest hrest => hall rest (List.suffix_cons_iff.mpr (Or.inr hrest))⟩
      · intro place hplace
        exact not_mem_knownPlaces known (printed_not_mem_of_start isStart_line?
          isIndent_isBlankOrTab hquote isStart_escape? isIndent_isBlank
            (Option.filter_eq_some_iff.mp hplace).1)
      · intro place hplace
        exact not_mem_knownPlaces known (printed_not_mem_of_start isStart_escape? isIndent_isBlank
          hquote isStart_line? isIndent_isBlankOrTab (Option.filter_eq_some_iff.mp hplace).1)
      · intro place hplace other hother
        obtain ⟨line, hline, hat⟩ :=
          Option.bind_eq_some_iff.mp (Option.filter_eq_some_iff.mp hother).1
        have hsearch := (Option.filter_eq_some_iff.mp hplace).1
        by_cases hc : c = '\n'
        · subst hc
          obtain rfl : text = line := Option.some.inj hline
          have hblank : instanceAt isBlank text = .some place := hsearch
          rw [instanceAt_isBlank] at hblank
          split at hblank
          · cases hblank
          · rw [hat] at hblank
            exact (Option.some.inj hblank).symm
        · rw [line?_of_ne hc] at hline
          cases hline

/-- The search comes upon exactly the lines of a text that instantiate known modules when these
are indented by blanks, follow a newline, and are not spelt behind a backslash and an `n`. -/
theorem indented_iff {quote : Char} (hquote : IsQuote quote) (text : Text) :
    (knownPlaces known (discovered text)).map (Place.printed quote) =
        (knownPlaces known (instanceLines text)).map (Place.printed quote) ↔
      Indented known text := by
  have hfirst : knownPlaces known (instanceLines text) =
      ((instanceAt isBlankOrTab text).filter fun place => known place.type).toList ++
        knownPlaces known (placesBehind line? isBlankOrTab text) := by
    rw [instanceLines, knownPlaces, List.filter_append, ← knownPlaces, ← knownPlaces,
      knownPlaces_toList]
  have hnone : (none : Option Place).toList ++ knownPlaces known (discovered text) =
      knownPlaces known (discovered text) := rfl
  rw [hfirst, ← hnone, heads_iff, agrees_iff known hquote, eq_comm, Option.filter_eq_none_iff]
  · constructor
    · rintro ⟨hunknown, hagrees⟩
      refine ⟨fun place hplace => Bool.not_eq_true _ ▸ hunknown place hplace,
        fun line place hline => ?_, fun rest place hrest => ?_⟩
      · exact (agrees_line known line).mp (hagrees _ hline) place
      · exact (agrees_literal known rest).mp (hagrees _ hrest) place
    · rintro ⟨first, blanks, literals⟩
      refine ⟨fun place hplace => Bool.not_eq_true _ ▸ first place hplace, fun rest hrest => ?_⟩
      refine agrees_of_starts known (fun line heq => ?_) (fun behind heq => ?_)
      · subst heq
        exact (agrees_line known line).mpr fun place => blanks line place hrest
      · subst heq
        exact (agrees_literal known behind).mpr fun place => literals behind place hrest
  · intro place hplace
    cases hplace
  · intro place hplace
    have hnot : place.printed quote ∉
        (placesBehind escape? isBlank ([] ++ text)).map (Place.printed quote) :=
      printed_not_mem isStart_escape? isIndent_isBlank hquote isIndent_isBlankOrTab (by simp)
        (Option.filter_eq_some_iff.mp hplace).1
    exact not_mem_knownPlaces known hnot
  · intro place hplace
    cases hplace

end Rows

/-! ## The children of a node -/

namespace ModuleTree

def knows (tree : ModuleTree) (type : Text) : Bool := (tree.allModules.get? type).isSome

theorem knownChildren_eq (tree : ModuleTree) (text : Text) :
    tree.knownChildren text = (knownPlaces tree.knows (discovered text)).map Place.label := by
  have hpossible : possibleChildren text = (discovered text).map Place.label := by
    have hlabels := congrArg (List.map Place.label) (findall_repr text)
    rw [List.map_map, List.map_map] at hlabels
    exact hlabels
  rw [knownChildren, hpossible, List.filter_map]
  rfl

/-- The children that a node gets are the known instantiations among the lines of its text,
in order, and each of them was found at its own line. -/
structure FindsInstances (tree tree' : ModuleTree) (node : Nat) : Prop where
  children : (tree'.heap.childrenOf node).map tree'.label =
    (knownPlaces tree.knows (instanceLines (tree.heap.moduleOf node).moduleText)).map Place.label
  places : knownPlaces tree.knows
      ((findall childPattern (repr (tree.heap.moduleOf node).moduleText)).map foundAt) =
    (knownPlaces tree.knows (instanceLines (tree.heap.moduleOf node).moduleText)).map
      (Place.printed (reprQuote (tree.heap.moduleOf node).moduleText))

/--
`_find_children` attaches the instances that the lines of the text make exactly when the known
ones among these follow a newline and are indented by blanks only, and when no backslash with an
`n` behind it is followed by blanks and an instantiation of a known module.
-/
theorem findsInstances_iff {depth : Nat} {tree tree' : ModuleTree} {node : Nat}
    (sound : tree.Sound) (hnode : node < tree.heap.instances.size)
    (hnone : tree.heap.childrenOf node = []) (hrun : findChildren depth tree node = .ok tree') :
    FindsInstances tree tree' node ↔
      Indented tree.knows (tree.heap.moduleOf node).moduleText := by
  have hquote := isQuote_reprQuote (tree.heap.moduleOf node).moduleText
  have hfound : knownPlaces tree.knows
      ((findall childPattern (repr (tree.heap.moduleOf node).moduleText)).map foundAt) =
        (knownPlaces tree.knows (discovered (tree.heap.moduleOf node).moduleText)).map
          (Place.printed (reprQuote (tree.heap.moduleOf node).moduleText)) := by
    rw [findall_repr, knownPlaces, List.filter_map]
    rfl
  constructor
  · intro finds
    exact (indented_iff tree.knows hquote _).mp (hfound.symm.trans finds.places)
  · intro indented
    have hplaces := (indented_iff tree.knows hquote _).mpr indented
    refine ⟨?_, hfound.trans hplaces⟩
    obtain ⟨hbuilt, hcomplete⟩ := findChildren_run sound hnode hnone hrun
    rw [Complete, hbuilt.grows.moduleOf hnode, hbuilt.grows.knownChildren,
      knownChildren_eq] at hcomplete
    rw [hcomplete]
    have hlabels := congrArg (List.map Place.label) hplaces
    rw [List.map_map, List.map_map] at hlabels
    exact hlabels

end ModuleTree

end Search

section Tabs

attribute [local instance] UnicodeData.ascii

namespace ModuleTree

theorem findsInstances_iff_nested :
    ∃ parsed tree tree', parseFile nestedDesign = .ok parsed ∧
      make parsed (fun _ => 0) "Core" = .ok tree ∧ findChildren 5 tree 0 = .ok tree' ∧
        tree'.heap.childrenOf 0 ≠ [] ∧ FindsInstances tree tree' 0 := by
  have hfacts : (parseFile nestedDesign >>= fun parsed => make parsed (fun _ => 0) "Core" >>=
      fun tree => (findChildren 5 tree 0).map fun tree' =>
        decide (tree'.heap.childrenOf 0 ≠ [] ∧
          (knownPlaces tree.knows (discovered (tree.heap.moduleOf 0).moduleText)).map
              (Place.printed '\'') =
            (knownPlaces tree.knows (instanceLines (tree.heap.moduleOf 0).moduleText)).map
              (Place.printed '\''))) = .ok true := by
    decide +kernel
  obtain ⟨parsed, hparse, hfacts⟩ := bind_eq_ok.mp hfacts
  obtain ⟨tree, hmake, hfacts⟩ := bind_eq_ok.mp hfacts
  obtain ⟨tree', hrun, hfacts⟩ := map_eq_ok.mp hfacts
  obtain ⟨hne, hplaces⟩ := of_decide_eq_true hfacts
  have made := make_run (parseFile_sound hparse) hmake
  refine ⟨parsed, tree, tree', hparse, hmake, hrun, hne, ?_⟩
  refine (findsInstances_iff made.sound (made.size ▸ Nat.one_pos) made.childless hrun).mpr ?_
  exact (indented_iff tree.knows (Or.inl rfl) _).mp hplaces

/-- A design whose instance is indented by a tab. -/
def tabbedDesign : Text := lines [
  "module Core(", "  input  clock", ");", "\tALU alu (", "    .y(clock)", "  );",
  "endmodule",
  "module ALU(", "  input  y", ");", "  wire  sum = y;", "endmodule"]

/-- The instance behind the tab is lost. -/
theorem tabbedDesign_childless :
    ∃ parsed tree tree', parseFile tabbedDesign = .ok parsed ∧
      make parsed (fun _ => 0) "Core" = .ok tree ∧ findChildren 5 tree 0 = .ok tree' ∧
        tree'.heap.childrenOf 0 = [] ∧ ¬ FindsInstances tree tree' 0 := by
  have hfacts : (parseFile tabbedDesign >>= fun parsed => make parsed (fun _ => 0) "Core" >>=
      fun tree => (findChildren 5 tree 0).map fun tree' =>
        decide (tree'.heap.childrenOf 0 = [] ∧
          (knownPlaces tree.knows (instanceLines (tree.heap.moduleOf 0).moduleText)).map
            Place.label = [("ALU".toList, "alu".toList)])) = .ok true := by
    decide +kernel
  obtain ⟨parsed, hparse, hfacts⟩ := bind_eq_ok.mp hfacts
  obtain ⟨tree, hmake, hfacts⟩ := bind_eq_ok.mp hfacts
  obtain ⟨tree', hrun, hfacts⟩ := map_eq_ok.mp hfacts
  obtain ⟨hnone, hlines⟩ := of_decide_eq_true hfacts
  refine ⟨parsed, tree, tree', hparse, hmake, hrun, hnone, fun finds => ?_⟩
  have hchildren := finds.children
  rw [hnone, hlines] at hchildren
  cases hchildren

end ModuleTree

end Tabs

end FaultInjection
