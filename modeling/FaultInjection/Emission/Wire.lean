import FaultInjection.Emission.Circuit
import FaultInjection.Regex.Commuting

/-!
# The pattern of a driving statement

The pattern of the wire branch reads a keyword, a gap, the name and an equals sign
between blanks.  It reads them in one way, whatever follows, and only where the name
is the whole word in front of the equals sign.
-/

namespace FaultInjection

open Regex Regex.Pattern Text

variable [UnicodeData]

/-- The keywords of driving statements. -/
def IsDriving (keyword : Text) : Prop := keyword = "wire" ∨ keyword = "assign"

omit [UnicodeData] in
theorem IsDriving.head {keyword : Text} (hkeyword : IsDriving keyword) :
    ∃ c rest, keyword = c :: rest ∧ (c = 'w' ∨ c = 'a') ∧ 'w' ∉ rest ∧ 'a' ∉ rest := by
  have htexts : "wire".toList = ['w', 'i', 'r', 'e'] ∧
      "assign".toList = ['a', 's', 's', 'i', 'g', 'n'] := by
    decide +kernel
  rcases hkeyword with rfl | rfl
  · exact ⟨'w', ['i', 'r', 'e'], htexts.1, Or.inl rfl, by decide, by decide⟩
  · exact ⟨'a', ['s', 's', 'i', 'g', 'n'], htexts.2, Or.inr rfl, by decide, by decide⟩

theorem IsDriving.isName {keyword : Text} (hkeyword : IsDriving keyword) : IsName keyword := by
  rcases hkeyword with rfl | rfl <;> exact isName_of_ascii (by decide +kernel) (by decide +kernel)

/-- The match of a driving statement up to its expression. -/
def wireMatch (keyword : Text) (gap : Gap) (sampleWire rest : Text) : Match Char where
  taken := keyword ++ (gap.text ++ (sampleWire ++ " = "))
  rest := rest
  groups := [(4, " = ".toList), (2, gap.text)] ++
    (gap.bounds.toList.map fun bounds => (3, bounds.1 ++ ':' :: bounds.2)) ++ [(1, keyword)]

omit [UnicodeData] in
theorem matchAt_keyword {keyword : Text} (hkeyword : IsDriving keyword) (rest : Text) :
    matchAt (.group 1 (.alt (word "wire") (word "assign"))) (keyword ++ rest) =
      .some ⟨keyword, rest, [(1, keyword)]⟩ := by
  rw [matchAt_group, matchAt_alt]
  rcases hkeyword with rfl | rfl
  · rw [matchAt_word_append]
    rfl
  · have hwire : matchAt (word "wire") ("assign".toList ++ rest) = none := rfl
    rw [matchAt_word_append, hwire]
    rfl

theorem matchAt_wirePattern {keyword sampleWire : Text} {gap : Gap} (hkeyword : IsDriving keyword)
    (hname : IsName sampleWire)
    (hlow : ∀ high low, gap.bounds = .some (high, low) → low.length = 1) (rest : Text) :
    matchAt (wirePattern sampleWire) ((wireMatch keyword gap sampleWire rest).taken ++ rest) =
      .some (wireMatch keyword gap sampleWire rest) := by
  have hhead : ∀ following : Text, ∀ c ∈ (sampleWire ++ following).head?, isWord c = true := by
    intro following c hc
    obtain ⟨first, others, rfl⟩ := List.exists_cons_of_ne_nil hname.ne_nil
    cases hc
    exact hname.word c (.head _)
  have hgap : matchAt (.group 2 (gapPattern 3)) (gap.text ++ (sampleWire ++ (" = ".toList ++ rest))) =
      .some ⟨gap.text, sampleWire ++ (" = ".toList ++ rest), (2, gap.text) ::
        gap.bounds.toList.map fun bounds => (3, bounds.1 ++ ':' :: bounds.2)⟩ := by
    rw [matchAt_group, gap.matchAt_text 3 hlow (hhead _)]
    rfl
  have hequals : matchAt (.group 4 (word " = ")) (" = ".toList ++ rest) =
      .some ⟨" = ", rest, [(4, " = ")]⟩ := by
    rw [matchAt_group, matchAt_word_append]
    rfl
  have hall := matchAt_seq_of_first (matchAt_keyword hkeyword _) (matchAt_seq_of_first hgap
    (matchAt_seq_of_first (matchAt_word_append sampleWire _) hequals))
  have hinput : (wireMatch keyword gap sampleWire rest).taken ++ rest =
      keyword ++ (gap.text ++ (sampleWire ++ (" = ".toList ++ rest))) := by
    simp only [wireMatch, List.append_assoc]
  rw [hinput, wirePattern, chain, chain, chain, chain, hall]
  simp only [Match.after, wireMatch, List.append_nil, List.cons_append, List.nil_append]

theorem exists_wireMatch {sampleWire input : Text} {m : Match Char}
    (hm : m ∈ readings (wirePattern sampleWire) input) :
    ∃ (keyword : Text) (gap : Gap), IsDriving keyword ∧
      (∀ high low, gap.bounds = .some (high, low) → low.length = 1) ∧
        input = keyword ++ (gap.text ++ (sampleWire ++ (" = ".toList ++ m.rest))) := by
  have hcut := taken_append_rest hm
  simp only [wirePattern, chain, mem_readings_group, mem_readings_seq, mem_readings_word,
    mem_readings_alt] at hm
  obtain ⟨_, ⟨keyword, hkeyword, rfl⟩, _, ⟨_, ⟨middle, hmiddle, rfl⟩, _, ⟨_, ⟨_, -, rfl⟩, _,
    ⟨_, ⟨_, -, rfl⟩, rfl⟩, rfl⟩, rfl⟩, rfl⟩ := hm
  obtain ⟨gap, htaken, -, hlow⟩ := exists_gap_of_reading hmiddle
  have hword : IsDriving keyword.taken := by
    rcases hkeyword with ⟨_, -, rfl⟩ | ⟨_, -, rfl⟩
    · exact Or.inl rfl
    · exact Or.inr rfl
  refine ⟨keyword.taken, gap, hword, hlow, ?_⟩
  rw [← hcut]
  simp [Match.after, Match.close, htaken]

/-- What the pattern reports is determined by the statement in front of which it stands. -/
theorem exists_of_matchAt_wirePattern {sampleWire input : Text} {m : Match Char}
    (hname : IsName sampleWire) (hm : matchAt (wirePattern sampleWire) input = .some m) :
    ∃ (keyword : Text) (gap : Gap), IsDriving keyword ∧
      (∀ high low, gap.bounds = .some (high, low) → low.length = 1) ∧
        m = wireMatch keyword gap sampleWire m.rest := by
  obtain ⟨keyword, gap, hkeyword, hlow, hinput⟩ := exists_wireMatch (mem_of_matchAt hm)
  have hagain := matchAt_wirePattern hkeyword hname hlow m.rest
  have htaken : (wireMatch keyword gap sampleWire m.rest).taken ++ m.rest = input := by
    rw [hinput]
    simp only [wireMatch, List.append_assoc]
  rw [htaken, hm, Option.some.injEq] at hagain
  exact ⟨keyword, gap, hkeyword, hlow, hagain⟩

theorem wirePattern_stable {sampleWire : Text} (hname : IsName sampleWire) :
    Stable (wirePattern sampleWire) := by
  intro input m hm rest
  obtain ⟨keyword, gap, hkeyword, hlow, heq⟩ := exists_of_matchAt_wirePattern hname hm
  rw [heq]
  exact matchAt_wirePattern hkeyword hname hlow rest

/-- A text ends with the given word, and something else stands in front of it. -/
def EndsWord (text name : Text) : Prop :=
  ∃ before c, text = before ++ c :: name ∧ isWord c = false ∧ ∀ d ∈ name, isWord d = true

theorem EndsWord.unique {text name name' : Text} (hends : EndsWord text name)
    (hends' : EndsWord text name') : name = name' := by
  obtain ⟨before, c, rfl, hc, hname⟩ := hends
  obtain ⟨before', c', heq, hc', hname'⟩ := hends'
  have hreverse := congrArg List.reverse heq
  simp only [List.reverse_append, List.reverse_cons, List.append_assoc,
    List.singleton_append] at hreverse
  have hwords : ∀ {word : Text}, (∀ d ∈ word, isWord d = true) →
      ∀ d ∈ word.reverse, isWord d = true := by
    intro word hword d hd
    exact hword d (List.mem_reverse.mp hd)
  have hsplit := run_unique hreverse (hwords hname) (hwords hname') (by simpa using hc)
    (by simpa using hc')
  exact List.reverse_injective hsplit.1

theorem Gap.exists_last (gap : Gap) : ∃ front c, gap.text = front ++ [c] ∧ isWord c = false := by
  have hlast : ∀ {run : Text}, run ≠ [] → (∀ c ∈ run, isSpace c = true) →
      ∃ front c, run = front ++ [c] ∧ isWord c = false := by
    intro run hne hrun
    refine ⟨run.dropLast, run.getLast hne, (List.dropLast_append_getLast hne).symm, ?_⟩
    exact isWord_of_isSpace (hrun _ (List.getLast_mem hne))
  by_cases hempty : gap.last = []
  · cases hbounds : gap.bounds with
    | none =>
        obtain ⟨front, c, hfront, hc⟩ := hlast gap.first_ne_nil gap.first_space
        refine ⟨front, c, ?_, hc⟩
        rw [text, hbounds, hempty, rangeText, List.append_nil, List.append_nil, hfront]
    | some bounds =>
        have hbracket : isWord ']' = false := by
          rw [isWord_ascii (by decide)]
          decide
        refine ⟨gap.first ++ '[' :: (bounds.1 ++ ':' :: bounds.2), ']', ?_, hbracket⟩
        rw [text, hbounds, hempty, rangeText]
        simp
  · obtain ⟨front, c, hfront, hc⟩ := hlast hempty gap.last_space
    refine ⟨gap.first ++ (rangeText gap.bounds ++ front), c, ?_, hc⟩
    rw [text, hfront]
    simp only [List.append_assoc]

theorem endsWord_statement (before keyword : Text) (gap : Gap) {sampleWire : Text}
    (hname : IsName sampleWire) : EndsWord (before ++ (keyword ++ (gap.text ++ sampleWire)))
      sampleWire := by
  obtain ⟨front, c, hfront, hc⟩ := gap.exists_last
  refine ⟨before ++ (keyword ++ front), c, ?_, hc, hname.word⟩
  rw [hfront]
  simp

theorem isWord_equals : isWord '=' = false := by
  rw [isWord_ascii (by decide)]
  decide

theorem equals_not_mem_statement {keyword : Text} (hkeyword : IsDriving keyword) (gap : Gap)
    {sampleWire : Text} (hname : IsName sampleWire) :
    '=' ∉ keyword ++ (gap.text ++ sampleWire) := by
  have hword : '=' ∉ keyword := by
    rcases hkeyword with rfl | rfl <;> decide +kernel
  rw [List.mem_append, List.mem_append]
  rintro (hmem | hmem | hmem)
  · exact hword hmem
  · exact gap.not_mem_text (by decide) (by decide) hmem
  · exact hname.not_mem isWord_equals hmem

/-- A stretch up to an equals sign holds no match for a name that does not stand there. -/
theorem clear_wirePattern {stretch name sampleWire : Text} (hname : IsName sampleWire)
    (hequals : '=' ∉ stretch) (hends : EndsWord stretch name) (hne : name ≠ sampleWire)
    (following : Text) : Clear (wirePattern sampleWire) (stretch ++ " = ") following := by
  have htext : " = ".toList = [' ', '=', ' '] := by decide +kernel
  intro before after hcut hafter
  rw [matchAt_eq_none_iff]
  intro m hm
  obtain ⟨keyword, gap, hkeyword, -, hinput⟩ := exists_wireMatch hm
  obtain ⟨d, letters, hletters, hd, -⟩ := hkeyword.head
  rw [htext] at hcut hinput
  rcases List.append_eq_append_iff.mp hcut with ⟨later, rfl, hlater⟩ | ⟨later, rfl, rfl⟩
  · -- the match would begin with a blank or an equals sign
    obtain ⟨first, others, rfl⟩ := List.exists_cons_of_ne_nil hafter
    have hmem : first ∈ [' ', '=', ' '] := by
      rw [hlater]
      exact List.mem_append_right _ (.head _)
    rw [hletters, List.cons_append, List.cons_append, List.cons.injEq] at hinput
    rw [hinput.1] at hmem
    rcases hd with rfl | rfl <;> exact absurd hmem (by decide)
  · -- both texts are cut at their first equals sign
    have hother : ∀ {text : Text}, '=' ∉ text → ∀ c ∈ text ++ [' '], (c != '=') = true := by
      intro text htext c hc
      rcases List.mem_append.mp hc with hc | hc
      · exact bne_iff_ne.mpr fun h => htext (h ▸ hc)
      · rw [List.mem_singleton.mp hc]
        decide
    have hsplit : (later ++ [' ']) ++ '=' :: (' ' :: following) =
        ((keyword ++ (gap.text ++ sampleWire)) ++ [' ']) ++ '=' :: (' ' :: m.rest) := by
      simp only [List.append_assoc, List.cons_append, List.nil_append] at hinput ⊢
      exact hinput
    have hlater := (run_unique hsplit (hother fun hmem => hequals (List.mem_append_right _ hmem))
      (hother (equals_not_mem_statement hkeyword gap hname)) (by simp) (by simp)).1
    rw [List.append_left_inj] at hlater
    rw [hlater] at hends
    exact hne (hends.unique (endsWord_statement before keyword gap hname))

/-- A match in front of a driving statement ends in front of it. -/
theorem wirePattern_border {sampleWire keyword more before following : Text} {b c : Char}
    (hname : IsName sampleWire) (hkeyword : IsDriving keyword) (hb : isWord b = false)
    (hc : c ≠ '=') (hbefore : before ≠ []) {m : Match Char}
    (hm : matchAt (wirePattern sampleWire)
      (before ++ ((keyword ++ b :: c :: more) ++ following)) = .some m) :
    m.taken.length ≤ before.length := by
  have htext : " = ".toList = [' ', '=', ' '] := by decide +kernel
  by_contra hlonger
  obtain ⟨keyword', gap, hkeyword', -, heq⟩ := exists_of_matchAt_wirePattern hname hm
  have hcut := taken_append_rest (mem_of_matchAt hm)
  obtain ⟨taken, htaken⟩ : before <+: m.taken :=
    List.prefix_of_prefix_length_le ⟨_, rfl⟩ ⟨m.rest, hcut⟩ (Nat.le_of_lt (Nat.not_le.mp hlonger))
  obtain ⟨first, others, rfl⟩ : ∃ first others, taken = first :: others := by
    refine List.exists_cons_of_ne_nil ?_
    rintro rfl
    rw [List.append_nil] at htaken
    exact hlonger (Nat.le_of_eq (congrArg List.length htaken.symm))
  rw [← htaken, List.append_assoc, List.append_cancel_left_eq] at hcut
  -- the match goes on with the first letter of the statement
  have hfirst : first = 'w' ∨ first = 'a' := by
    obtain ⟨d, letters, rfl, hd, -⟩ := hkeyword.head
    rw [List.cons_append, List.cons_append, List.cons_append, List.cons.injEq] at hcut
    rw [hcut.1]
    exact hd
  have hgap : first ∉ gap.text := by
    rcases hfirst with rfl | rfl <;> exact gap.not_mem_text (by decide) (by decide)
  have hstatement : m.taken = keyword' ++ (gap.text ++ (sampleWire ++ [' ', '=', ' '])) := by
    rw [heq, wireMatch, htext]
  rw [hstatement] at htaken
  have hmark : ∀ {start rest : Text}, first ∉ start → first :: others = start ++ rest →
      start = [] ∧ first :: others = rest := by
    intro start rest hnot hstart
    cases start with
    | nil => exact ⟨rfl, hstart⟩
    | cons d start => exact absurd ((List.cons.inj hstart).1 ▸ .head _) hnot
  obtain ⟨afterKeyword, rfl, hafterKeyword⟩ : ∃ later, before = keyword' ++ later ∧
      gap.text ++ (sampleWire ++ [' ', '=', ' ']) = later ++ first :: others := by
    rcases List.append_eq_append_iff.mp htaken with ⟨later, hlater, hrest⟩ | ⟨later, hlater, hrest⟩
    · obtain ⟨d, letters, hletters, -, hw, ha⟩ := hkeyword'.head
      obtain ⟨e, before, rfl⟩ := List.exists_cons_of_ne_nil hbefore
      rw [hletters, List.cons_append, List.cons.injEq] at hlater
      have hnot : first ∉ later := by
        intro hmem
        have hletter : first ∈ letters := hlater.2 ▸ List.mem_append_right _ hmem
        rcases hfirst with rfl | rfl
        · exact hw hletter
        · exact ha hletter
      obtain ⟨rfl, hrest⟩ := hmark hnot hrest
      refine ⟨[], ?_, hrest.symm⟩
      rw [List.append_nil, hletters, hlater.1, hlater.2, List.append_nil]
    · exact ⟨later, hlater, hrest⟩
  obtain ⟨afterGap, rfl, hafterGap⟩ : ∃ later, afterKeyword = gap.text ++ later ∧
      sampleWire ++ [' ', '=', ' '] = later ++ first :: others := by
    rcases List.append_eq_append_iff.mp hafterKeyword with
      ⟨later, rfl, hrest⟩ | ⟨later, hlater, hrest⟩
    · exact ⟨later, rfl, hrest⟩
    · obtain ⟨rfl, hrest⟩ := hmark (fun hmem => hgap (hlater ▸ List.mem_append_right _ hmem)) hrest
      refine ⟨[], ?_, hrest.symm⟩
      rw [hlater, List.append_nil, List.append_nil]
  rcases List.append_eq_append_iff.mp hafterGap with ⟨later, -, hrest⟩ | ⟨later, hlater, hrest⟩
  · have hmem : first ∈ [' ', '=', ' '] := hrest ▸ List.mem_append_right _ (.head _)
    rcases hfirst with rfl | rfl <;> exact absurd hmem (by decide)
  · -- the rest of the name would be the keyword of the statement
    have hword : ∀ d ∈ later, isWord d = true := fun d hd =>
      hname.word d (hlater ▸ List.mem_append_right _ hd)
    have hsplit : later ++ ' ' :: ('=' :: ' ' :: m.rest) =
        keyword ++ b :: (c :: (more ++ following)) := by
      rw [hrest] at hcut
      simp only [List.append_assoc, List.cons_append, List.nil_append] at hcut
      exact hcut
    have hsame := (run_unique hsplit hword hkeyword.isName.word (by simpa using isWord_blank)
      (by simpa using hb)).2
    rw [List.cons.injEq, List.cons.injEq] at hsame
    exact hc hsame.2.1.symm

end FaultInjection
