import FaultInjection.Emission.Index
import FaultInjection.Marking.Components

/-!
# The statement found

What the patterns of `inject_fault` match: a keyword, a gap of blanks with or without
bounds, the name, and what ends the match.
-/

namespace FaultInjection

open Regex Regex.Pattern Text

variable [UnicodeData]

/-! ## Gaps -/

/-- The bounds as they are written. -/
def rangeText : Option (Text × Text) → Text
  | none => []
  | .some (high, low) => '[' :: (high ++ ':' :: (low ++ [']']))

/-- The blanks between a keyword and a name, around the bounds if there are any. -/
structure Gap where
  first : Text
  bounds : Option (Text × Text)
  last : Text
  first_ne_nil : first ≠ []
  first_space : ∀ c ∈ first, isSpace c = true
  last_space : ∀ c ∈ last, isSpace c = true
  number : ∀ high low, bounds = .some (high, low) →
    (high ≠ [] ∧ ∀ c ∈ high, isDigit c = true) ∧ low ≠ [] ∧ ∀ c ∈ low, isDigit c = true

namespace Gap

def text (gap : Gap) : Text := gap.first ++ (rangeText gap.bounds ++ gap.last)

theorem mem_text {gap : Gap} {c : Char} (hc : c ∈ gap.text) :
    isSpace c = true ∨ isDigit c = true ∨ c ∈ ['[', ':', ']'] := by
  rw [text, List.mem_append, List.mem_append] at hc
  rcases hc with hfirst | hrange | hlast
  · exact Or.inl (gap.first_space c hfirst)
  · cases hbounds : gap.bounds with
    | none =>
        rw [hbounds] at hrange
        cases hrange
    | some bounds =>
        obtain ⟨high, low⟩ := bounds
        obtain ⟨⟨-, hhigh⟩, -, hlow⟩ := gap.number high low hbounds
        rw [hbounds] at hrange
        simp only [rangeText, List.mem_cons, List.mem_append] at hrange
        rcases hrange with rfl | hmem | rfl | hmem | rfl | hmem
        · exact Or.inr (Or.inr (by decide))
        · exact Or.inr (Or.inl (hhigh c hmem))
        · exact Or.inr (Or.inr (by decide))
        · exact Or.inr (Or.inl (hlow c hmem))
        · exact Or.inr (Or.inr (by decide))
        · cases hmem
  · exact Or.inl (gap.last_space c hlast)

theorem not_mem_text (gap : Gap) {c : Char} (hascii : c.toNat < 128)
    (hother : (c == ' ' || (9 ≤ c.toNat && c.toNat ≤ 13) || (28 ≤ c.toNat && c.toNat ≤ 31) ||
      c.isDigit || ['[', ':', ']'].contains c) = false) : c ∉ gap.text := by
  intro hc
  have hkind := mem_text hc
  rw [isSpace_ascii hascii, isDigit_ascii hascii, ← List.contains_iff_mem] at hkind
  simp only [Bool.or_eq_false_iff] at hother hkind
  simp_all

theorem isDigit_bracket : isDigit '[' = false ∧ isDigit ':' = false ∧ isDigit ']' = false := by
  refine ⟨?_, ?_, ?_⟩ <;> (rw [isDigit_ascii (by decide)]; decide)

theorem isSpace_bracket : isSpace '[' = false ∧ isSpace ':' = false ∧ isSpace ']' = false := by
  refine ⟨?_, ?_, ?_⟩ <;> (rw [isSpace_ascii (by decide)]; decide)

theorem strip_text (gap : Gap) : strip gap.text = rangeText gap.bounds := by
  have hfront : gap.text.dropWhile isSpace =
      (rangeText gap.bounds ++ gap.last).dropWhile isSpace := by
    rw [text, List.dropWhile_append_of_pos gap.first_space]
  have hlast : gap.last.dropWhile isSpace = [] :=
    List.dropWhile_eq_nil_iff.mpr gap.last_space
  rw [strip, hfront]
  cases gap.bounds with
  | none => rw [rangeText, List.nil_append, hlast, List.rdropWhile_nil]
  | some bounds =>
      obtain ⟨high, low⟩ := bounds
      have hhead : (rangeText (.some (high, low)) ++ gap.last).dropWhile isSpace =
          rangeText (.some (high, low)) ++ gap.last := by
        rw [rangeText, List.cons_append, List.dropWhile_cons_of_neg]
        rw [isSpace_bracket.1]
        exact Bool.false_ne_true
      have hback : (gap.last.reverse ++ (rangeText (.some (high, low))).reverse).dropWhile
          isSpace = (rangeText (.some (high, low))).reverse := by
        rw [List.dropWhile_append_of_pos fun c hc => gap.last_space c (List.mem_reverse.mp hc)]
        simp [rangeText, isSpace_bracket.2.2]
      rw [hhead, List.rdropWhile, List.reverse_append, hback, List.reverse_reverse]

end Gap

omit [UnicodeData] in
theorem inner_rangeText (high low : Text) :
    inner (rangeText (.some (high, low))) = high ++ ':' :: low := by
  rw [Text.inner, rangeText, List.drop_one, List.tail_cons, ← List.cons_append, ← List.append_assoc,
    List.dropLast_concat]

theorem split_bounds {high low : Text} (hhigh : ∀ c ∈ high, isDigit c = true)
    (hlow : ∀ c ∈ low, isDigit c = true) : split ':' (high ++ ':' :: low) = [high, low] := by
  have hcolon : ∀ {text : Text}, (∀ c ∈ text, isDigit c = true) →
      ∀ c ∈ text, (c == ':') = false := by
    intro text htext c hc
    rw [beq_eq_false_iff_ne]
    rintro rfl
    have hdigit := htext ':' hc
    rw [Gap.isDigit_bracket.2.1] at hdigit
    cases hdigit
  rw [split, List.splitOn,
    List.splitOnP_append_cons (p := fun c => c == ':') _ _ (beq_self_eq_true ':'),
    List.splitOnP_eq_singleton (hcolon hhigh), List.splitOnP_eq_singleton (hcolon hlow)]
  rfl

/-- The pattern of a gap reads gaps and notes the bounds in its group. -/
theorem exists_gap_of_reading {index : Nat} {input : Text} {m : Match Char}
    (hm : m ∈ readings (gapPattern index) input) :
    ∃ gap : Gap, m.taken = gap.text ∧
      (m.groups = gap.bounds.toList.map fun bounds => (index, bounds.1 ++ ':' :: bounds.2)) ∧
      ∀ high low, gap.bounds = .some (high, low) → low.length = 1 := by
  have hone : "[".toList = ['['] ∧ ":".toList = [':'] ∧ "]".toList = [']'] := by
    decide +kernel
  simp only [gapPattern, boundsPattern, chain, maybe, Pattern.some, mem_readings_group,
    mem_readings_seq, mem_readings_word, mem_readings_one, mem_readings_many,
    mem_readings_alt, mem_readings_empty] at hm
  obtain ⟨_, ⟨_, ⟨space, _, -, hspace, rfl⟩, _, ⟨spaces, _, -, hspaces, rfl⟩, rfl⟩, _, ⟨range,
    hrange, _, ⟨last, _, -, hlast, rfl⟩, rfl⟩, rfl⟩ := hm
  have hfirst : ∀ c ∈ space :: spaces, isSpace c = true := by
    rintro c (_ | ⟨_, hc⟩)
    · exact hspace
    · exact hspaces c hc
  rcases hrange with hrange | rfl
  · obtain ⟨_, ⟨_, -, rfl⟩, _, ⟨_, ⟨_, ⟨_, ⟨_, ⟨digit, _, -, hdigit, rfl⟩, _, ⟨digits, _, -,
      hdigits, rfl⟩, rfl⟩, _, ⟨_, ⟨_, -, rfl⟩, _, ⟨low, _, -, hlow, rfl⟩, rfl⟩, rfl⟩, rfl⟩, _,
      ⟨_, -, rfl⟩, rfl⟩, rfl⟩ := hrange
    refine ⟨⟨space :: spaces, .some (digit :: digits, [low]), last, List.cons_ne_nil _ _,
      hfirst, hlast, ?_⟩, ?_, ?_, ?_⟩
    · rintro high' low' heq
      cases heq
      refine ⟨⟨List.cons_ne_nil _ _, ?_⟩, List.cons_ne_nil _ _, ?_⟩
      · rintro c (_ | ⟨_, hc⟩)
        · exact hdigit
        · exact hdigits c hc
      · intro c hc
        rw [List.mem_singleton.mp hc]
        exact hlow
    · simp [Gap.text, rangeText, hone]
    · simp [Match.close, hone]
    · rintro high' low' heq
      cases heq
      rfl
  · refine ⟨⟨space :: spaces, none, last, List.cons_ne_nil _ _, hfirst, hlast, ?_⟩,
      by simp [Gap.text, rangeText], rfl, ?_⟩
    all_goals
      intro high low heq
      cases heq

namespace Gap

theorem matchAt_bounds (index : Nat) {high : Text} {low : Char} (hne : high ≠ [])
    (hhigh : ∀ c ∈ high, isDigit c = true) (hlow : isDigit low = true) (rest : Text) :
    matchAt (maybe (chain [word "[", boundsPattern index, word "]"]))
        (rangeText (.some (high, [low])) ++ rest) =
      .some ⟨rangeText (.some (high, [low])), rest, [(index, high ++ ':' :: [low])]⟩ := by
  have htexts : "[".toList = ['['] ∧ ":".toList = [':'] ∧ "]".toList = [']'] := by
    decide +kernel
  have hcolon : EndsRun isDigit (':' :: low :: ']' :: rest) :=
    endsRun_cons.mpr isDigit_bracket.2.1
  have hlowest : matchAt (.one isDigit) (low :: ']' :: rest) = .some ⟨[low], ']' :: rest, []⟩ := by
    rw [matchAt, readings_one_cons hlow, List.head?_cons]
  have hnumber : matchAt (chain [some isDigit, word [':'], .one isDigit])
      (high ++ ':' :: low :: ']' :: rest) = .some ⟨high ++ ':' :: [low], ']' :: rest, []⟩ :=
    matchAt_seq_of_first (matchAt_some hne hhigh hcolon)
      (matchAt_seq_of_first (matchAt_word_append [':'] _) hlowest)
  have hgroup : matchAt (boundsPattern index) (high ++ ':' :: low :: ']' :: rest) =
      .some ⟨high ++ ':' :: [low], ']' :: rest, [(index, high ++ ':' :: [low])]⟩ := by
    rw [boundsPattern, htexts.2.1, matchAt_group, hnumber]
    rfl
  have hall : matchAt (chain [word ['['], boundsPattern index, word [']']])
      ('[' :: (high ++ ':' :: low :: ']' :: rest)) =
        .some ⟨'[' :: ((high ++ ':' :: [low]) ++ [']']), rest, [(index, high ++ ':' :: [low])]⟩ :=
    matchAt_seq_of_first (matchAt_word_append ['['] _)
      (matchAt_seq_of_first hgroup (matchAt_word_append [']'] rest))
  have htext : rangeText (.some (high, [low])) = '[' :: ((high ++ ':' :: [low]) ++ [']']) := by
    simp [rangeText]
  have hinput : rangeText (.some (high, [low])) ++ rest =
      '[' :: (high ++ ':' :: low :: ']' :: rest) := by
    simp [rangeText]
  rw [hinput, htext, maybe, matchAt_alt, htexts.1, htexts.2.2, hall, Option.some_or]

theorem matchAt_no_bounds (index : Nat) {rest : Text} (hrest : ∀ c ∈ rest.head?, isWord c = true) :
    matchAt (maybe (chain [word "[", boundsPattern index, word "]"])) rest =
      .some ⟨[], rest, []⟩ := by
  have hbracket : isWord '[' = false := by
    rw [isWord_ascii (by decide)]
    decide
  have hnone : matchAt (chain [word "[", boundsPattern index, word "]"]) rest = none := by
    refine matchAt_word_seq_none _ ?_
    rintro ⟨left, rfl⟩
    have hword := hrest '[' rfl
    rw [hbracket] at hword
    cases hword
  rw [maybe, matchAt_alt, hnone, Option.none_or]
  rfl

/-- A gap in front of a name is read whole when its lower bound has one digit. -/
theorem matchAt_text (gap : Gap) (index : Nat) {rest : Text}
    (hlow : ∀ high low, gap.bounds = .some (high, low) → low.length = 1)
    (hrest : ∀ c ∈ rest.head?, isWord c = true) :
    matchAt (gapPattern index) (gap.text ++ rest) =
      .some ⟨gap.text, rest,
        gap.bounds.toList.map fun bounds => (index, bounds.1 ++ ':' :: bounds.2)⟩ := by
  have hends : EndsRun isSpace rest := fun c hc => isSpace_of_isWord (hrest c hc)
  rw [gapPattern, text]
  cases hbounds : gap.bounds with
  | none =>
      have hblanks : ∀ c ∈ gap.first ++ gap.last, isSpace c = true := by
        intro c hc
        rcases List.mem_append.mp hc with hc | hc
        · exact gap.first_space c hc
        · exact gap.last_space c hc
      have hfirst := matchAt_some (List.append_ne_nil_of_left_ne_nil gap.first_ne_nil gap.last)
        hblanks hends
      have hnone : ∀ c ∈ ([] : Text), isSpace c = true := by simp
      have hlast := matchAt_many hnone hends
      have hall := matchAt_seq_of_first hfirst
        (matchAt_seq_of_first (matchAt_no_bounds index hrest) hlast)
      rw [rangeText, List.nil_append, chain, chain, chain, hall]
      simp [Match.after]
  | some bounds =>
      obtain ⟨high, low⟩ := bounds
      obtain ⟨⟨hne, hhigh⟩, -, hdigits⟩ := gap.number high low hbounds
      obtain ⟨digit, rfl⟩ := List.length_eq_one_iff.mp (hlow high low hbounds)
      have hrange : EndsRun isSpace (rangeText (.some (high, [digit])) ++ (gap.last ++ rest)) :=
        endsRun_cons.mpr isSpace_bracket.1
      have hall := matchAt_seq_of_first (matchAt_some gap.first_ne_nil gap.first_space hrange)
        (matchAt_seq_of_first
          (matchAt_bounds index hne hhigh (hdigits digit (.head _)) (gap.last ++ rest))
          (matchAt_many gap.last_space hends))
      rw [List.append_assoc, List.append_assoc, chain, chain, chain, hall]
      simp [Match.after]

end Gap

/-! ## Statements -/

/-- A match of the pattern of a branch, cut into its keyword, its gap and the name. -/
structure Site.Reads (site : Site) (sampleWire keyword : Text) (gap : Gap) : Prop where
  bounds : site.bounds? = gap.bounds
  wire : site.branch = .wire → (keyword = "wire" ∨ keyword = "assign") ∧
    site.found.taken = keyword ++ gap.text ++ sampleWire ++ " = " ∧
    site.found.group 1 = keyword ∧ site.found.group 2 = gap.text ∧ site.found.group 4 = " = "
  register : site.branch = .register → keyword = "reg" ∧
    site.found.taken = keyword ++ gap.text ++ sampleWire ++ ";" ∧
    site.found.group 1 = gap.text

theorem bounds?_of_gap {site : Site} {gap : Gap}
    (hwire : site.branch = .wire → site.found.group 2 = gap.text)
    (hregister : site.branch = .register →
      site.found.group 2 = (gap.bounds.map fun bounds => bounds.1 ++ ':' :: bounds.2).getD []) :
    site.bounds? = gap.bounds := by
  obtain ⟨branch, found, text⟩ := site
  have hparts : ∀ high low, gap.bounds = .some (high, low) →
      split ':' (high ++ ':' :: low) = [high, low] := by
    intro high low hbounds
    obtain ⟨⟨-, hhigh⟩, -, hlow⟩ := gap.number high low hbounds
    exact split_bounds hhigh hlow
  cases branch with
  | wire =>
      rw [Site.bounds?_wire, hwire rfl, gap.strip_text]
      cases hbounds : gap.bounds with
      | none => rfl
      | some bounds =>
          obtain ⟨high, low⟩ := bounds
          have hne : rangeText (.some (high, low)) ≠ [] := List.cons_ne_nil _ _
          rw [if_pos hne, inner_rangeText, hparts high low hbounds]
          rfl
  | register =>
      rw [Site.bounds?_register, hregister rfl]
      cases hbounds : gap.bounds with
      | none => rfl
      | some bounds =>
          obtain ⟨high, low⟩ := bounds
          rw [Option.map_some, Option.getD_some,
            if_pos (List.append_ne_nil_of_right_ne_nil _ (List.cons_ne_nil _ _)),
            hparts high low hbounds]
          rfl

theorem wirePattern_productive (sampleWire : Text) : Productive (wirePattern sampleWire) := by
  have hwire : "wire".toList.isEmpty = false := by decide +kernel
  have hassign : "assign".toList.isEmpty = false := by decide +kernel
  apply productive_of_not_nullable
  rw [wirePattern, chain, nullable, nullable, nullable, nullable_word, nullable_word, hwire,
    hassign, Bool.or_self, Bool.false_and]

theorem registerPattern_productive (sampleWire : Text) :
    Productive (registerPattern sampleWire) := by
  have hreg : "reg".toList.isEmpty = false := by decide +kernel
  apply productive_of_not_nullable
  rw [registerPattern, chain, nullable, nullable_word, hreg, Bool.false_and]

theorem exists_reads_wire {sampleWire input text : Text} {m : Match Char}
    (hm : m ∈ readings (wirePattern sampleWire) input) :
    ∃ keyword gap, (Site.mk .wire m text).Reads sampleWire keyword gap := by
  simp only [wirePattern, chain, mem_readings_group, mem_readings_seq, mem_readings_word,
    mem_readings_alt] at hm
  obtain ⟨_, ⟨keyword, hkeyword, rfl⟩, _, ⟨_, ⟨middle, hmiddle, rfl⟩, _, ⟨_, ⟨_, -, rfl⟩, _,
    ⟨_, ⟨_, -, rfl⟩, rfl⟩, rfl⟩, rfl⟩, rfl⟩ := hm
  obtain ⟨gap, htaken, hgroups, -⟩ := exists_gap_of_reading hmiddle
  have hword : (keyword.taken = "wire" ∨ keyword.taken = "assign") ∧ keyword.groups = [] := by
    rcases hkeyword with ⟨_, -, rfl⟩ | ⟨_, -, rfl⟩
    · exact ⟨Or.inl rfl, rfl⟩
    · exact ⟨Or.inr rfl, rfl⟩
  have hlookup : (middle.groups ++ [(1, keyword.taken)]).lookup 1 = .some keyword.taken := by
    rw [hgroups]
    cases gap.bounds <;> rfl
  have hregister : Branch.wire ≠ .register := by decide
  refine ⟨keyword.taken, gap, bounds?_of_gap (fun _ => htaken) (absurd · hregister),
    fun _ => ⟨hword.1, ?_, ?_, htaken, rfl⟩, (absurd · hregister)⟩
  · simp [Match.after, Match.close, htaken]
  · simp only [Match.group, Match.after, Match.close, hword.2]
    exact congrArg (Option.getD · []) hlookup

theorem exists_reads_register {sampleWire input text : Text} {m : Match Char}
    (hm : m ∈ readings (registerPattern sampleWire) input) :
    ∃ keyword gap, (Site.mk .register m text).Reads sampleWire keyword gap := by
  simp only [registerPattern, chain, mem_readings_group, mem_readings_seq,
    mem_readings_word] at hm
  obtain ⟨_, ⟨_, -, rfl⟩, _, ⟨_, ⟨middle, hmiddle, rfl⟩, _, ⟨_, ⟨_, -, rfl⟩, _, ⟨_, -, rfl⟩,
    rfl⟩, rfl⟩, rfl⟩ := hm
  obtain ⟨gap, htaken, hgroups, -⟩ := exists_gap_of_reading hmiddle
  have hwire : Branch.register ≠ .wire := by decide
  refine ⟨"reg", gap, bounds?_of_gap (absurd · hwire) (fun _ => ?_), (absurd · hwire),
    fun _ => ⟨rfl, ?_, ?_⟩⟩
  · rw [Match.group, Match.after, Match.after, Match.close]
    simp only [hgroups]
    cases gap.bounds <;> rfl
  · simp [Match.after, Match.close, htaken]
  · simp [Match.group, Match.after, Match.close, htaken]

/-! ## The site of a call -/

/-- A call stops at the first match of the pattern of its branch. -/
theorem Module.findall_site {module : Module} {sampleWire : Text} {site : Site}
    (hsite : module.site sampleWire = .ok site) :
    ∃ others, findall (site.pattern sampleWire) site.text = site.found :: others := by
  unfold Module.site at hsite
  split at hsite
  · rename_i found others hfound
    cases hsite
    exact ⟨others, hfound⟩
  · split at hsite
    · cases hsite
    · obtain ⟨redirected, -, hsite⟩ := bind_eq_ok.mp hsite
      split at hsite
      · cases hsite
      · rename_i found others hfound
        cases hsite
        exact ⟨others, hfound⟩

theorem Site.pattern_productive (site : Site) (sampleWire : Text) :
    Productive (site.pattern sampleWire) := by
  obtain ⟨branch, found, text⟩ := site
  cases branch with
  | wire => exact wirePattern_productive sampleWire
  | register => exact registerPattern_productive sampleWire

theorem Site.exists_reads {site : Site} {sampleWire input : Text}
    (hfound : site.found ∈ readings (site.pattern sampleWire) input) :
    ∃ keyword gap, site.Reads sampleWire keyword gap := by
  obtain ⟨branch, found, text⟩ := site
  cases branch with
  | wire => exact exists_reads_wire hfound
  | register => exact exists_reads_register hfound

/-- The text of a site up to its statement, the statement and what follows. -/
structure Site.Cut (site : Site) (sampleWire : Text) where
  before : Text
  keyword : Text
  gap : Gap
  text_eq : site.text = before ++ (site.found.taken ++ site.found.rest)
  clear : Clear (site.pattern sampleWire) before (site.found.taken ++ site.found.rest)
  match_eq : matchAt (site.pattern sampleWire) (site.found.taken ++ site.found.rest) =
    .some site.found
  reads : site.Reads sampleWire keyword gap

theorem Module.exists_cut {module : Module} {sampleWire : Text} {site : Site}
    (hsite : module.site sampleWire = .ok site) : Nonempty (site.Cut sampleWire) := by
  obtain ⟨others, hfound⟩ := module.findall_site hsite
  obtain ⟨before, following, htext, hclear, hm⟩ :=
    first_of_findall (site.pattern_productive sampleWire) hfound
  have hmem := mem_of_matchAt hm
  obtain ⟨keyword, gap, reads⟩ := Site.exists_reads hmem
  rw [← taken_append_rest hmem] at htext hclear hm
  exact ⟨⟨before, keyword, gap, htext, hclear, hm, reads⟩⟩

/-- What is emitted for a site stands in the place of each of its matches. -/
theorem Site.Cut.sub_eq {site : Site} {sampleWire : Text} (cut : site.Cut sampleWire)
    (piece : Text) :
    sub (site.pattern sampleWire) (fun _ => piece) site.text =
      cut.before ++ (piece ++
        sub (site.pattern sampleWire) (fun _ => piece) site.found.rest) := by
  have hne := site.pattern_productive sampleWire _ _ (mem_of_matchAt cut.match_eq)
  rw [cut.text_eq, cut.clear.sub, sub_hit cut.match_eq hne]

end FaultInjection
