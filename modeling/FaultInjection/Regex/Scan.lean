import FaultInjection.Regex.Readings

/-!
# Scanning

Rules for the leftmost non-overlapping scan: a stretch in which no match begins
is copied, a match is taken whole, and the scan starts afresh behind it.  The
patterns concerned never match the empty word.
-/

namespace FaultInjection.Regex

variable {α : Type}

/-- Every reading of the pattern takes at least one character. -/
def Productive (pattern : Pattern α) : Prop :=
  ∀ input, ∀ m ∈ readings pattern input, m.taken ≠ []

/-- Syntactic test for patterns that can match the empty word. -/
def nullable : Pattern α → Bool
  | .empty => true
  | .one _ => false
  | .many _ => true
  | .few _ => true
  | .seq first second => nullable first && nullable second
  | .alt first second => nullable first || nullable second
  | .group _ body => nullable body

theorem nullable_of_mem {pattern : Pattern α} {input : List α} {m : Match α}
    (hm : m ∈ readings pattern input) (hempty : m.taken = []) :
    nullable pattern = true := by
  induction pattern generalizing input m with
  | empty => rfl
  | one accepts =>
      obtain ⟨c, rest, -, -, rfl⟩ := mem_readings_one.mp hm
      cases hempty
  | many accepts => rfl
  | few accepts => rfl
  | seq first second ihFirst ihSecond =>
      obtain ⟨m₁, hm₁, m₂, hm₂, rfl⟩ := mem_readings_seq.mp hm
      rw [Match.after_taken, List.append_eq_nil_iff] at hempty
      rw [nullable, ihFirst hm₁ hempty.1, ihSecond hm₂ hempty.2, Bool.and_self]
  | alt first second ihFirst ihSecond =>
      rw [nullable, Bool.or_eq_true]
      rcases mem_readings_alt.mp hm with hm | hm
      · exact Or.inl (ihFirst hm hempty)
      · exact Or.inr (ihSecond hm hempty)
  | group index body ih =>
      obtain ⟨inner, hinner, rfl⟩ := mem_readings_group.mp hm
      exact ih hinner hempty

theorem productive_of_not_nullable {pattern : Pattern α}
    (hnullable : nullable pattern = false) : Productive pattern := by
  intro input m hm hempty
  rw [nullable_of_mem hm hempty] at hnullable
  cases hnullable

theorem nullable_word [BEq α] (text : List α) :
    nullable (.word text) = text.isEmpty := by
  cases text <;> rfl

@[simp]
theorem scan_nil (pattern : Pattern α) (pending : Nat) :
    scan pattern pending [] = [] := by
  cases pending <;> rfl

theorem scan_skip {pattern : Pattern α} {c : α} {rest : List α}
    (hnone : matchAt pattern (c :: rest) = none) :
    scan pattern 0 (c :: rest) = .skip c :: scan pattern 0 rest := by
  rw [scan, hnone]

/-- The scan consumes the characters of a match that are still pending. -/
theorem scan_pending (pattern : Pattern α) (taken rest : List α) :
    scan pattern taken.length (taken ++ rest) = scan pattern 0 rest := by
  induction taken with
  | nil => rfl
  | cons c taken ih => exact ih

theorem scan_hit {pattern : Pattern α} {input : List α} {m : Match α}
    (hm : matchAt pattern input = some m) (hne : m.taken ≠ []) :
    scan pattern 0 input = .hit m :: scan pattern 0 m.rest := by
  have hcut := taken_append_rest (mem_of_matchAt hm)
  cases htaken : m.taken with
  | nil => exact absurd htaken hne
  | cons c taken =>
      rw [htaken, List.cons_append] at hcut
      subst hcut
      rw [scan, hm]
      simp only [htaken, List.length_cons, Nat.add_sub_cancel]
      rw [scan_pending]

/-! ## Clear stretches -/

/-- No match begins inside `stretch` when `following` comes after it. -/
def Clear (pattern : Pattern α) (stretch following : List α) : Prop :=
  ∀ before after, stretch = before ++ after → after ≠ [] →
    matchAt pattern (after ++ following) = none

namespace Clear

theorem nil (pattern : Pattern α) (following : List α) :
    Clear pattern [] following := by
  intro before after heq hne
  exact absurd (List.append_eq_nil_iff.mp heq.symm).2 hne

theorem cons_iff {pattern : Pattern α} {c : α} {stretch following : List α} :
    Clear pattern (c :: stretch) following ↔
      matchAt pattern (c :: (stretch ++ following)) = none ∧
        Clear pattern stretch following := by
  constructor
  · intro hclear
    refine ⟨hclear [] (c :: stretch) rfl (List.cons_ne_nil _ _), ?_⟩
    intro before after heq hne
    exact hclear (c :: before) after (by rw [heq, List.cons_append]) hne
  · rintro ⟨hhead, htail⟩ before after heq hne
    cases before with
    | nil =>
        rw [List.nil_append] at heq
        subst heq
        exact hhead
    | cons d before =>
        rw [List.cons_append, List.cons.injEq] at heq
        exact htail before after heq.2 hne

theorem append_iff {pattern : Pattern α} {first second following : List α} :
    Clear pattern (first ++ second) following ↔
      Clear pattern first (second ++ following) ∧
        Clear pattern second following := by
  induction first with
  | nil => simp [Clear.nil]
  | cons c first ih =>
      rw [List.cons_append, cons_iff, cons_iff, ih, List.append_assoc, and_assoc]

theorem scan {pattern : Pattern α} {stretch following : List α}
    (hclear : Clear pattern stretch following) :
    Regex.scan pattern 0 (stretch ++ following) =
      stretch.map .skip ++ Regex.scan pattern 0 following := by
  induction stretch with
  | nil => rfl
  | cons c stretch ih =>
      rw [cons_iff] at hclear
      rw [List.cons_append, scan_skip hclear.1, ih hclear.2]
      rfl

theorem sub {pattern : Pattern α} {stretch following : List α}
    (hclear : Clear pattern stretch following) (replacement : Match α → List α) :
    Regex.sub pattern replacement (stretch ++ following) =
      stretch ++ Regex.sub pattern replacement following := by
  rw [Regex.sub, hclear.scan, List.flatMap_append, ← Regex.sub]
  congr 1
  induction stretch with
  | nil => rfl
  | cons c stretch ih =>
      rw [List.map_cons, List.flatMap_cons, ih (cons_iff.mp hclear).2]
      rfl

theorem findall {pattern : Pattern α} {stretch following : List α}
    (hclear : Clear pattern stretch following) :
    Regex.findall pattern (stretch ++ following) =
      Regex.findall pattern following := by
  rw [Regex.findall, hclear.scan, List.filterMap_append, ← Regex.findall]
  have hnone : (stretch.map Piece.skip).filterMap Piece.hit? = [] := by
    rw [List.filterMap_eq_nil_iff]
    rintro piece hpiece
    obtain ⟨c, -, rfl⟩ := List.mem_map.mp hpiece
    rfl
  rw [hnone, List.nil_append]

end Clear

theorem sub_hit {pattern : Pattern α} {input : List α} {m : Match α}
    (hm : matchAt pattern input = some m) (hne : m.taken ≠ [])
    (replacement : Match α → List α) :
    sub pattern replacement input =
      replacement m ++ sub pattern replacement m.rest := by
  rw [sub, scan_hit hm hne, List.flatMap_cons]
  rfl

theorem findall_hit {pattern : Pattern α} {input : List α} {m : Match α}
    (hm : matchAt pattern input = some m) (hne : m.taken ≠ []) :
    findall pattern input = m :: findall pattern m.rest := by
  rw [findall, scan_hit hm hne, List.filterMap_cons]
  rfl

theorem sub_skip {pattern : Pattern α} {c : α} {rest : List α}
    (hnone : matchAt pattern (c :: rest) = none) (replacement : Match α → List α) :
    sub pattern replacement (c :: rest) = c :: sub pattern replacement rest := by
  rw [sub, scan_skip hnone, List.flatMap_cons]
  rfl

theorem findall_skip {pattern : Pattern α} {c : α} {rest : List α}
    (hnone : matchAt pattern (c :: rest) = none) :
    findall pattern (c :: rest) = findall pattern rest := by
  rw [findall, scan_skip hnone]
  rfl

@[simp]
theorem sub_nil (pattern : Pattern α) (replacement : Match α → List α) :
    sub pattern replacement [] = [] := rfl

@[simp]
theorem findall_nil (pattern : Pattern α) : findall pattern [] = [] := rfl

theorem sub_of_clear {pattern : Pattern α} {input : List α}
    (hclear : Clear pattern input []) (replacement : Match α → List α) :
    sub pattern replacement input = input := by
  have hsub := hclear.sub replacement
  rwa [List.append_nil, sub_nil, List.append_nil] at hsub

theorem findall_of_clear {pattern : Pattern α} {input : List α}
    (hclear : Clear pattern input []) : findall pattern input = [] := by
  have hfindall := hclear.findall
  rwa [List.append_nil, findall_nil] at hfindall

/-! ## Induction along a scan -/

/-- Induction on the course of a scan: over the characters passed over and the
matches taken. -/
theorem scan_induction {pattern : Pattern α} (hproductive : Productive pattern)
    {motive : List α → Prop} (nil : motive [])
    (skip : ∀ c rest, matchAt pattern (c :: rest) = none → motive rest →
      motive (c :: rest))
    (hit : ∀ input m, matchAt pattern input = some m → m.taken ≠ [] →
      motive m.rest → motive input) (input : List α) : motive input := by
  induction hlength : input.length using Nat.strongRecOn generalizing input with
  | ind length ih =>
      cases hmatch : matchAt pattern input with
      | none =>
          cases input with
          | nil => exact nil
          | cons c rest =>
              refine skip c rest hmatch (ih rest.length ?_ rest rfl)
              rw [← hlength, List.length_cons]
              exact Nat.lt_succ_self _
      | some m =>
          have hne := hproductive input m (mem_of_matchAt hmatch)
          refine hit input m hmatch hne (ih m.rest.length ?_ m.rest rfl)
          have hcut := congrArg List.length (taken_append_rest (mem_of_matchAt hmatch))
          rw [List.length_append, hlength] at hcut
          have hpos := List.length_pos_of_ne_nil hne
          omega

/-- A word is clear, or a clear stretch of it leads to its first match. -/
theorem clear_or_first (pattern : Pattern α) (input : List α) :
    Clear pattern input [] ∨
      ∃ stretch following m, input = stretch ++ following ∧
        Clear pattern stretch following ∧ matchAt pattern following = some m := by
  induction input with
  | nil => exact Or.inl (Clear.nil pattern [])
  | cons c rest ih =>
      cases hmatch : matchAt pattern (c :: rest) with
      | some m => exact Or.inr ⟨[], c :: rest, m, rfl, Clear.nil _ _, hmatch⟩
      | none =>
          rcases ih with hclear | ⟨stretch, following, m, rfl, hclear, hm⟩
          · refine Or.inl (Clear.cons_iff.mpr ⟨?_, hclear⟩)
            rwa [List.append_nil]
          · exact Or.inr ⟨c :: stretch, following, m, rfl,
              Clear.cons_iff.mpr ⟨hmatch, hclear⟩, hm⟩

theorem clear_of_findall {pattern : Pattern α} (hproductive : Productive pattern) {input : List α}
    (hfound : findall pattern input = []) : Clear pattern input [] := by
  rcases clear_or_first pattern input with hclear | ⟨stretch, following, m, rfl, hclear, hm⟩
  · exact hclear
  · rw [hclear.findall, findall_hit hm (hproductive _ _ (mem_of_matchAt hm))] at hfound
    cases hfound

/-- The first match found ends the first stretch that is not clear. -/
theorem first_of_findall {pattern : Pattern α} (hproductive : Productive pattern)
    {input : List α} {m : Match α} {others : List (Match α)}
    (hfound : findall pattern input = m :: others) :
    ∃ stretch following, input = stretch ++ following ∧ Clear pattern stretch following ∧
      matchAt pattern following = some m := by
  rcases clear_or_first pattern input with hclear | ⟨stretch, following, first, rfl, hclear, hm⟩
  · rw [findall_of_clear hclear] at hfound
    cases hfound
  · rw [hclear.findall, findall_hit hm (hproductive _ _ (mem_of_matchAt hm)),
      List.cons.injEq] at hfound
    rw [hfound.1] at hm
    exact ⟨stretch, following, rfl, hclear, hm⟩

theorem length_sub_const (pattern : Pattern α) (input : List α) :
    ∃ passed, ∀ piece, (sub pattern (fun _ => piece) input).length =
      passed + (findall pattern input).length * piece.length := by
  have hpieces : ∀ pieces : List (Piece α), ∃ passed, ∀ piece : List α,
      (pieces.flatMap (Piece.render fun _ => piece)).length =
        passed + (pieces.filterMap Piece.hit?).length * piece.length := by
    intro pieces
    induction pieces with
    | nil => exact ⟨0, fun piece => by simp⟩
    | cons first pieces ih =>
        obtain ⟨passed, hpassed⟩ := ih
        cases first with
        | skip c =>
            refine ⟨passed + 1, fun piece => ?_⟩
            rw [List.flatMap_cons, List.length_append, hpassed]
            simp only [Piece.render, List.length_singleton, List.filterMap_cons, Piece.hit?]
            omega
        | hit m =>
            refine ⟨passed, fun piece => ?_⟩
            rw [List.flatMap_cons, List.length_append, hpassed]
            simp only [Piece.render, List.filterMap_cons, Piece.hit?, List.length_cons,
              Nat.succ_mul]
            omega
  exact hpieces _

/-- A character that no match holds is counted in the word and in each piece put in. -/
theorem count_sub_const [BEq α] {pattern : Pattern α} (hproductive : Productive pattern) {c : α}
    (hmatch : ∀ {input m}, matchAt pattern input = some m → m.taken.count c = 0)
    (piece input : List α) : (sub pattern (fun _ => piece) input).count c =
      input.count c + (findall pattern input).length * piece.count c := by
  induction input using scan_induction hproductive with
  | nil => simp [sub_nil, findall_nil]
  | skip d rest hnone ih =>
      rw [sub_skip hnone, findall_skip hnone, List.count_cons, List.count_cons, ih]
      omega
  | hit input m hm hne ih =>
      have hcut := congrArg (List.count c) (taken_append_rest (mem_of_matchAt hm))
      rw [List.count_append, hmatch hm, Nat.zero_add] at hcut
      rw [sub_hit hm hne, findall_hit hm hne, List.count_append, List.length_cons, ih, ← hcut,
        Nat.succ_mul]
      omega

theorem sub_const_injective {pattern : Pattern α} (hproductive : Productive pattern)
    {input first second : List α} (hfound : findall pattern input ≠ [])
    (heq : sub pattern (fun _ => first) input = sub pattern (fun _ => second) input) :
    first = second := by
  obtain ⟨m, others, hfindall⟩ := List.exists_cons_of_ne_nil hfound
  obtain ⟨passed, hpassed⟩ := length_sub_const pattern input
  have hlength : first.length = second.length := by
    have hsame := hpassed first
    rw [heq, hpassed second, hfindall, List.length_cons] at hsame
    exact (Nat.eq_of_mul_eq_mul_left (Nat.succ_pos _) (Nat.add_left_cancel hsame)).symm
  obtain ⟨stretch, following, rfl, hclear, hm⟩ := first_of_findall hproductive hfindall
  have hne := hproductive _ _ (mem_of_matchAt hm)
  rw [hclear.sub, hclear.sub, sub_hit hm hne, sub_hit hm hne, List.append_cancel_left_eq] at heq
  exact (List.append_inj heq hlength).1

theorem exists_of_mem_findall {pattern : Pattern α} (hproductive : Productive pattern)
    {input : List α} {m : Match α} (hm : m ∈ findall pattern input) :
    ∃ before following, input = before ++ following ∧
      matchAt pattern following = some m := by
  induction input using scan_induction hproductive with
  | nil => cases hm
  | skip c rest hnone ih =>
      rw [findall, scan_skip hnone] at hm
      obtain ⟨before, following, rfl, hmatch⟩ := ih hm
      exact ⟨c :: before, following, rfl, hmatch⟩
  | hit input first hfirst hne ih =>
      rw [findall_hit hfirst hne] at hm
      rcases List.mem_cons.mp hm with rfl | hm
      · exact ⟨[], input, rfl, hfirst⟩
      · obtain ⟨before, following, hrest, hmatch⟩ := ih hm
        refine ⟨first.taken ++ before, following, ?_, hmatch⟩
        rw [List.append_assoc, ← hrest, taken_append_rest (mem_of_matchAt hfirst)]

/-! ## Stretches that end where no match goes on -/

/-- No match of the pattern holds the character. -/
def Avoids (c : α) : Pattern α → Prop
  | .empty => True
  | .one accepts => accepts c = false
  | .many accepts => accepts c = false
  | .few accepts => accepts c = false
  | .seq first second => Avoids c first ∧ Avoids c second
  | .alt first second => Avoids c first ∧ Avoids c second
  | .group _ body => Avoids c body

theorem avoids_word [BEq α] [LawfulBEq α] {c : α} {text : List α} (hc : c ∉ text) :
    Avoids c (.word text) := by
  induction text with
  | nil => trivial
  | cons d text ih =>
      rw [List.mem_cons, not_or] at hc
      exact ⟨beq_eq_false_iff_ne.mpr hc.1, ih hc.2⟩

theorem Avoids.not_mem {c : α} {pattern : Pattern α} (havoids : Avoids c pattern)
    {input : List α} {m : Match α} (hm : m ∈ readings pattern input) : c ∉ m.taken := by
  have hrun : ∀ {accepts : α → Bool} {taken : List α}, accepts c = false →
      (∀ d ∈ taken, accepts d = true) → c ∉ taken := by
    intro accepts taken hc htaken hmem
    rw [htaken c hmem] at hc
    cases hc
  induction pattern generalizing input m with
  | empty =>
      rw [mem_readings_empty.mp hm]
      exact List.not_mem_nil
  | one accepts =>
      obtain ⟨d, rest, -, hd, rfl⟩ := mem_readings_one.mp hm
      exact hrun havoids (List.forall_mem_singleton.mpr hd)
  | many accepts =>
      obtain ⟨taken, rest, -, htaken, rfl⟩ := mem_readings_many.mp hm
      exact hrun havoids htaken
  | few accepts =>
      obtain ⟨taken, rest, -, htaken, rfl⟩ := mem_readings_few.mp hm
      exact hrun havoids htaken
  | seq first second ihFirst ihSecond =>
      obtain ⟨m₁, hm₁, m₂, hm₂, rfl⟩ := mem_readings_seq.mp hm
      rw [Match.after_taken, List.mem_append, not_or]
      exact ⟨ihFirst havoids.1 hm₁, ihSecond havoids.2 hm₂⟩
  | alt first second ihFirst ihSecond =>
      rcases mem_readings_alt.mp hm with hm | hm
      · exact ihFirst havoids.1 hm
      · exact ihSecond havoids.2 hm
  | group index body ih =>
      obtain ⟨inner, hinner, rfl⟩ := mem_readings_group.mp hm
      rw [Match.close_taken]
      exact ih havoids hinner

theorem readings_taken {pattern : Pattern α} {input : List α} {m : Match α}
    (hm : m ∈ readings pattern input) (rest : List α) :
    ({ m with rest := rest } : Match α) ∈ readings pattern (m.taken ++ rest) := by
  induction pattern generalizing input m rest with
  | empty =>
      rw [mem_readings_empty.mp hm]
      exact mem_readings_empty.mpr rfl
  | one accepts =>
      obtain ⟨d, left, -, hd, rfl⟩ := mem_readings_one.mp hm
      exact mem_readings_one.mpr ⟨d, rest, rfl, hd, rfl⟩
  | many accepts =>
      obtain ⟨taken, left, -, htaken, rfl⟩ := mem_readings_many.mp hm
      exact mem_readings_many.mpr ⟨taken, rest, rfl, htaken, rfl⟩
  | few accepts =>
      obtain ⟨taken, left, -, htaken, rfl⟩ := mem_readings_few.mp hm
      exact mem_readings_few.mpr ⟨taken, rest, rfl, htaken, rfl⟩
  | seq first second ihFirst ihSecond =>
      obtain ⟨m₁, hm₁, m₂, hm₂, rfl⟩ := mem_readings_seq.mp hm
      rw [Match.after_taken, List.append_assoc]
      exact mem_readings_seq.mpr ⟨{ m₁ with rest := m₂.taken ++ rest },
        ihFirst hm₁ (m₂.taken ++ rest), { m₂ with rest := rest }, ihSecond hm₂ rest, rfl⟩
  | alt first second ihFirst ihSecond =>
      rcases mem_readings_alt.mp hm with hm | hm
      · exact mem_readings_alt.mpr (Or.inl (ihFirst hm rest))
      · exact mem_readings_alt.mpr (Or.inr (ihSecond hm rest))
  | group index body ih =>
      obtain ⟨inner, hinner, rfl⟩ := mem_readings_group.mp hm
      exact mem_readings_group.mpr ⟨_, ih hinner rest, rfl⟩

/-- A stretch that ends with a character that no match holds is clear on its own account. -/
theorem Avoids.clear {c : α} {pattern : Pattern α} (havoids : Avoids c pattern)
    {stretch : List α} (hclear : Clear pattern (stretch ++ [c]) []) (following : List α) :
    Clear pattern (stretch ++ [c]) following := by
  intro before after hcut hne
  cases hm : matchAt pattern (after ++ following) with
  | none => rfl
  | some m =>
      have hreading := mem_of_matchAt hm
      obtain ⟨inner, last, rfl⟩ := (List.eq_nil_or_concat after).resolve_left hne
      rw [List.concat_eq_append] at hcut hreading
      rw [← List.append_assoc] at hcut
      obtain rfl : c = last := List.singleton_inj.mp (List.append_inj' hcut rfl).2
      -- the match ends in front of the character
      obtain ⟨more, hmore⟩ : m.taken <+: inner ++ [c] := by
        rcases List.append_eq_append_iff.mp (taken_append_rest hreading) with
          ⟨more, hmore, -⟩ | ⟨more, hmore, -⟩
        · exact ⟨more, hmore.symm⟩
        · refine absurd ?_ (havoids.not_mem hreading)
          rw [hmore]
          exact List.mem_append_left _ (List.mem_append_right _ (.head _))
      have hagain := readings_taken hreading more
      rw [hmore] at hagain
      have hnone := hclear before (inner ++ [c]) (by rw [hcut, List.append_assoc]) (by simp)
      rw [List.append_nil, matchAt_eq_none_iff] at hnone
      exact absurd hagain (hnone _)

end FaultInjection.Regex
