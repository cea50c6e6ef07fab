import FaultInjection.Regex.Pattern

/-!
# What a reading is

Every reading of a composite pattern is put together from readings of its parts,
and every reading cuts the word it was found in.  The rules below take one
constructor apart at a time.
-/

namespace FaultInjection.Regex

variable {α : Type}

@[simp]
theorem Match.after_taken (earlier m : Match α) :
    (earlier.after m).taken = earlier.taken ++ m.taken := rfl

@[simp]
theorem Match.after_rest (earlier m : Match α) :
    (earlier.after m).rest = m.rest := rfl

@[simp]
theorem Match.after_groups (earlier m : Match α) :
    (earlier.after m).groups = m.groups ++ earlier.groups := rfl

@[simp]
theorem Match.close_taken (index : Nat) (m : Match α) :
    (m.close index).taken = m.taken := rfl

@[simp]
theorem Match.close_rest (index : Nat) (m : Match α) :
    (m.close index).rest = m.rest := rfl

@[simp]
theorem Match.close_groups (index : Nat) (m : Match α) :
    (m.close index).groups = (index, m.taken) :: m.groups := rfl

/-- A cut takes characters of the class and leaves the rest of the word. -/
theorem mem_cuts {accepts : α → Bool} {input : List α} {cut : List α × List α} :
    cut ∈ cuts accepts input ↔
      input = cut.1 ++ cut.2 ∧ ∀ c ∈ cut.1, accepts c = true := by
  induction input generalizing cut with
  | nil =>
      rcases cut with ⟨taken, rest⟩
      cases taken <;> cases rest <;> simp [cuts]
  | cons c input ih =>
      rcases cut with ⟨taken, rest⟩
      cases taken with
      | nil =>
          by_cases haccepts : accepts c = true
          · simpa [cuts, haccepts] using eq_comm
          · simpa [cuts, haccepts] using eq_comm
      | cons first taken =>
          by_cases haccepts : accepts c = true
          · simp only [cuts, haccepts, if_true, List.mem_cons, Prod.mk.injEq,
              reduceCtorEq, false_and, false_or, List.mem_map, Prod.exists,
              List.cons.injEq, List.cons_append]
            constructor
            · rintro ⟨shorter, left, hmem, ⟨rfl, rfl⟩, rfl⟩
              obtain ⟨rfl, hall⟩ := ih.mp hmem
              refine ⟨⟨rfl, rfl⟩, ?_⟩
              rintro d (rfl | hd)
              · exact haccepts
              · exact hall d hd
            · rintro ⟨⟨rfl, rfl⟩, hall⟩
              exact ⟨taken, rest, ih.mpr ⟨rfl, fun d hd => hall d (Or.inr hd)⟩,
                ⟨rfl, rfl⟩, rfl⟩
          · simp only [cuts, haccepts, List.mem_cons, Prod.mk.injEq, reduceCtorEq,
              false_and, false_or, List.cons_append, List.cons.injEq,
              Bool.false_eq_true, if_false, List.not_mem_nil, false_iff]
            rintro ⟨⟨rfl, -⟩, hall⟩
            exact haccepts (hall c (Or.inl rfl))

@[simp]
theorem mem_readings_empty {input : List α} {m : Match α} :
    m ∈ readings .empty input ↔ m = ⟨[], input, []⟩ := by
  simp [readings_empty]

@[simp]
theorem mem_readings_one {accepts : α → Bool} {input : List α} {m : Match α} :
    m ∈ readings (.one accepts) input ↔
      ∃ c rest, input = c :: rest ∧ accepts c = true ∧ m = ⟨[c], rest, []⟩ := by
  cases input with
  | nil => simp [readings_one_nil]
  | cons c rest =>
      by_cases haccepts : accepts c = true
      · simp only [readings_one, haccepts, if_true, List.mem_singleton, List.cons.injEq]
        constructor
        · rintro rfl
          exact ⟨c, rest, ⟨rfl, rfl⟩, haccepts, rfl⟩
        · rintro ⟨c', rest', ⟨rfl, rfl⟩, -, rfl⟩
          rfl
      · simp only [readings_one, haccepts, List.cons.injEq]
        constructor
        · intro impossible
          cases impossible
        · rintro ⟨c', rest', ⟨rfl, rfl⟩, hc, -⟩
          exact absurd hc haccepts

@[simp]
theorem mem_readings_many {accepts : α → Bool} {input : List α} {m : Match α} :
    m ∈ readings (.many accepts) input ↔
      ∃ taken rest, input = taken ++ rest ∧ (∀ c ∈ taken, accepts c = true) ∧
        m = ⟨taken, rest, []⟩ := by
  simp only [readings_many, List.mem_map, List.mem_reverse, mem_cuts, Prod.exists]
  constructor
  · rintro ⟨taken, rest, ⟨hcut, hall⟩, rfl⟩
    exact ⟨taken, rest, hcut, hall, rfl⟩
  · rintro ⟨taken, rest, hcut, hall, rfl⟩
    exact ⟨taken, rest, ⟨hcut, hall⟩, rfl⟩

@[simp]
theorem mem_readings_few {accepts : α → Bool} {input : List α} {m : Match α} :
    m ∈ readings (.few accepts) input ↔
      ∃ taken rest, input = taken ++ rest ∧ (∀ c ∈ taken, accepts c = true) ∧
        m = ⟨taken, rest, []⟩ := by
  simp only [readings_few, List.mem_map, mem_cuts, Prod.exists]
  constructor
  · rintro ⟨taken, rest, ⟨hcut, hall⟩, rfl⟩
    exact ⟨taken, rest, hcut, hall, rfl⟩
  · rintro ⟨taken, rest, hcut, hall, rfl⟩
    exact ⟨taken, rest, ⟨hcut, hall⟩, rfl⟩

@[simp]
theorem mem_readings_seq {first second : Pattern α} {input : List α}
    {m : Match α} :
    m ∈ readings (.seq first second) input ↔
      ∃ m₁ ∈ readings first input, ∃ m₂ ∈ readings second m₁.rest,
        m = m₁.after m₂ := by
  simp [readings_seq, eq_comm]

@[simp]
theorem mem_readings_alt {first second : Pattern α} {input : List α}
    {m : Match α} :
    m ∈ readings (.alt first second) input ↔
      m ∈ readings first input ∨ m ∈ readings second input := by
  simp [readings_alt]

@[simp]
theorem mem_readings_group {index : Nat} {body : Pattern α} {input : List α}
    {m : Match α} :
    m ∈ readings (.group index body) input ↔
      ∃ m' ∈ readings body input, m = m'.close index := by
  simp [readings_group, eq_comm]

@[simp]
theorem mem_readings_word [BEq α] [LawfulBEq α] {text input : List α}
    {m : Match α} :
    m ∈ readings (.word text) input ↔
      ∃ rest, input = text ++ rest ∧ m = ⟨text, rest, []⟩ := by
  induction text generalizing input m with
  | nil => simp [Pattern.word]
  | cons c text ih =>
      simp only [Pattern.word, mem_readings_seq, mem_readings_one, beq_iff_eq]
      constructor
      · rintro ⟨m₁, ⟨c', rest, rfl, rfl, rfl⟩, m₂, hm₂, rfl⟩
        obtain ⟨left, hrest, rfl⟩ := ih.mp hm₂
        exact ⟨left, by simpa using hrest, rfl⟩
      · rintro ⟨rest, rfl, rfl⟩
        exact ⟨⟨[c], text ++ rest, []⟩, ⟨c, text ++ rest, rfl, rfl, rfl⟩,
          ⟨text, rest, []⟩, ih.mpr ⟨rest, rfl, rfl⟩, rfl⟩

theorem readings_seq_assoc (first second third : Pattern α) (input : List α) :
    readings (.seq (.seq first second) third) input =
      readings (.seq first (.seq second third)) input := by
  simp only [readings_seq, List.flatMap_assoc, List.flatMap_map, List.map_flatMap, List.map_map]
  refine List.flatMap_congr fun m _ => List.flatMap_congr fun m' _ => ?_
  refine List.map_congr_left fun m'' _ => ?_
  simp [Match.after]

theorem taken_append_rest {pattern : Pattern α} {input : List α} {m : Match α}
    (hm : m ∈ readings pattern input) : m.taken ++ m.rest = input := by
  induction pattern generalizing input m with
  | empty =>
      rw [mem_readings_empty] at hm
      subst hm
      rfl
  | one accepts =>
      obtain ⟨c, rest, rfl, -, rfl⟩ := mem_readings_one.mp hm
      rfl
  | many accepts =>
      obtain ⟨taken, rest, rfl, -, rfl⟩ := mem_readings_many.mp hm
      rfl
  | few accepts =>
      obtain ⟨taken, rest, rfl, -, rfl⟩ := mem_readings_few.mp hm
      rfl
  | seq first second ihFirst ihSecond =>
      obtain ⟨m₁, hm₁, m₂, hm₂, rfl⟩ := mem_readings_seq.mp hm
      rw [Match.after_taken, Match.after_rest, List.append_assoc, ihSecond hm₂,
        ihFirst hm₁]
  | alt first second ihFirst ihSecond =>
      rcases mem_readings_alt.mp hm with hm | hm
      · exact ihFirst hm
      · exact ihSecond hm
  | group index body ih =>
      obtain ⟨inner, hinner, rfl⟩ := mem_readings_group.mp hm
      have hcut := ih hinner
      exact hcut

theorem mem_of_matchAt {pattern : Pattern α} {input : List α} {m : Match α}
    (hm : matchAt pattern input = some m) : m ∈ readings pattern input :=
  List.mem_of_head? hm

theorem matchAt_eq_none_iff {pattern : Pattern α} {input : List α} :
    matchAt pattern input = none ↔ ∀ m, m ∉ readings pattern input := by
  rw [matchAt, List.head?_eq_none_iff, List.eq_nil_iff_forall_not_mem]

/-- A lazy repetition tries its continuation before it takes a character. -/
theorem matchAt_few_seq {accepts : α → Bool} {next : Pattern α} {input : List α} :
    matchAt (.seq (.few accepts) next) input =
      match matchAt next input with
      | some m => some m
      | none =>
          match input with
          | [] => none
          | c :: rest =>
              if accepts c then
                (matchAt (.seq (.few accepts) next) rest).map
                  (Match.after ⟨[c], rest, []⟩)
              else none := by
  cases input with
  | nil =>
      cases hnext : readings next ([] : List α) with
      | nil => simp [matchAt, readings_seq, readings_few, cuts, hnext]
      | cons m others => simp [matchAt, readings_seq, readings_few, cuts, hnext, Match.after]
  | cons c rest =>
      cases hnext : readings next (c :: rest) with
      | cons m others => simp [matchAt, readings_seq, readings_few, cuts, hnext, Match.after]
      | nil =>
          by_cases haccepts : accepts c = true
          · simp only [matchAt, readings_seq, readings_few, cuts, hnext, haccepts, if_true,
              List.map_cons, List.flatMap_cons, List.map_nil, List.nil_append,
              List.head?_nil, List.map_map, List.flatMap_map, ← List.head?_map,
              List.map_flatMap]
            refine congrArg List.head? (List.flatMap_congr fun cut _ => ?_)
            refine List.map_congr_left fun m _ => ?_
            simp [Match.after]
          · simp [matchAt, readings_seq, readings_few, cuts, hnext, haccepts]

/-- A word is cut in one way only into a run of a class and a rest that does
not continue the run. -/
theorem run_unique {accepts : α → Bool} {run₁ run₂ rest₁ rest₂ : List α}
    (heq : run₁ ++ rest₁ = run₂ ++ rest₂)
    (hrun₁ : ∀ c ∈ run₁, accepts c = true) (hrun₂ : ∀ c ∈ run₂, accepts c = true)
    (hrest₁ : ∀ c ∈ rest₁.head?, accepts c = false)
    (hrest₂ : ∀ c ∈ rest₂.head?, accepts c = false) :
    run₁ = run₂ ∧ rest₁ = rest₂ := by
  induction run₁ generalizing run₂ with
  | nil =>
      cases run₂ with
      | nil => exact ⟨rfl, by simpa using heq⟩
      | cons c run₂ =>
          have hhead : rest₁.head? = some c := by
            rw [List.nil_append] at heq
            rw [heq]
            rfl
          have hfalse := hrest₁ c hhead
          rw [hrun₂ c (.head _)] at hfalse
          cases hfalse
  | cons c run₁ ih =>
      cases run₂ with
      | nil =>
          have hhead : rest₂.head? = some c := by
            rw [List.nil_append] at heq
            rw [← heq]
            rfl
          have hfalse := hrest₂ c hhead
          rw [hrun₁ c (.head _)] at hfalse
          cases hfalse
      | cons c' run₂ =>
          rw [List.cons_append, List.cons_append, List.cons.injEq] at heq
          obtain ⟨rfl, heq⟩ := heq
          obtain ⟨rfl, hrest⟩ := ih heq (fun d hd => hrun₁ d (.tail _ hd))
            (fun d hd => hrun₂ d (.tail _ hd))
          exact ⟨rfl, hrest⟩

end FaultInjection.Regex
