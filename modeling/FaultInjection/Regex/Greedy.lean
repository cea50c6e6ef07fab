import FaultInjection.Regex.Scan

/-!
# Evaluating patterns

Equations for the reported match.  A greedy repetition takes the whole run of
its class when what follows it cannot begin inside the run, and when nothing
follows it.
-/

namespace FaultInjection.Regex

open Pattern

variable {α β : Type}

/-- A word that does not go on with a character of the class. -/
def EndsRun (accepts : α → Bool) (rest : List α) : Prop :=
  ∀ c ∈ rest.head?, accepts c = false

@[simp]
theorem endsRun_nil (accepts : α → Bool) : EndsRun accepts ([] : List α) := by
  intro c hc
  cases hc

@[simp]
theorem endsRun_cons {accepts : α → Bool} {c : α} {rest : List α} :
    EndsRun accepts (c :: rest) ↔ accepts c = false := by
  simp [EndsRun]

/-! ## Repetitions -/

theorem cuts_of_endsRun {accepts : α → Bool} {rest : List α}
    (hrest : EndsRun accepts rest) : cuts accepts rest = [([], rest)] := by
  cases rest with
  | nil => rfl
  | cons c rest => simp [cuts, endsRun_cons.mp hrest]

theorem readings_many_cons {accepts : α → Bool} {c : α} (rest : List α)
    (hc : accepts c = true) :
    readings (.many accepts) (c :: rest) =
      (readings (.many accepts) rest).map (Match.after ⟨[c], rest, []⟩) ++
        [⟨[], c :: rest, []⟩] := by
  simp [readings, cuts, hc, List.map_reverse, Function.comp_def, Match.after]

/-- Of the ways to read a run, only the whole run counts for a continuation that
cannot begin inside it. -/
theorem flatMap_many {accepts : α → Bool} {run rest : List α}
    (hrun : ∀ c ∈ run, accepts c = true) (hrest : EndsRun accepts rest)
    (next : Match α → List β)
    (hnext : ∀ m c left, accepts c = true → m.rest = c :: left → next m = []) :
    (readings (.many accepts) (run ++ rest)).flatMap next = next ⟨run, rest, []⟩ := by
  induction run generalizing next with
  | nil =>
      rw [List.nil_append, readings, cuts_of_endsRun hrest]
      simp
  | cons c run ih =>
      have hc := hrun c (.head _)
      have hlast : next ⟨[], c :: (run ++ rest), []⟩ = [] := hnext _ c _ hc rfl
      rw [List.cons_append, readings_many_cons _ hc, List.flatMap_append,
        List.flatMap_map, ih (fun d hd => hrun d (.tail _ hd))]
      · rw [List.flatMap_singleton, hlast, List.append_nil]
        rfl
      · intro m d left hd hleft
        exact hnext _ d left hd hleft

/-- Of the ways to read a stretch lazily, the first counts that a continuation
begins behind. -/
theorem head?_flatMap_few {accepts : α → Bool} {before rest : List α}
    (hbefore : ∀ c ∈ before, accepts c = true) (next : Match α → List β)
    (hnone : ∀ earlier later, before = earlier ++ later → later ≠ [] →
      next ⟨earlier, later ++ rest, []⟩ = []) (hnext : next ⟨before, rest, []⟩ ≠ []) :
    ((readings (.few accepts) (before ++ rest)).flatMap next).head? =
      (next ⟨before, rest, []⟩).head? := by
  induction before generalizing next with
  | nil =>
      obtain ⟨first, others, hfirst⟩ := List.exists_cons_of_ne_nil hnext
      cases rest with
      | nil => simp [readings, cuts]
      | cons c rest => simp [readings, cuts, hfirst]
  | cons c before ih =>
      have hhere : next ⟨[], c :: (before ++ rest), []⟩ = [] :=
        hnone [] (c :: before) rfl (List.cons_ne_nil _ _)
      have hlater := ih (fun d hd => hbefore d (.tail _ hd))
        (fun m => next ⟨c :: m.taken, m.rest, []⟩)
        (fun earlier later heq hne =>
          hnone (c :: earlier) later (congrArg (c :: ·) heq) hne) hnext
      simp only [readings, List.flatMap_map] at hlater ⊢
      rw [List.cons_append, cuts, if_pos (hbefore c (.head _)), List.flatMap_cons, hhere,
        List.nil_append, List.flatMap_map]
      exact hlater

theorem flatMap_some {accepts : α → Bool} {run rest : List α} (hne : run ≠ [])
    (hrun : ∀ c ∈ run, accepts c = true) (hrest : EndsRun accepts rest)
    (next : Match α → List β)
    (hnext : ∀ m c left, accepts c = true → m.rest = c :: left → next m = []) :
    (readings (.some accepts) (run ++ rest)).flatMap next = next ⟨run, rest, []⟩ := by
  cases run with
  | nil => exact absurd rfl hne
  | cons c run =>
      have hc := hrun c (.head _)
      rw [Pattern.some, List.cons_append, readings]
      simp only [readings, hc, if_true, List.flatMap_cons, List.flatMap_nil,
        List.append_nil, List.flatMap_map]
      have hmany := flatMap_many (fun d hd => hrun d (.tail _ hd)) hrest
        (fun m => next (Match.after ⟨[c], run ++ rest, []⟩ m))
        (fun m d left hd hleft => hnext _ d left hd hleft)
      simp only [readings, List.flatMap_map] at hmany
      exact hmany

theorem readings_some_of_endsRun {accepts : α → Bool} {rest : List α}
    (hrest : EndsRun accepts rest) : readings (.some accepts) rest = [] := by
  cases rest with
  | nil => rfl
  | cons c rest => simp [Pattern.some, readings, endsRun_cons.mp hrest]

/-! ## The reported match of a composite pattern -/

theorem matchAt_many {accepts : α → Bool} {run rest : List α}
    (hrun : ∀ c ∈ run, accepts c = true) (hrest : EndsRun accepts rest) :
    matchAt (.many accepts) (run ++ rest) = some ⟨run, rest, []⟩ := by
  induction run with
  | nil =>
      rw [List.nil_append, matchAt, readings, cuts_of_endsRun hrest]
      rfl
  | cons c run ih =>
      have hhead := ih fun d hd => hrun d (.tail _ hd)
      rw [matchAt] at hhead
      rw [List.cons_append, matchAt, readings_many_cons _ (hrun c (.head _)),
        List.head?_append, List.head?_map, hhead]
      rfl

theorem EndsRun.unique {accepts : α → Bool} {run rest run' rest' : List α}
    (hrest : EndsRun accepts rest) (hrest' : EndsRun accepts rest')
    (hrun : ∀ c ∈ run, accepts c = true) (hrun' : ∀ c ∈ run', accepts c = true)
    (heq : run ++ rest = run' ++ rest') : run = run' ∧ rest = rest' := by
  have hmatch := matchAt_many hrun hrest
  rw [heq, matchAt_many hrun' hrest', Option.some.injEq, Match.mk.injEq] at hmatch
  exact ⟨hmatch.1.symm, hmatch.2.1.symm⟩

theorem matchAt_seq_of_single {first second : Pattern α} {input : List α}
    {m : Match α} (hfirst : readings first input = [m]) :
    matchAt (.seq first second) input =
      (matchAt second m.rest).map m.after := by
  simp [matchAt, readings, hfirst]

/-- The first reading of a first part counts when the second part goes on there. -/
theorem matchAt_seq_of_first {first second : Pattern α} {input : List α} {m m' : Match α}
    (hfirst : matchAt first input = some m) (hsecond : matchAt second m.rest = some m') :
    matchAt (.seq first second) input = some (m.after m') := by
  obtain ⟨others, hreadings⟩ := List.head?_eq_some_iff.mp hfirst
  obtain ⟨others', hreadings'⟩ := List.head?_eq_some_iff.mp hsecond
  rw [matchAt, readings, hreadings, List.flatMap_cons, hreadings', List.map_cons,
    List.cons_append, List.head?_cons]

theorem readings_one_cons {accepts : α → Bool} {c : α} {rest : List α}
    (hc : accepts c = true) :
    readings (.one accepts) (c :: rest) = [⟨[c], rest, []⟩] := by
  simp [readings, hc]

theorem matchAt_some {accepts : α → Bool} {run rest : List α} (hne : run ≠ [])
    (hrun : ∀ c ∈ run, accepts c = true) (hrest : EndsRun accepts rest) :
    matchAt (.some accepts) (run ++ rest) = some ⟨run, rest, []⟩ := by
  cases run with
  | nil => exact absurd rfl hne
  | cons c run =>
      rw [Pattern.some, List.cons_append,
        matchAt_seq_of_single (readings_one_cons (hrun c (.head _))),
        matchAt_many (fun d hd => hrun d (.tail _ hd)) hrest]
      rfl

theorem matchAt_seq_none {first second : Pattern α} {input : List α}
    (hfirst : readings first input = []) :
    matchAt (.seq first second) input = none := by
  simp [matchAt, readings, hfirst]

theorem matchAt_group (index : Nat) (body : Pattern α) (input : List α) :
    matchAt (.group index body) input = (matchAt body input).map (Match.close index) := by
  simp [matchAt, readings]

theorem matchAt_alt (first second : Pattern α) (input : List α) :
    matchAt (.alt first second) input =
      (matchAt first input).or (matchAt second input) := by
  simp [matchAt, readings, List.head?_append]

theorem matchAt_some_seq {accepts : α → Bool} {next : Pattern α} {run rest : List α}
    (hne : run ≠ []) (hrun : ∀ c ∈ run, accepts c = true)
    (hrest : EndsRun accepts rest)
    (hnext : ∀ c left, accepts c = true → readings next (c :: left) = []) :
    matchAt (.seq (.some accepts) next) (run ++ rest) =
      (matchAt next rest).map (Match.after ⟨run, rest, []⟩) := by
  rw [matchAt, readings, flatMap_some hne hrun hrest]
  · rw [List.head?_map, ← matchAt]
  · intro m c left hc hleft
    rw [hleft, hnext c left hc, List.map_nil]

/-- `(p+)k` with a continuation that cannot begin inside the run. -/
theorem matchAt_group_some_seq {accepts : α → Bool} {index : Nat} {next : Pattern α}
    {run rest : List α} (hne : run ≠ []) (hrun : ∀ c ∈ run, accepts c = true)
    (hrest : EndsRun accepts rest)
    (hnext : ∀ c left, accepts c = true → readings next (c :: left) = []) :
    matchAt (.seq (.group index (.some accepts)) next) (run ++ rest) =
      (matchAt next rest).map (Match.after ⟨run, rest, [(index, run)]⟩) := by
  rw [matchAt, readings]
  simp only [readings, List.flatMap_map]
  rw [flatMap_some hne hrun hrest]
  · rw [List.head?_map, ← matchAt]
    rfl
  · intro m c left hc hleft
    rw [Match.close_rest, hleft, hnext c left hc, List.map_nil]

section Words

variable [BEq α] [LawfulBEq α]

@[simp]
theorem readings_word_append (text rest : List α) :
    readings (.word text) (text ++ rest) = [⟨text, rest, []⟩] := by
  induction text with
  | nil => rfl
  | cons c text ih =>
      rw [Pattern.word, List.cons_append, readings]
      simp [readings_one_cons, ih, Match.after]

theorem readings_word_eq_nil_iff {text input : List α} :
    readings (.word text) input = [] ↔ ¬ text <+: input := by
  rw [List.eq_nil_iff_forall_not_mem]
  constructor
  · rintro hnone ⟨rest, rfl⟩
    exact hnone ⟨text, rest, []⟩ (mem_readings_word.mpr ⟨rest, rfl, rfl⟩)
  · intro hstarts m hm
    obtain ⟨rest, rfl, -⟩ := mem_readings_word.mp hm
    exact hstarts ⟨rest, rfl⟩

theorem matchAt_word_append (text rest : List α) :
    matchAt (.word text) (text ++ rest) = some ⟨text, rest, []⟩ := by
  rw [matchAt, readings_word_append]
  rfl

theorem matchAt_word_seq (text rest : List α) (next : Pattern α) :
    matchAt (.seq (.word text) next) (text ++ rest) =
      (matchAt next rest).map (Match.after ⟨text, rest, []⟩) :=
  matchAt_seq_of_single (readings_word_append text rest)

/-- A pattern that begins with a word does not match where the word does not
stand. -/
theorem matchAt_word_seq_none {text input : List α} (next : Pattern α)
    (hstarts : ¬ text <+: input) : matchAt (.seq (.word text) next) input = none :=
  matchAt_seq_none (readings_word_eq_nil_iff.mpr hstarts)

theorem readings_word_seq_none {text input : List α} (next : Pattern α)
    (hstarts : ¬ text <+: input) : readings (.seq (.word text) next) input = [] := by
  rw [readings, readings_word_eq_nil_iff.mpr hstarts]
  rfl

/-- A pattern that begins with a character cannot match at another one. -/
theorem matchAt_cons_ne {first c : α} {text rest : List α} (next : Pattern α)
    (hne : c ≠ first) :
    matchAt (.seq (.word (first :: text)) next) (c :: rest) = none := by
  apply matchAt_word_seq_none next
  rintro ⟨left, heq⟩
  rw [List.cons_append, List.cons.injEq] at heq
  exact hne heq.1.symm

/-- No match begins in a stretch without the first character of the pattern. -/
theorem Clear.of_not_mem {first : α} {text stretch : List α} (next : Pattern α)
    (hfirst : first ∉ stretch) (following : List α) :
    Clear (.seq (.word (first :: text)) next) stretch following := by
  intro before after hstretch hne
  cases after with
  | nil => exact absurd rfl hne
  | cons c after =>
      refine matchAt_cons_ne next fun heq => hfirst ?_
      rw [hstretch, heq]
      exact List.mem_append_right _ (.head _)

/-! ## A lazy repetition in front of a word -/

/-- In a text with the word behind it, the word stands at the end only. -/
def EndsFirst (text before : List α) : Prop :=
  ∀ earlier later, before ++ text = earlier ++ (text ++ later) → later = []

omit [BEq α] [LawfulBEq α] in
theorem endsFirst_of_not_mem {c : α} {before : List α} (hc : c ∉ before) :
    EndsFirst [c] before := by
  intro earlier later heq
  induction before generalizing earlier with
  | nil =>
      have hlength := congrArg List.length heq
      simp only [List.length_append, List.length_cons, List.length_nil] at hlength
      exact List.eq_nil_of_length_eq_zero (by omega)
  | cons d before ih =>
      cases earlier with
      | nil =>
          rw [List.cons_append, List.nil_append, List.cons_append, List.cons.injEq] at heq
          exact absurd (heq.1 ▸ .head _) hc
      | cons d' earlier =>
          rw [List.cons_append, List.cons_append, List.cons.injEq] at heq
          exact ih (fun hmem => hc (.tail _ hmem)) earlier heq.2

/-- The lazy repetition stops at the first place where the word stands. -/
theorem matchAt_few_word {accepts : α → Bool} {text before : List α} (rest : List α)
    (hbefore : ∀ c ∈ before, accepts c = true) (hfirst : EndsFirst text before) :
    matchAt (.seq (.few accepts) (.word text)) (before ++ (text ++ rest)) =
      .some ⟨before ++ text, rest, []⟩ := by
  induction before with
  | nil =>
      rw [List.nil_append, matchAt_few_seq, matchAt_word_append]
      rfl
  | cons c before ih =>
      have hnone : matchAt (.word text) (c :: (before ++ (text ++ rest))) = none := by
        rw [matchAt, readings_word_eq_nil_iff.mpr]
        · rfl
        · intro hstarts
          have hlonger : c :: before ++ text <+: c :: (before ++ (text ++ rest)) :=
            ⟨rest, by simp⟩
          have hle : text.length ≤ (c :: before ++ text).length := by
            rw [List.length_append]
            omega
          obtain ⟨later, hlater⟩ := List.prefix_of_prefix_length_le hstarts hlonger hle
          have hlast := hfirst [] later hlater.symm
          rw [hlast, List.append_nil] at hlater
          have hlength := congrArg List.length hlater
          rw [List.length_append, List.length_cons] at hlength
          omega
      have hrest := ih (fun d hd => hbefore d (.tail _ hd)) (fun earlier later heq =>
        hfirst (c :: earlier) later (congrArg (c :: ·) heq))
      rw [List.cons_append, matchAt_few_seq, hnone]
      simp only
      rw [if_pos (hbefore c (.head _)), hrest]
      rfl

theorem matchAt_group_few_one {accepts : α → Bool} {index : Nat} {before : List α} {c : α}
    (rest : List α) (hbefore : ∀ d ∈ before, accepts d = true) (hc : c ∉ before) :
    matchAt (.seq (.group index (.few accepts)) (.word [c])) (before ++ c :: rest) =
      .some ⟨before ++ [c], rest, [(index, before)]⟩ := by
  have hword : readings (.word [c]) (c :: rest) = [⟨[c], rest, []⟩] :=
    readings_word_append [c] rest
  have hnone : ∀ earlier later, before = earlier ++ later → later ≠ [] →
      (readings (.word [c]) (later ++ c :: rest)).map
        (Match.after ⟨earlier, later ++ c :: rest, [(index, earlier)]⟩) = [] := by
    intro earlier later heq hne
    obtain ⟨d, later, rfl⟩ := List.exists_cons_of_ne_nil hne
    rw [readings_word_eq_nil_iff.mpr, List.map_nil]
    rintro ⟨left, hleft⟩
    rw [List.cons_append, List.cons_append, List.cons.injEq] at hleft
    refine hc ?_
    rw [heq, hleft.1]
    exact List.mem_append_right _ (.head _)
  have hfew := head?_flatMap_few hbefore
    (fun m => (readings (.word [c]) m.rest).map (m.close index).after) hnone
    (by rw [hword]; exact List.cons_ne_nil _ _)
  rw [hword] at hfew
  rw [matchAt, readings, readings, List.flatMap_map]
  exact hfew

/-- What the lazy repetition takes ends with the first occurrence of the word. -/
theorem exists_of_matchAt_few_word {accepts : α → Bool} {text input : List α} {m : Match α}
    (hm : matchAt (.seq (.few accepts) (.word text)) input = .some m) :
    ∃ before rest, input = before ++ (text ++ rest) ∧ (∀ c ∈ before, accepts c = true) ∧
      EndsFirst text before ∧ m = ⟨before ++ text, rest, []⟩ := by
  have hhere : ∀ {input : List α} {m : Match α}, matchAt (.word text) input = .some m →
      ∃ before rest, input = before ++ (text ++ rest) ∧ (∀ c ∈ before, accepts c = true) ∧
        EndsFirst text before ∧ m = ⟨before ++ text, rest, []⟩ := by
    intro input m hword
    obtain ⟨rest, rfl, rfl⟩ := mem_readings_word.mp (mem_of_matchAt hword)
    refine ⟨[], rest, rfl, by simp, fun earlier later heq => ?_, rfl⟩
    have hlength := congrArg List.length heq
    simp only [List.nil_append, List.length_append] at hlength
    exact List.eq_nil_of_length_eq_zero (by omega)
  induction input generalizing m with
  | nil =>
      rw [matchAt_few_seq] at hm
      cases hword : matchAt (.word text) ([] : List α) with
      | none =>
          rw [hword] at hm
          cases hm
      | some m' =>
          rw [hword] at hm
          cases hm
          exact hhere hword
  | cons c rest ih =>
      rw [matchAt_few_seq] at hm
      cases hword : matchAt (.word text) (c :: rest) with
      | some m' =>
          rw [hword] at hm
          cases hm
          exact hhere hword
      | none =>
          rw [hword] at hm
          simp only at hm
          split at hm
          · rename_i haccepts
            obtain ⟨m', hm', rfl⟩ := Option.map_eq_some_iff.mp hm
            obtain ⟨before, left, rfl, hbefore, hfirst, rfl⟩ := ih hm'
            refine ⟨c :: before, left, rfl, ?_, fun earlier later heq => ?_, rfl⟩
            · rintro d (_ | ⟨_, hd⟩)
              · exact haccepts
              · exact hbefore d hd
            · cases earlier with
              | nil =>
                  have hstarts : text <+: c :: (before ++ (text ++ left)) := by
                    refine ⟨later ++ left, ?_⟩
                    rw [List.nil_append] at heq
                    rw [← List.append_assoc, ← heq]
                    simp
                  have hnone := matchAt_eq_none_iff.mp hword
                  obtain ⟨after, hafter⟩ := hstarts
                  exact absurd (mem_readings_word.mpr ⟨after, hafter.symm, rfl⟩) (hnone _)
              | cons d earlier =>
                  rw [List.cons_append, List.cons_append, List.cons.injEq] at heq
                  exact hfirst earlier later heq.2
          · cases hm

end Words

end FaultInjection.Regex
