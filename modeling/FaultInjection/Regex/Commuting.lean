import FaultInjection.Regex.Scan

/-!
# Substitutions that do not meddle with each other

Two patterns with a constant replacement each.  When the matches of one contain no
beginning of a match of the other, and neither replacement holds or completes one,
the substitutions may be made in either order, and each finds what it would have
found in the original word.
-/

namespace FaultInjection.Regex

variable {α : Type}

/-- What is matched is matched in the same way whatever follows it. -/
def Stable (pattern : Pattern α) : Prop :=
  ∀ {input : List α} {m : Match α}, matchAt pattern input = some m → ∀ rest,
    matchAt pattern (m.taken ++ rest) = some { m with rest := rest }

/-- The matches of the second pattern stay apart from those of the first one and from what is
put in their place. -/
structure Apart (first second : Pattern α) (piece : List α) : Prop where
  found : ∀ {input : List α} {m : Match α}, matchAt first input = some m →
    ∀ following, Clear second m.taken following
  clear : ∀ following, Clear second piece following
  border : ∀ {before following : List α} {m : Match α}, before ≠ [] →
    matchAt second (before ++ (piece ++ following)) = some m → m.taken.length ≤ before.length

variable {first second : Pattern α} {piece piece' : List α}

theorem Stable.of_prefix (hstable : Stable second) {before following following' : List α}
    {m : Match α} (hm : matchAt second (before ++ following) = some m)
    (hle : m.taken.length ≤ before.length) :
    matchAt second (before ++ following') =
      some { m with rest := before.drop m.taken.length ++ following' } := by
  have hcut := taken_append_rest (mem_of_matchAt hm)
  obtain ⟨later, rfl⟩ : m.taken <+: before :=
    List.prefix_of_prefix_length_le ⟨m.rest, hcut⟩ ⟨following, rfl⟩ hle
  rw [List.append_assoc, List.drop_left]
  exact hstable hm (later ++ following')

/-- Where neither pattern matches, none does after the substitution for one of them. -/
theorem Apart.matchAt_sub_eq_none (hproductive : Productive first) (hstable : Stable second)
    (apart : Apart first second piece) {c : α} {rest : List α}
    (hnone : matchAt second (c :: rest) = none) :
    matchAt second (c :: sub first (fun _ => piece) rest) = none := by
  rcases clear_or_first first rest with hclear | ⟨stretch, following, m, rfl, hclear, hm⟩
  · rwa [sub_of_clear hclear]
  · have hne := hproductive _ _ (mem_of_matchAt hm)
    rw [hclear.sub, sub_hit hm hne]
    cases hmatch : matchAt second (c :: (stretch ++
      (piece ++ sub first (fun _ => piece) m.rest))) with
    | none => rfl
    | some found =>
        rw [← List.cons_append] at hmatch
        have hle := apart.border (List.cons_ne_nil _ _) hmatch
        have hother : matchAt second (c :: stretch ++ following) = _ := hstable.of_prefix hmatch hle
        rw [List.cons_append, hnone] at hother
        cases hother

/-- Induction on the course of two scans of one word, the first pattern tried first. -/
theorem scan_induction₂ (hfirst : Productive first) (hsecond : Productive second)
    {motive : List α → Prop} (nil : motive [])
    (skip : ∀ c rest, matchAt first (c :: rest) = none → matchAt second (c :: rest) = none →
      motive rest → motive (c :: rest))
    (left : ∀ input m, matchAt first input = some m → motive m.rest → motive input)
    (right : ∀ input m, matchAt first input = none → matchAt second input = some m →
      motive m.rest → motive input) (input : List α) : motive input := by
  induction hlength : input.length using Nat.strongRecOn generalizing input with
  | ind length ih =>
      have hshorter : ∀ {pattern : Pattern α}, Productive pattern → ∀ {m},
          matchAt pattern input = some m → m.rest.length < length := by
        intro pattern hproductive m hm
        have hcut := congrArg List.length (taken_append_rest (mem_of_matchAt hm))
        have hpos := List.length_pos_of_ne_nil (hproductive _ _ (mem_of_matchAt hm))
        rw [List.length_append, hlength] at hcut
        omega
      cases hm : matchAt first input with
      | some m => exact left input m hm (ih _ (hshorter hfirst hm) m.rest rfl)
      | none =>
          cases hm' : matchAt second input with
          | some m => exact right input m hm hm' (ih _ (hshorter hsecond hm') m.rest rfl)
          | none =>
              cases input with
              | nil => exact nil
              | cons c rest =>
                  refine skip c rest hm hm' (ih rest.length ?_ rest rfl)
                  rw [← hlength]
                  exact Nat.lt_succ_self _

theorem sub_copies (hback : ∀ {input : List α} {m : Match α}, matchAt second input = some m →
      ∀ following, Clear first m.taken following) {input : List α} {m : Match α}
    (hm : matchAt second input = some m) :
    sub first (fun _ => piece) input = m.taken ++ sub first (fun _ => piece) m.rest := by
  rw [← (hback hm m.rest).sub, taken_append_rest (mem_of_matchAt hm)]

/-- A substitution leaves the matches of the other pattern as they were. -/
theorem findall_sub (hfirst : Productive first) (hsecond : Productive second)
    (hstable : Stable second) (apart : Apart first second piece)
    (hback : ∀ {input : List α} {m : Match α}, matchAt second input = some m →
      ∀ following, Clear first m.taken following) (input : List α) :
    (findall second (sub first (fun _ => piece) input)).map (fun m => (m.taken, m.groups)) =
      (findall second input).map fun m => (m.taken, m.groups) := by
  induction input using scan_induction₂ hfirst hsecond with
  | nil => rfl
  | skip c rest hm hm' ih =>
      rw [sub_skip hm, findall_skip (apart.matchAt_sub_eq_none hfirst hstable hm'),
        findall_skip hm', ih]
  | left input m hm ih =>
      have hne := hfirst _ _ (mem_of_matchAt hm)
      have hcut := taken_append_rest (mem_of_matchAt hm)
      rw [sub_hit hm hne, (apart.clear _).findall, ih, ← hcut, (apart.found hm m.rest).findall]
  | right input m hm hm' ih =>
      have hne := hsecond _ _ (mem_of_matchAt hm')
      have hagain := hstable hm' (sub first (fun _ => piece) m.rest)
      rw [sub_copies hback hm', findall_hit hagain hne, findall_hit hm' hne, List.map_cons,
        List.map_cons, ih]

theorem sub_comm (hfirst : Productive first) (hsecond : Productive second)
    (hstable : Stable first) (hstable' : Stable second) (apart : Apart first second piece)
    (apart' : Apart second first piece') (input : List α) :
    sub second (fun _ => piece') (sub first (fun _ => piece) input) =
      sub first (fun _ => piece) (sub second (fun _ => piece') input) := by
  induction input using scan_induction₂ hfirst hsecond with
  | nil => rfl
  | skip c rest hm hm' ih =>
      rw [sub_skip hm, sub_skip hm', sub_skip (apart.matchAt_sub_eq_none hfirst hstable' hm'),
        sub_skip (apart'.matchAt_sub_eq_none hsecond hstable hm), ih]
  | left input m hm ih =>
      have hne := hfirst _ _ (mem_of_matchAt hm)
      have hagain := hstable hm (sub second (fun _ => piece') m.rest)
      rw [sub_hit hm hne, (apart.clear _).sub, ih, sub_copies apart.found hm,
        sub_hit hagain hne]
  | right input m hm hm' ih =>
      have hne := hsecond _ _ (mem_of_matchAt hm')
      have hagain := hstable' hm' (sub first (fun _ => piece) m.rest)
      rw [sub_hit hm' hne, (apart'.clear _).sub, ← ih, sub_copies apart'.found hm',
        sub_hit hagain hne]

end FaultInjection.Regex
