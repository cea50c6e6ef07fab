/-!
# Results of runs

Rules for computations that may end in an exception: a run that returns is taken
apart into the returns of its steps.
-/

namespace FaultInjection

variable {ε α β σ : Type}

theorem bind_eq_ok {run : Except ε α} {next : α → Except ε β} {result : β} :
    (run >>= next) = .ok result ↔ ∃ value, run = .ok value ∧ next value = .ok result := by
  cases run with
  | error exception =>
      constructor
      · intro impossible
        cases impossible
      · rintro ⟨value, impossible, -⟩
        cases impossible
  | ok value =>
      constructor
      · intro hnext
        exact ⟨value, rfl, hnext⟩
      · rintro ⟨value', hvalue, hnext⟩
        cases hvalue
        exact hnext

theorem isOk_iff {run : Except ε α} : run.isOk = true ↔ ∃ value, run = .ok value := by
  cases run with
  | error exception => simp [Except.isOk, Except.toBool]
  | ok value => simp [Except.isOk, Except.toBool]

theorem map_eq_ok {run : Except ε α} {f : α → β} {result : β} :
    run.map f = .ok result ↔ ∃ value, run = .ok value ∧ f value = result := by
  cases run with
  | error exception => simp [Except.map]
  | ok value => simp [Except.map]

theorem ok_bind {value : α} {next : α → Except ε β} :
    (Except.ok value >>= next) = next value := rfl

theorem map_bind {γ : Type} {run : Except ε α} {f : α → β} {next : β → Except ε γ} :
    (run.map f >>= next) = run >>= fun value => next (f value) := by
  cases run <;> rfl

theorem foldlM_cons_eq_ok {step : σ → α → Except ε σ} {x : α} {rest : List α}
    {first last : σ} :
    (x :: rest).foldlM step first = .ok last ↔
      ∃ next, step first x = .ok next ∧ rest.foldlM step next = .ok last := by
  rw [List.foldlM_cons]
  exact bind_eq_ok

theorem foldlM_nil_eq_ok {step : σ → α → Except ε σ} {first last : σ} :
    ([] : List α).foldlM step first = .ok last ↔ last = first := by
  rw [List.foldlM_nil]
  constructor
  · intro h
    cases h
    rfl
  · rintro rfl
    rfl

theorem foldlM_append_eq_ok {step : σ → α → Except ε σ} {xs ys : List α}
    {first last : σ} :
    (xs ++ ys).foldlM step first = .ok last ↔
      ∃ middle, xs.foldlM step first = .ok middle ∧ ys.foldlM step middle = .ok last := by
  rw [List.foldlM_append]
  exact bind_eq_ok

/--
Invariant rule for loops: what holds at the start and is kept by every
iteration, knowing which items are done, holds at the end.
-/
theorem foldlM_induction {step : σ → α → Except ε σ} {items : List α}
    {first last : σ} (motive : List α → σ → Prop)
    (hrun : items.foldlM step first = .ok last) (init : motive [] first)
    (next : ∀ done item rest state state', items = done ++ item :: rest →
      motive done state → step state item = .ok state' →
      motive (done ++ [item]) state') : motive items last := by
  have hloop : ∀ rest done state, items = done ++ rest → motive done state →
      rest.foldlM step state = .ok last → motive items last := by
    intro rest
    induction rest with
    | nil =>
        intro done state hitems hmotive hrest
        rw [foldlM_nil_eq_ok] at hrest
        rw [hitems, List.append_nil, hrest]
        exact hmotive
    | cons item rest ih =>
        intro done state hitems hmotive hrest
        obtain ⟨state', hstep, hrest⟩ := foldlM_cons_eq_ok.mp hrest
        have hdone := next done item rest state state' hitems hmotive hstep
        exact ih (done ++ [item]) state' (by rw [hitems, List.append_assoc]; rfl)
          hdone hrest
  exact hloop items [] first rfl init hrun

/-- A loop returns when every iteration does from a state of the invariant. -/
theorem foldlM_returns {step : σ → α → Except ε σ} {items : List α} {first : σ}
    (invariant : σ → Prop) (init : invariant first)
    (next : ∀ item ∈ items, ∀ state, invariant state →
      ∃ state', step state item = .ok state' ∧ invariant state') :
    ∃ last, items.foldlM step first = .ok last ∧ invariant last := by
  induction items generalizing first with
  | nil => exact ⟨first, rfl, init⟩
  | cons item items ih =>
      obtain ⟨state, hstep, hstate⟩ := next item (.head _) first init
      obtain ⟨last, hlast, hinvariant⟩ :=
        ih hstate fun other hother => next other (.tail _ hother)
      exact ⟨last, foldlM_cons_eq_ok.mpr ⟨state, hstep, hlast⟩, hinvariant⟩

end FaultInjection
