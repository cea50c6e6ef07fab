import FaultInjection.Python.Result

/-!
# Runs of machines

A machine takes one input at a time and may fail.  A run lists its steps, each input
with the state that it met, and what holds along a run follows from what one step does.
-/

namespace FaultInjection

namespace Machine

variable {ε σ ι α : Type} {step : σ → ι → Except ε σ} {first last : σ}
  {steps : List (σ × ι)}

/-- The steps from one state to another. -/
inductive Run (step : σ → ι → Except ε σ) : σ → List (σ × ι) → σ → Prop where
  | done (state : σ) : Run step state [] state
  | next {state after last : σ} {input : ι} {steps : List (σ × ι)}
      (hstep : step state input = .ok after) (run : Run step after steps last) :
      Run step state ((state, input) :: steps) last

namespace Run

theorem exists_of_foldlM {inputs : List ι} (hrun : inputs.foldlM step first = .ok last) :
    ∃ steps, steps.map Prod.snd = inputs ∧ Run step first steps last := by
  induction inputs generalizing first with
  | nil =>
      cases hrun
      exact ⟨[], rfl, .done _⟩
  | cons input inputs ih =>
      rw [List.foldlM_cons] at hrun
      obtain ⟨after, hstep, hrun⟩ := bind_eq_ok.mp hrun
      obtain ⟨steps, hsteps, run⟩ := ih hrun
      exact ⟨(first, input) :: steps, congrArg (input :: ·) hsteps, .next hstep run⟩

/-- What a step keeps holds at the end of a run and wherever an input arrives. -/
theorem invariant (run : Run step first steps last) (motive : σ → Prop) (init : motive first)
    (keeps : ∀ state input after, (state, input) ∈ steps → motive state →
      step state input = .ok after → motive after) :
    motive last ∧ ∀ entry ∈ steps, motive entry.1 := by
  induction run with
  | done => exact ⟨init, fun _ hmem => by cases hmem⟩
  | @next state after last input steps hstep run ih =>
      obtain ⟨hlast, hsteps⟩ := ih (keeps state input after (.head _) init hstep)
        fun state' input' after' hmem => keeps state' input' after' (.tail _ hmem)
      refine ⟨hlast, fun entry hentry => ?_⟩
      rcases List.mem_cons.mp hentry with rfl | hentry
      · exact init
      · exact hsteps entry hentry

/-- What a step keeps, together with what has happened before it. -/
theorem follows (run : Run step first steps last) (motive : List (σ × ι) → σ → Prop)
    (init : motive [] first)
    (keeps : ∀ done state input after, motive done state → step state input = .ok after →
      motive (done ++ [(state, input)]) after) : motive steps last := by
  have hrest : ∀ done, motive done first → motive (done ++ steps) last := by
    clear init
    induction run with
    | done =>
        intro done hdone
        rw [List.append_nil]
        exact hdone
    | @next state after last input steps hstep run ih =>
        intro done hdone
        rw [List.append_cons]
        exact ih (done ++ [(state, input)]) (keeps done state input after hdone hstep)
  exact hrest [] init

/--
Conservation: if in every step what is pending and what is accepted is what is delivered
and what is pending afterwards, in order, then so it is over the run.
-/
theorem conserves (run : Run step first steps last) (pending : σ → List α)
    (accepted delivered : σ × ι → List α)
    (law : ∀ state input after, (state, input) ∈ steps → step state input = .ok after →
      pending state ++ accepted (state, input) = delivered (state, input) ++ pending after) :
    pending first ++ steps.flatMap accepted = steps.flatMap delivered ++ pending last := by
  induction run with
  | done => rw [List.flatMap_nil, List.append_nil, List.flatMap_nil, List.nil_append]
  | @next state after last input steps hstep run ih =>
      have hrest := ih fun state' input' after' hmem => law state' input' after' (.tail _ hmem)
      rw [List.flatMap_cons, List.flatMap_cons, ← List.append_assoc,
        law state input after (.head _) hstep, List.append_assoc, hrest, List.append_assoc]

theorem append {middle : σ} {more : List (σ × ι)} (run : Run step first steps middle)
    (run' : Run step middle more last) : Run step first (steps ++ more) last := by
  induction run with
  | done => exact run'
  | next hstep _ ih => exact .next hstep (ih run')

theorem exists_cut {front back : List (σ × ι)} (run : Run step first (front ++ back) last) :
    ∃ middle, Run step first front middle ∧ Run step middle back last := by
  induction front generalizing first with
  | nil => exact ⟨first, .done first, run⟩
  | cons entry front ih =>
      cases run with
      | next hstep run =>
          obtain ⟨middle, hfront, hback⟩ := ih run
          exact ⟨middle, .next hstep hfront, hback⟩

end Run

end Machine

end FaultInjection
