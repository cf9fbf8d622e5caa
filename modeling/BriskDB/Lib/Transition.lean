/-! # Runs of a transition function

A system is a partial step function on its states. What every step preserves
holds after every run, and a run can be cut into a run of its first part and a run
of the rest.
-/

namespace Transition

universe u v

variable {σ : Type u} {α : Type v} {step : σ → α → Option σ}

/-- The state after a sequence of actions, when each of them was enabled. -/
def run (step : σ → α → Option σ) : σ → List α → Option σ
  | state, [] => some state
  | state, action :: actions => (step state action).bind fun next => run step next actions

variable {state result : σ} {actions : List α} {P : σ → Prop}

theorem run_cons_eq_some {action : α} :
    run step state (action :: actions) = some result ↔
      ∃ next, step state action = some next ∧ run step next actions = some result :=
  Option.bind_eq_some_iff

theorem run_append_eq_some {first rest : List α} :
    run step state (first ++ rest) = some result ↔
      ∃ middle, run step state first = some middle ∧ run step middle rest = some result := by
  induction first generalizing state with
  | nil => simp [run]
  | cons action first ih =>
    grind [run_cons_eq_some]

/-- What every enabled action preserves holds after every run. -/
theorem run_preserves
    (hstep : ∀ state action next, P state → step state action = some next → P next)
    (hstate : P state) (hrun : run step state actions = some result) : P result := by
  induction actions generalizing state with
  | nil =>
    cases hrun
    exact hstate
  | cons action actions ih =>
    obtain ⟨next, hnext, hrest⟩ := run_cons_eq_some.mp hrun
    exact ih (hstep state action next hstate hnext) hrest

/-- Every action of a run is taken in a state that allows it. -/
def Along (step : σ → α → Option σ) (allowed : σ → α → Prop) : σ → List α → Prop
  | _, [] => True
  | state, action :: actions =>
    allowed state action ∧ ∀ next, step state action = some next → Along step allowed next actions

/-- What every allowed action preserves holds after every run of allowed actions. -/
theorem run_preserves_along {allowed : σ → α → Prop}
    (hstep : ∀ state action next, P state → allowed state action →
      step state action = some next → P next) (hstate : P state)
    (halong : Along step allowed state actions) (hrun : run step state actions = some result) :
    P result := by
  induction actions generalizing state with
  | nil =>
    cases hrun
    exact hstate
  | cons action actions ih =>
    obtain ⟨next, hnext, hrest⟩ := run_cons_eq_some.mp hrun
    exact ih (hstep state action next hstate halong.1 hnext) (halong.2 next hnext) hrest

end Transition
