import Mathlib

/-!
# Computations over hidden state

A program may carry state, such as a cache, that never shows in what it returns.
`Gives` says that a program returns one result from every coherent state and leaves
the state coherent; the rules compose such facts along the program.
-/

namespace Transparent

variable {σ ε α β : Type} {coherent : σ → Prop}

/-- From every coherent state the program has this result, and a successful run
ends in a coherent state. -/
def Gives (coherent : σ → Prop) (program : StateT σ (Except ε) α) : Except ε α → Prop
  | .ok a => ∀ s, coherent s → ∃ s', coherent s' ∧ program s = .ok (a, s')
  | .error e => ∀ s, coherent s → program s = .error e

theorem gives_pure (a : α) : Gives coherent (pure a : StateT σ (Except ε) α) (.ok a) :=
  fun s hs => ⟨s, hs, rfl⟩

theorem gives_lift (result : Except ε α) :
    Gives coherent (liftM result : StateT σ (Except ε) α) result := by
  cases result with
  | ok a => exact fun s hs => ⟨s, hs, rfl⟩
  | error e => exact fun _ _ => rfl

variable {program : StateT σ (Except ε) α} {next : α → StateT σ (Except ε) β}

theorem Gives.bind {a : α} {result : Except ε β} (hprogram : Gives coherent program (.ok a))
    (hnext : Gives coherent (next a) result) : Gives coherent (program >>= next) result := by
  cases result with
  | ok b =>
    intro s hs
    obtain ⟨s', hs', hrun⟩ := hprogram s hs
    obtain ⟨s'', hs'', hrun'⟩ := hnext s' hs'
    refine ⟨s'', hs'', ?_⟩
    rw [← hrun']
    exact congrArg (· >>= fun step : α × σ => next step.1 step.2) hrun
  | error e =>
    intro s hs
    obtain ⟨s', hs', hrun⟩ := hprogram s hs
    rw [← hnext s' hs']
    exact congrArg (· >>= fun step : α × σ => next step.1 step.2) hrun

theorem Gives.bind_error {e : ε} (hprogram : Gives coherent program (.error e)) :
    Gives coherent (program >>= next) (.error e) :=
  fun s hs => congrArg (· >>= fun step : α × σ => next step.1 step.2) (hprogram s hs)

theorem Gives.run'_eq {result : Except ε α}
    (h : Gives coherent program result) {s : σ} (hs : coherent s) : program.run' s = result := by
  cases result with
  | ok a =>
    obtain ⟨s', _, hrun⟩ := h s hs
    exact congrArg (Prod.fst <$> ·) hrun
  | error e => exact congrArg (Prod.fst <$> ·) (h s hs)

end Transparent
