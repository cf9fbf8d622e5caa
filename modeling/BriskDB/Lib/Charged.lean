import BriskDB.Lib.Result

/-! # Postconditions of charged computations

A charged computation threads a budget and may stop with an error. `Ensures` is its
partial correctness: whatever the budget, a result satisfies the predicate. `Within` is
total correctness up to the limits: whatever the budget, the computation also stops with
nothing but a limit. One rule for each way to build such a computation.
-/

namespace Charged

open List

universe u

variable {σ ε α β : Type u}

theorem run_bind_eq_ok {computation : StateT σ (Except ε) α} {rest : α → StateT σ (Except ε) β}
    {state next : σ} {result : β} :
    (computation >>= rest) state = .ok (result, next) ↔
      ∃ value middle, computation state = .ok (value, middle) ∧
        rest value middle = .ok (result, next) := by
  change (computation state >>= fun pair => rest pair.1 pair.2) = _ ↔ _
  rw [Result.bind_eq_ok, Prod.exists]

/-- Every result of the computation satisfies the predicate. -/
def Ensures (computation : StateT σ (Except ε) α) (P : α → Prop) : Prop :=
  ∀ state result next, computation state = .ok (result, next) → P result

variable {computation : StateT σ (Except ε) α} {P Q : α → Prop} {R : β → Prop}

namespace Ensures

theorem pure {value : α} (h : P value) : Ensures (.pure value : StateT σ (Except ε) α) P := by
  intro state result next hrun
  cases hrun
  exact h

theorem throw {error : ε} : Ensures (MonadExcept.throw error : StateT σ (Except ε) α) P := by
  intro state result next hrun
  cases hrun

variable {rest : α → StateT σ (Except ε) β}

theorem bind (h : Ensures computation Q)
    (hrest : ∀ value, Q value → Ensures (rest value) R) : Ensures (computation >>= rest) R := by
  intro state result next hrun
  obtain ⟨value, middle, hfirst, hrun⟩ := run_bind_eq_ok.mp hrun
  exact hrest value (h state value middle hfirst) middle result next hrun

theorem after (hrest : ∀ value, Ensures (rest value) R) : Ensures (computation >>= rest) R :=
  bind (Q := fun _ => True) (fun _ _ _ _ => trivial) fun value _ => hrest value

/-- What follows a computation without a result has no result. -/
theorem stops (h : Ensures computation fun _ => False) : Ensures (computation >>= rest) R :=
  bind h fun _ hfalse => hfalse.elim

theorem mono (h : Ensures computation P) (himp : ∀ value, P value → Q value) :
    Ensures computation Q :=
  fun state result next hrun => himp result (h state result next hrun)

theorem ite {check : Prop} [Decidable check] {other : StateT σ (Except ε) α}
    (h : check → Ensures computation P) (hother : ¬ check → Ensures other P) :
    Ensures (if check then computation else other) P := by
  grind

theorem lift {result : Except ε α} (h : ∀ value, result = .ok value → P value) :
    Ensures (liftM result : StateT σ (Except ε) α) P := by
  intro state value next hrun
  cases result with
  | error error => cases hrun
  | ok found =>
    cases hrun
    exact h _ rfl

end Ensures

/-- The computation stops at a limit or has a result that satisfies the predicate. -/
def Within (limited : ε → Prop) (computation : StateT σ (Except ε) α) (P : α → Prop) : Prop :=
  ∀ state,
    match computation state with
    | .ok (result, _) => P result
    | .error error => limited error

namespace Within

variable {limited : ε → Prop}

theorem pure {value : α} (h : P value) :
    Within limited (.pure value : StateT σ (Except ε) α) P := fun _ => h

theorem throw {error : ε} (h : limited error) :
    Within limited (MonadExcept.throw error : StateT σ (Except ε) α) P := fun _ => h

theorem bind {rest : α → StateT σ (Except ε) β} (h : Within limited computation Q)
    (hrest : ∀ value, Q value → Within limited (rest value) R) :
    Within limited (computation >>= rest) R := by
  intro state
  have hstate := h state
  change match (computation state >>= fun pair => rest pair.1 pair.2) with
    | .ok (result, _) => R result
    | .error error => limited error
  cases hfirst : computation state with
  | error error =>
    rw [hfirst] at hstate
    exact hstate
  | ok pair =>
    rw [hfirst] at hstate
    exact hrest pair.1 hstate pair.2

theorem ensures (h : Within limited computation P) : Ensures computation P := by
  intro state result next hrun
  have hstate := h state
  rwa [hrun] at hstate

theorem mono (h : Within limited computation P) (hmono : ∀ value, P value → Q value) :
    Within limited computation Q := by
  intro state
  have hstate := h state
  cases hrun : computation state with
  | error error => simpa only [hrun] using hstate
  | ok pair =>
    rw [hrun] at hstate
    exact hmono _ hstate

theorem ite {check : Prop} [Decidable check] {other : StateT σ (Except ε) α}
    (h : check → Within limited computation P) (hother : ¬ check → Within limited other P) :
    Within limited (if check then computation else other) P := by
  grind

theorem mapM {f : α → StateT σ (Except ε) β} {g : α → β} {items : List α}
    (h : ∀ item ∈ items, Within limited (f item) (· = g item)) :
    Within limited (items.mapM f) (· = items.map g) := by
  induction items with
  | nil => exact pure rfl
  | cons item items ih =>
    rw [mapM_cons]
    refine bind (h item mem_cons_self) fun image himage => ?_
    refine bind (ih (forall_mem_cons.mp h).2) fun images h => ?_
    exact pure (by rw [himage, h, map_cons])

/-- A loop that only adds to its output, within an invariant. -/
theorem foldlM_append {f : List β → α → StateT σ (Except ε) (List β)} {g : α → List β}
    {items : List α} {I : List β → Prop} {output : List β}
    (h : ∀ output, I output → ∀ item ∈ items,
      Within limited (f output item) fun result => result = output ++ g item ∧ I result)
    (hstart : I output) : Within limited (items.foldlM f output) fun result =>
      result = output ++ items.flatMap g ∧ I result := by
  induction items generalizing output with
  | nil => exact pure ⟨by simp, hstart⟩
  | cons item items ih =>
    rw [foldlM_cons]
    refine bind (h output hstart item mem_cons_self) fun grown hgrown => ?_
    grind

section Tests

variable {σ ε : Type} {limited : ε → Prop} {test other : StateT σ (Except ε) Bool}
  {holds otherHolds : Bool}

theorem andThen (h : Within limited test (· = holds))
    (hother : Within limited other (· = otherHolds)) :
    Within limited (do if ← test then other else return false) (· = (holds && otherHolds)) := by
  refine bind h fun result hresult => ?_
  subst hresult
  cases result with
  | true => exact hother
  | false => exact pure rfl

theorem orElse (h : Within limited test (· = holds))
    (hother : Within limited other (· = otherHolds)) :
    Within limited (do if ← test then return true else other) (· = (holds || otherHolds)) := by
  refine bind h fun result hresult => ?_
  subst hresult
  cases result with
  | true => exact pure rfl
  | false => exact hother

variable {α : Type} {tests : α → StateT σ (Except ε) Bool} {succeeds : α → Bool} {items : List α}

theorem anyM (h : ∀ item ∈ items, Within limited (tests item) (· = succeeds item)) :
    Within limited (items.anyM tests) (· = items.any succeeds) := by
  induction items with
  | nil => exact pure rfl
  | cons item items ih =>
    refine bind (h item mem_cons_self) fun result hresult => ?_
    have hrest := ih (forall_mem_cons.mp h).2
    rw [any_cons, ← hresult]
    cases result with
    | true => exact pure rfl
    | false => exact hrest

theorem allM (h : ∀ item ∈ items, Within limited (tests item) (· = succeeds item)) :
    Within limited (items.allM tests) (· = items.all succeeds) := by
  induction items with
  | nil => exact pure rfl
  | cons item items ih =>
    refine bind (h item mem_cons_self) fun result hresult => ?_
    have hrest := ih (forall_mem_cons.mp h).2
    rw [all_cons, ← hresult]
    cases result with
    | true => exact hrest
    | false => exact pure rfl

end Tests

end Within

/-- Two computations that differ in what they are charged: their results are the same if
both have one. -/
def Agree (left right : StateT σ (Except ε) α) : Prop :=
  ∀ state state' result result' next next', left state = .ok (result, next) →
    right state' = .ok (result', next') → result = result'

namespace Agree

theorem pure (value : α) : Agree (.pure value : StateT σ (Except ε) α) (.pure value) := by
  intro state state' result result' next next' hleft hright
  cases hleft
  cases hright
  rfl

theorem throw (error : ε) :
    Agree (MonadExcept.throw error : StateT σ (Except ε) α) (MonadExcept.throw error) := by
  intro state state' result result' next next' hleft hright
  cases hleft

theorem lift (result : Except ε α) :
    Agree (liftM result : StateT σ (Except ε) α) (liftM result) := by
  cases result with
  | error error => exact throw error
  | ok value => exact pure value

theorem charge (left right : StateT σ (Except ε) PUnit) : Agree left right :=
  fun _ _ _ _ _ _ _ _ => rfl

theorem bind {left right : StateT σ (Except ε) α} {rest rest' : α → StateT σ (Except ε) β}
    (h : Agree left right) (hrest : ∀ value, Agree (rest value) (rest' value)) :
    Agree (left >>= rest) (right >>= rest') := by
  intro state state' result result' next next' hleft hright
  obtain ⟨value, middle, hvalue, hleft⟩ := run_bind_eq_ok.mp hleft
  obtain ⟨value', middle', hvalue', hright⟩ := run_bind_eq_ok.mp hright
  cases h _ _ _ _ _ _ hvalue hvalue'
  exact hrest value _ _ _ _ _ _ hleft hright

theorem ite {check : Prop} [Decidable check] {left right left' right' : StateT σ (Except ε) α}
    (h : Agree left right) (h' : Agree left' right') :
    Agree (if check then left else left') (if check then right else right') := by
  grind

end Agree

end Charged
