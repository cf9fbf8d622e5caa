import Mathlib

/-! # Accounted computations

An accounted computation threads an account and may stop with an error. The account of a
failure is kept, so that a caller can recover from the failure and go on from what was
charged before it. `Yields` is the partial correctness of such a computation together with
its frame: a result satisfies the predicate, and the viewed part of the account is as it
was. One rule for each way to build such a computation.
-/

namespace Accounting

universe u

variable {σ ε α β : Type u}

abbrev Accounted (σ ε α : Type u) := ExceptT ε (StateM σ) α

variable (computation : Accounted σ ε α)

def outcome (account : σ) : Except ε α × σ :=
  (computation.run.run account).run

def ofRun (run : σ → Except ε (α × σ)) : Accounted σ ε α := ExceptT.mk fun account =>
  match run account with
  | .ok (value, next) => pure (.ok value, next)
  | .error error => pure (.error error, account)

def update (next : σ → Except ε σ) : Accounted σ ε PUnit :=
  ofRun fun account => (next account).map fun next => (⟨⟩, next)

theorem outcome_ofRun (run : σ → Except ε (α × σ)) (account : σ) :
    outcome (ofRun run) account =
      match run account with
      | .ok (value, next) => (.ok value, next)
      | .error error => (.error error, account) := by
  simp only [outcome, ofRun, ExceptT.run_mk, StateT.run]
  cases run account <;> rfl

/-- The outcome as a value, so that a failure can be recovered from. -/
def attempt : Accounted σ ε (Except ε α) :=
  ExceptT.lift computation.run

theorem outcome_attempt (account : σ) :
    outcome (attempt computation) account =
      (.ok (outcome computation account).1, (outcome computation account).2) :=
  rfl

theorem outcome_bind (rest : α → Accounted σ ε β) (account : σ) :
    outcome (computation >>= rest) account =
      match outcome computation account with
      | (.ok value, next) => outcome (rest value) next
      | (.error error, next) => (.error error, next) := by
  change (StateT.bind computation.run (fun result => ExceptT.bindCont rest result) account).run = _
  unfold StateT.bind outcome
  change (ExceptT.bindCont rest (computation.run.run account).1
    (computation.run.run account).2).run = _
  rcases computation.run.run account with ⟨result, next⟩
  cases result <;> rfl

theorem bind_eq_ok {computation : Accounted σ ε α} {rest : α → Accounted σ ε β}
    {account next : σ} {result : β} :
    outcome (computation >>= rest) account = (.ok result, next) ↔
      ∃ value middle, outcome computation account = (.ok value, middle) ∧
        outcome (rest value) middle = (.ok result, next) := by
  rw [outcome_bind]
  rcases outcome computation account with ⟨first, middle⟩
  cases first with
  | error error => exact ⟨nofun, fun ⟨_, _, h, _⟩ => (by cases h)⟩
  | ok value =>
    simp

/-- Every result satisfies the predicate, and the view of the account is as it was, also
after a failure. -/
def Yields {κ : Type u} (view : σ → κ) (computation : Accounted σ ε α) (P : α → Prop) : Prop :=
  ∀ account, view (outcome computation account).2 = view account ∧
    ∀ result, (outcome computation account).1 = .ok result → P result

namespace Yields

variable {κ : Type u} {view : σ → κ} {computation : Accounted σ ε α} {P Q : α → Prop}
  {R : β → Prop}

theorem pure {value : α} (h : P value) : Yields view (.pure value : Accounted σ ε α) P := by
  refine fun account => ⟨rfl, ?_⟩
  intro result hrun
  cases hrun
  exact h

variable {error : ε} {check : Prop} {other : Accounted σ ε α} {γ : Type u}

theorem throw : Yields view (MonadExcept.throw error : Accounted σ ε α) P := by
  refine fun account => ⟨rfl, ?_⟩
  intro result hrun
  cases hrun

theorem lift {result : Except ε α} (h : ∀ value, result = .ok value → P value) :
    Yields view (liftM result : Accounted σ ε α) P := by
  refine fun account => ⟨rfl, ?_⟩
  intro value hrun
  exact h value hrun

theorem ofRun {run : σ → Except ε (α × σ)}
    (h : ∀ account value next, run account = .ok (value, next) →
      view next = view account ∧ P value) : Yields view (Accounting.ofRun run) P := by
  intro account
  rw [outcome_ofRun]
  split
  next value next hrun =>
    grind
  · simp

theorem update {charge : σ → Except ε σ}
    (h : ∀ account next, charge account = .ok next → view next = view account) :
    Yields view (Accounting.update charge) fun _ => True := by
  refine ofRun fun account value next hrun => ⟨?_, trivial⟩
  cases hcharge : charge account with
  | error error =>
    rw [hcharge] at hrun
    cases hrun
  | ok charged =>
    rw [hcharge] at hrun
    cases hrun
    exact h account next hcharge

theorem mono (h : Yields view computation P) (himp : ∀ value, P value → Q value) :
    Yields view computation Q :=
  fun account => ⟨(h account).1, fun result hrun => himp result ((h account).2 result hrun)⟩

theorem bind {rest : α → Accounted σ ε β} (h : Yields view computation P)
    (hrest : ∀ value, P value → Yields view (rest value) R) :
    Yields view (computation >>= rest) R := by
  intro account
  obtain ⟨hview, hvalue⟩ := h account
  rw [outcome_bind]
  generalize outcome computation account = run at hview hvalue ⊢
  rcases run with ⟨first, middle⟩
  cases first with
  | error error =>
    simp [*]
  | ok value =>
    obtain ⟨hview', hresult⟩ := hrest value (hvalue value rfl) middle
    exact ⟨hview'.trans hview, hresult⟩

theorem ite [Decidable check]
    (h : check → Yields view computation P) (hother : ¬ check → Yields view other P) :
    Yields view (if check then computation else other) P := by
  grind

theorem guard [Decidable check] {rest : PUnit → Accounted σ ε α}
    (h : ¬ check → Yields view other P) :
    Yields view (if check then MonadExcept.throw error >>= rest else other) P :=
  ite (fun _ => (throw (P := fun _ => False)).bind fun _ hfalse => hfalse.elim) h

theorem foldlM {step : α → γ → Accounted σ ε α} {items : List γ} {start : α} (hstart : P start)
    (hstep : ∀ value, P value → ∀ item ∈ items, Yields view (step value item) P) :
    Yields view (items.foldlM step start) P := by
  induction items generalizing start with
  | nil => exact pure hstart
  | cons item items ih =>
    rw [List.foldlM_cons]
    grind [bind]

theorem mapM {S : γ → α → Prop} {step : γ → Accounted σ ε α} (items : List γ)
    (hstep : ∀ item, Yields view (step item) (S item)) :
    Yields view (items.mapM step) (List.Forall₂ S items) := by
  induction items with
  | nil => exact pure .nil
  | cons item items ih =>
    rw [List.mapM_cons]
    refine bind (hstep item) fun value hvalue => ?_
    exact bind ih fun values hvalues => pure (.cons hvalue hvalues)

theorem forM {step : γ → Accounted σ ε PUnit} (items : List γ)
    (hstep : ∀ item, Yields view (step item) fun _ => True) :
    Yields view (items.forM step) fun _ => True := by
  induction items with
  | nil => exact pure trivial
  | cons item items ih => exact (hstep item).bind fun _ _ => ih

end Yields

end Accounting
