import BriskDB.Core.Error
import BriskDB.Lib.Transition
import Mathlib

/-! # The schema gate

Ordinary operations are admitted while the application schema is ready. A migration closes the
gate, waits until the admitted operations have left and publishes its outcome; a migration that
is dropped before restores the state that is safe for what it has journaled. Every critical
section of the gate is one action, so a run is any interleaving of the threads.
-/

namespace BriskDB.Storage

open Transition List

inductive SchemaGateState
  | ready
  | migrating
  | pending
  | degraded
  deriving DecidableEq

structure GateData where
  state : SchemaGateState
  activeOperations : Nat
  deriving DecidableEq

structure SchemaMigrationGuard where
  restoreState : SchemaGateState
  finished : Bool
  deriving DecidableEq

namespace GateData

def new : GateData := ⟨.ready, 0⟩

def degradedError : EngineError := .new .dataCorruption "database integrity verification failed"

variable (data : GateData)

/-- Nothing when the count would drop below zero, where the source panics. -/
def releaseOperation : Option GateData :=
  if data.activeOperations = 0 then none
  else some { data with activeOperations := data.activeOperations - 1 }

def tryAcquireOperation : EngineResult GateData :=
  match data.state with
  | .ready =>
    if data.activeOperations + 1 = 2 ^ 64 then
      .error (.new .internal "application-schema operation count overflowed")
    else .ok { data with activeOperations := data.activeOperations + 1 }
  | .migrating => .error (.new .busy "an application-schema migration is in progress")
  | .pending =>
    .error (.new .failedPrecondition "a partial application-schema migration must be resumed")
  | .degraded => .error degradedError

def markDegraded : GateData := { data with state := .degraded }

def alreadyMigrating : EngineError :=
  .new .busy "an application-schema migration is already in progress"

def beginMigration : EngineResult (GateData × SchemaMigrationGuard) :=
  match data.state with
  | .ready => .ok ({ data with state := .migrating }, ⟨.ready, false⟩)
  | .pending => .ok ({ data with state := .migrating }, ⟨.pending, false⟩)
  | .migrating => .error alreadyMigrating
  | .degraded => .error degradedError

def beginNewMigration : EngineResult (GateData × SchemaMigrationGuard) :=
  match data.state with
  | .ready => .ok ({ data with state := .migrating }, ⟨.ready, false⟩)
  | .migrating => .error alreadyMigrating
  | .pending => .error (.new .failedPrecondition
      "pending schema state must be reconciled before new catalog registration")
  | .degraded => .error degradedError

def publish (guard : SchemaMigrationGuard) (target : SchemaGateState) :
    EngineResult (GateData × SchemaMigrationGuard) :=
  match data.state with
  | .migrating =>
    if data.activeOperations ≠ 0 then
      .error (.new .internal
        "application-schema migration was published before operations quiesced")
    else .ok ({ data with state := target }, { guard with finished := true })
  | .degraded => .error degradedError
  | .ready | .pending =>
    .error (.new .internal "application-schema migration guard lost exclusive ownership")

def dropMigration (guard : SchemaMigrationGuard) : GateData :=
  if guard.finished then data
  else if data.state = .migrating then { data with state := guard.restoreState }
  else data

end GateData

/-- The gate with all guards of it; a lease counts the clones of its operation guard. -/
structure SchemaGate where
  data : GateData
  leases : List Nat
  migrations : List SchemaMigrationGuard
  journal : Bool
  deriving DecidableEq

/-- A critical section. -/
inductive GateAction
  | acquire
  | cloneOperation (lease : Nat)
  | dropOperation (lease : Nat)
  | beginMigration (new : Bool)
  | markOnDrop (pending : Bool) (migration : Nat)
  | publish (pending : Bool) (migration : Nat)
  | dropMigration (migration : Nat)
  | markDegraded

namespace SchemaGate

def new : SchemaGate := ⟨.new, [], [], false⟩

def safeState (journal : Bool) : SchemaGateState := if journal then .pending else .ready

/-- Nothing for an action on a guard that is not there, and for a panic. -/
def perform (gate : SchemaGate) : GateAction → Option (SchemaGate × EngineResult Unit)
  | .acquire =>
    match gate.data.tryAcquireOperation with
    | .ok data => some ({ gate with data, leases := gate.leases ++ [1] }, .ok ())
    | .error error => some (gate, .error error)
  | .cloneOperation lease => do
    let guards ← gate.leases[lease]?
    return ({ gate with leases := gate.leases.set lease (guards + 1) }, .ok ())
  | .dropOperation lease => do
    let guards ← gate.leases[lease]?
    if guards = 1 then
      let data ← gate.data.releaseOperation
      return ({ gate with data, leases := gate.leases.eraseIdx lease }, .ok ())
    return ({ gate with leases := gate.leases.set lease (guards - 1) }, .ok ())
  | .beginMigration new =>
    match if new then gate.data.beginNewMigration else gate.data.beginMigration with
    | .ok (data, guard) =>
      some ({ gate with data, migrations := gate.migrations ++ [guard] }, .ok ())
    | .error error => some (gate, .error error)
  | .markOnDrop pending migration => do
    let guard ← gate.migrations[migration]?
    let guard := { guard with restoreState := safeState pending }
    let migrations := gate.migrations.set migration guard
    return ({ gate with migrations, journal := pending }, .ok ())
  | .publish pending migration => do
    let guard ← gate.migrations[migration]?
    match gate.data.publish guard (safeState pending) with
    | .ok (data, guard) =>
      let migrations := gate.migrations.eraseIdx migration
      some ({ gate with data := data.dropMigration guard, migrations, journal := pending }, .ok ())
    | .error error => some (gate, .error error)
  | .dropMigration migration => do
    let guard ← gate.migrations[migration]?
    let data := gate.data.dropMigration guard
    return ({ gate with data, migrations := gate.migrations.eraseIdx migration }, .ok ())
  | .markDegraded => some ({ gate with data := gate.data.markDegraded }, .ok ())

def step (gate : SchemaGate) (action : GateAction) : Option SchemaGate :=
  (gate.perform action).map Prod.fst

structure Orderly (gate : SchemaGate) : Prop where
  active : gate.data.activeOperations = gate.leases.length
  held : ∀ guards ∈ gate.leases, 0 < guards
  coordinated :
    gate.migrations = [] ∧
        (gate.data.state = safeState gate.journal ∨ gate.data.state = .degraded) ∨
      gate.migrations = [⟨safeState gate.journal, false⟩] ∧
        (gate.data.state = .migrating ∨ gate.data.state = .degraded)

theorem orderly_new : Orderly new := ⟨rfl, nofun, .inl ⟨rfl, .inl rfl⟩⟩

variable {gate next : SchemaGate} {result : EngineResult Unit} {index : Nat}
  {guard : SchemaMigrationGuard}

namespace Orderly

variable (h : Orderly gate)
include h

theorem eq_of_getElem? (hguard : gate.migrations[index]? = some guard) :
    index = 0 ∧ gate.migrations = [guard] ∧ guard = ⟨safeState gate.journal, false⟩ ∧
      (gate.data.state = .migrating ∨ gate.data.state = .degraded) := by
  rcases h.coordinated with ⟨hnone, -⟩ | ⟨honly, hclosed⟩
  · simp [hnone] at hguard
  · grind

theorem safe_of_open (hopen : gate.data.state = .ready ∨ gate.data.state = .pending) :
    gate.migrations = [] ∧ gate.data.state = safeState gate.journal := by
  rcases h.coordinated with ⟨hnone, hstate | hstate⟩ | ⟨-, hstate | hstate⟩
  · exact ⟨hnone, hstate⟩
  all_goals
    grind

theorem set_lease {lease guards : Nat} (hpos : 0 < guards) :
    Orderly { gate with leases := gate.leases.set lease guards } := by
  refine ⟨by simp [h.active], fun other hmem => ?_, h.coordinated⟩
  rcases mem_or_eq_of_mem_set hmem with hmem | rfl
  · exact h.held other hmem
  · exact hpos

theorem released {lease : Nat} (hlease : gate.leases[lease]? = some 1) :
    ∃ data, gate.data.releaseOperation = some data ∧
      Orderly { gate with data, leases := gate.leases.eraseIdx lease } := by
  obtain ⟨hlt, -⟩ := List.getElem?_eq_some_iff.mp hlease
  have hactive := h.active
  refine ⟨_, if_neg (by omega), ?_, ?_, h.coordinated⟩
  · simp only [List.length_eraseIdx_of_lt hlt, hactive]
  · exact fun guards hmem => h.held guards (mem_of_mem_eraseIdx hmem)

end Orderly

theorem tryAcquireOperation_spec {data next : GateData} (h : data.tryAcquireOperation = .ok next) :
    data.state = .ready ∧ next = { data with activeOperations := data.activeOperations + 1 } := by
  unfold GateData.tryAcquireOperation at h
  split at h
  next hready =>
    grind
  all_goals cases h

theorem begin_spec {data next : GateData} {new : Bool}
    (h : (if new then data.beginNewMigration else data.beginMigration) = .ok (next, guard)) :
    (data.state = .ready ∨ data.state = .pending) ∧
      next = { data with state := .migrating } ∧ guard = ⟨data.state, false⟩ := by
  unfold GateData.beginNewMigration GateData.beginMigration at h
  cases new <;> cases hstate : data.state <;> simp only [hstate] at h <;> cases h
  · exact ⟨.inl rfl, rfl, rfl⟩
  · exact ⟨.inr rfl, rfl, rfl⟩
  · exact ⟨.inl rfl, rfl, rfl⟩

theorem publish_spec {data next : GateData} {guard' : SchemaMigrationGuard}
    {target : SchemaGateState} (h : data.publish guard target = .ok (next, guard')) :
    data.state = .migrating ∧ data.activeOperations = 0 ∧ next = { data with state := target } ∧
      guard' = { guard with finished := true } := by
  unfold GateData.publish at h
  split at h
  next hmigrating =>
    grind
  all_goals cases h

theorem Orderly.perform (h : Orderly gate) {action : GateAction}
    (hperform : gate.perform action = some (next, result)) : Orderly next := by
  cases action with
  | acquire =>
    simp only [SchemaGate.perform] at hperform
    split at hperform <;> cases hperform
    next data hdata =>
      obtain ⟨-, rfl⟩ := tryAcquireOperation_spec hdata
      refine ⟨by simp [h.active], fun guards hmem => ?_, h.coordinated⟩
      rcases mem_append.mp hmem with hmem | hmem
      · exact h.held guards hmem
      · simp only [mem_singleton.mp hmem, Nat.one_pos]
    next => exact h
  | cloneOperation lease =>
    obtain ⟨guards, -, hperform⟩ := Option.bind_eq_some_iff.mp hperform
    cases hperform
    exact h.set_lease (Nat.succ_pos guards)
  | dropOperation lease =>
    obtain ⟨guards, hlease, hperform⟩ := Option.bind_eq_some_iff.mp hperform
    split at hperform
    next hone =>
      obtain ⟨data, hdata, horderly⟩ := h.released (hone ▸ hlease)
      grind
    next hmany =>
      cases hperform
      have hpos := h.held guards (mem_of_getElem? hlease)
      exact h.set_lease (by omega)
  | beginMigration new =>
    simp only [SchemaGate.perform] at hperform
    split at hperform <;> cases hperform
    next data guard hbegin =>
      obtain ⟨hopen, rfl, rfl⟩ := begin_spec hbegin
      obtain ⟨hnone, hsafe⟩ := h.safe_of_open hopen
      exact ⟨h.active, h.held, .inr ⟨by simp [*], .inl rfl⟩⟩
    next => exact h
  | markOnDrop pending migration =>
    obtain ⟨guard, hguard, hperform⟩ := Option.bind_eq_some_iff.mp hperform
    cases hperform
    obtain ⟨rfl, honly, rfl, hclosed⟩ := h.eq_of_getElem? hguard
    exact ⟨h.active, h.held, .inr ⟨by simp [*], hclosed⟩⟩
  | publish pending migration =>
    obtain ⟨guard, hguard, hperform⟩ := Option.bind_eq_some_iff.mp hperform
    obtain ⟨rfl, honly, rfl, -⟩ := h.eq_of_getElem? hguard
    split at hperform <;> cases hperform
    next data guard hpublish =>
      obtain ⟨-, -, rfl, rfl⟩ := publish_spec hpublish
      exact ⟨h.active, h.held, .inl ⟨by simp [*],
        .inl rfl⟩⟩
    next => exact h
  | dropMigration migration =>
    obtain ⟨guard, hguard, hperform⟩ := Option.bind_eq_some_iff.mp hperform
    cases hperform
    obtain ⟨rfl, honly, rfl, hclosed⟩ := h.eq_of_getElem? hguard
    rcases hclosed with hstate | hstate
    all_goals simp only [GateData.dropMigration, hstate, Bool.false_eq_true, if_false, if_true,
      reduceCtorEq, honly]
    · exact ⟨h.active, h.held, .inl ⟨rfl, .inl rfl⟩⟩
    · exact ⟨h.active, h.held, .inl ⟨rfl, .inr hstate⟩⟩
  | markDegraded =>
    cases hperform
    exact ⟨h.active, h.held, h.coordinated.imp (.imp_right fun _ => .inr rfl)
      (.imp_right fun _ => .inr rfl)⟩

theorem perform_degraded (h : gate.data.state = .degraded) {action : GateAction}
    (hperform : gate.perform action = some (next, result)) : next.data.state = .degraded := by
  cases action with
  | acquire =>
    simp only [perform, GateData.tryAcquireOperation, h] at hperform
    cases hperform
    exact h
  | dropOperation lease =>
    obtain ⟨guards, -, hperform⟩ := Option.bind_eq_some_iff.mp hperform
    split at hperform
    next =>
      obtain ⟨data, hdata, hperform⟩ := Option.bind_eq_some_iff.mp hperform
      grind [GateData.releaseOperation]
    next =>
      cases hperform
      exact h
  | beginMigration new =>
    simp only [perform, GateData.beginMigration, GateData.beginNewMigration, h,
      ite_self] at hperform
    cases hperform
    exact h
  | publish pending migration =>
    obtain ⟨guard, -, hperform⟩ := Option.bind_eq_some_iff.mp hperform
    grind [GateData.publish]
  | dropMigration migration =>
    obtain ⟨guard, -, hperform⟩ := Option.bind_eq_some_iff.mp hperform
    cases hperform
    simp [GateData.dropMigration, h]
  | cloneOperation lease | markOnDrop pending migration =>
    obtain ⟨_, -, hperform⟩ := Option.bind_eq_some_iff.mp hperform
    cases hperform
    exact h
  | markDegraded =>
    cases hperform
    rfl

theorem run_of_perform {P : SchemaGate → Prop} (h : P gate)
    (hperform : ∀ gate action next result, P gate →
      gate.perform action = some (next, result) → P next) {actions : List GateAction}
    (hrun : run step gate actions = some next) : P next := by
  apply run_preserves _ h hrun
  intro gate action next h hstep
  obtain ⟨⟨performed, result⟩, hperformed, rfl⟩ := Option.map_eq_some_iff.mp hstep
  exact hperform gate action performed result h hperformed

theorem gate_excludes {actions : List GateAction} (hrun : run step new actions = some gate) :
    gate.migrations.length ≤ 1 ∧
    (∀ next, gate.perform .acquire = some (next, .ok ()) →
      gate.data.state = .ready ∧ gate.journal = false) ∧
    (∀ pending migration next, gate.perform (.publish pending migration) = some (next, .ok ()) →
      gate.leases = []) ∧
    (gate.data.state = .degraded → ∀ later final,
      run step gate later = some final → final.data.state = .degraded) ∧
    (∀ migration next result, gate.perform (.dropMigration migration) = some (next, result) →
      next.data.state =
        if gate.data.state = .degraded then .degraded else safeState gate.journal) ∧
    ∀ lease guards, gate.leases[lease]? = some guards →
      ∃ next, gate.perform (.dropOperation lease) = some (next, .ok ()) := by
  have h : Orderly gate := run_of_perform orderly_new (fun _ _ _ _ h => h.perform) hrun
  refine ⟨?_, ?_, ?_, fun hdegraded later final => run_of_perform
    (P := fun gate => gate.data.state = .degraded) hdegraded fun _ _ _ _ h => perform_degraded h,
    ?_, ?_⟩
  · rcases h.coordinated with ⟨hnone, -⟩ | ⟨honly, -⟩
    · simp [hnone]
    · simp [honly]
  · intro next hacquire
    simp only [perform] at hacquire
    split at hacquire <;> cases hacquire
    obtain ⟨hready, -⟩ := tryAcquireOperation_spec ‹_›
    refine ⟨hready, ?_⟩
    have hsafe := (h.safe_of_open (.inl hready)).2
    rw [hready] at hsafe
    cases hjournal : gate.journal with
    | false => rfl
    | true =>
      rw [hjournal] at hsafe
      cases hsafe
  · intro pending migration next hpublish
    obtain ⟨guard, -, hpublish⟩ := Option.bind_eq_some_iff.mp hpublish
    split at hpublish <;> cases hpublish
    obtain ⟨-, hactive, -⟩ := publish_spec ‹_›
    exact length_eq_zero_iff.mp (h.active ▸ hactive)
  · intro migration next result hdrop
    obtain ⟨guard, hguard, hdrop⟩ := Option.bind_eq_some_iff.mp hdrop
    cases hdrop
    obtain ⟨-, -, rfl, hstate | hstate⟩ := h.eq_of_getElem? hguard
    · simp [GateData.dropMigration, hstate]
    · simp [GateData.dropMigration, hstate]
  · intro lease guards hlease
    simp only [perform, hlease, Option.bind_eq_bind, Option.bind_some]
    split
    next hone =>
      obtain ⟨data, hdata, -⟩ := h.released (hone ▸ hlease)
      exact ⟨_, by rw [hdata]; rfl⟩
    next => exact ⟨_, rfl⟩

/-- A migration that let an operation leave and was dropped after its journal was written. -/
theorem gate_excludes_pending :
    ∃ gate, run step new [.acquire, .beginMigration false, .dropOperation 0, .markOnDrop true 0,
      .dropMigration 0] = some gate ∧ gate.data.state = .pending ∧ gate.migrations.length ≤ 1 :=
  have hrun : run step new [.acquire, .beginMigration false, .dropOperation 0, .markOnDrop true 0,
    .dropMigration 0] = some ⟨⟨.pending, 0⟩, [], [], true⟩ := rfl
  ⟨_, hrun, rfl, (gate_excludes hrun).1⟩

end SchemaGate

end BriskDB.Storage
