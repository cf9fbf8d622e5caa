import BriskDB.Lib.Transition
import Mathlib

/-! # Coalesced durability barriers

Concurrent calls that ask for a sync share it: one of them leads and flushes without the mutex,
the others wait. A flush may acknowledge another call only when it started after that call had
its ticket. Every critical section of the barrier is one action and a flush is two, so a run is
any interleaving of the calls.
-/

namespace BriskDB.Isam.DurabilityBarrier

open Transition List Function

inductive RunError (ε : Type)
  | exhausted
  | flush (error : ε)

inductive Phase (ε : Type)
  | elected
  | flushing
  | flushed (result : Except ε Unit)

/-- A call that flushes for all tickets up to `through`. -/
structure Leader (ε : Type) where
  call : Nat
  through : Nat
  phase : Phase ε

/-- The guarded state. -/
structure FlushState (ε : Type) where
  requested : Nat := 0
  completed : Nat := 0
  flushing : Option (Leader ε) := none
  failed : Option ε := none

inductive Event (ε : Type)
  | registered (call : Nat)
  | started (call : Nat)
  | ended (call : Nat) (result : Except ε Unit)
  | returned (call : Nat) (result : Except (RunError ε) Unit)
  | reset

/-- The barrier with the tickets of the waiting calls and the events, the latest first. -/
structure System (ε : Type) where
  state : FlushState ε := {}
  waiting : Nat → Option Nat := fun _ => none
  log : List (Event ε) := []

inductive Action (ε : Type)
  | enter
  | wake (call : Nat)
  | start
  | finish (result : Except ε Unit)
  | settle
  | reset

namespace System

variable {ε : Type} (system : System ε)

def leave (call : Nat) (result : Except (RunError ε) Unit) : System ε :=
  { system with
    waiting := update system.waiting call none
    log := .returned call result :: system.log }

/-- The loop from its head to the point where it gives the mutex away. -/
def turn (call ticket : Nat) : System ε :=
  match system.state.failed with
  | some error => system.leave call (.error (.flush error))
  | none =>
    if system.state.completed ≥ ticket then system.leave call (.ok ())
    else if system.state.flushing.isSome then
      { system with waiting := update system.waiting call (some ticket) }
    else
      { system with
        state := { system.state with flushing := some ⟨call, system.state.requested, .elected⟩ }
        waiting := update system.waiting call none }

def register : System ε :=
  { system with
    state := { system.state with requested := system.state.requested + 1 }
    log := .registered system.log.length :: system.log }

/-- The flush of the leader goes on without the mutex. -/
def advance (leader : Leader ε) (phase : Phase ε) (event : Event ε) : System ε :=
  { system with
    state := { system.state with flushing := some { leader with phase } }
    log := event :: system.log }

def step : Action ε → Option (System ε)
  | .enter =>
    if system.state.requested + 1 = 2 ^ 64 then
      some (system.leave system.log.length (.error .exhausted))
    else some (system.register.turn system.log.length (system.state.requested + 1))
  | .wake call => (system.waiting call).map (system.turn call)
  | .start =>
    match system.state.flushing with
    | some ⟨call, through, .elected⟩ =>
      some (system.advance ⟨call, through, .elected⟩ .flushing (.started call))
    | _ => none
  | .finish result =>
    match system.state.flushing with
    | some ⟨call, through, .flushing⟩ =>
      some (system.advance ⟨call, through, .flushing⟩ (.flushed result) (.ended call result))
    | _ => none
  | .settle =>
    match system.state.flushing with
    | some ⟨call, through, .flushed (.ok ())⟩ =>
      let state := { system.state with flushing := none, completed := through }
      some ({ system with state }.leave call (.ok ()))
    | some ⟨call, _, .flushed (.error error)⟩ =>
      let state := { system.state with flushing := none, failed := some error }
      some ({ system with state }.leave call (.error (.flush error)))
    | _ => none
  | .reset =>
    if system.state.flushing.isSome then some system
    else some { system with state := {}, log := .reset :: system.log }

end System

variable {ε : Type}

/-- A flush that started after the call had its ticket has succeeded. -/
def Covered (log : List (Event ε)) (call : Nat) : Prop :=
  ∃ leader, [.ended leader (.ok ()), .started leader, .registered call] <+ log

/-- A failure was recorded, and the barrier was not reset since. -/
def Failed : List (Event ε) → Prop
  | [] | .reset :: _ => False
  | .returned _ (.error (.flush _)) :: _ => True
  | _ :: log => Failed log

/-- Nobody is acknowledged without cover, nor after a recorded failure. -/
def Honest (log : List (Event ε)) : Prop :=
  ∀ call before, (.returned call (.ok ()) :: before) <:+ log → Covered before call ∧ ¬ Failed before

def Leader.events (leader : Leader ε) : List (Event ε) :=
  match leader.phase with
  | .elected => []
  | .flushing => [.started leader.call]
  | .flushed result => [.ended leader.call result, .started leader.call]

/-- A waiting call relies on a flush that started after its registration and has its ticket. -/
structure Admitted (state : FlushState ε) (log : List (Event ε)) (call ticket : Nat) : Prop where
  pos : 0 < ticket
  registered : .registered call ∈ log
  covered : ticket ≤ state.completed → Covered log call
  follows : ∀ leader ∈ state.flushing, ticket ≤ leader.through →
    leader.events ++ [.registered call] <+ log

structure Leads (state : FlushState ε) (log : List (Event ε)) (leader : Leader ε) : Prop where
  unfailed : state.failed = none
  completed_le : state.completed ≤ leader.through
  through_le : leader.through ≤ state.requested
  follows : leader.events ++ [.registered leader.call] <+ log

structure Sound (system : System ε) : Prop where
  completed_le : system.state.completed ≤ system.state.requested
  waiting : ∀ call ticket, system.waiting call = some ticket →
    Admitted system.state system.log call ticket
  flushing : ∀ leader ∈ system.state.flushing, Leads system.state system.log leader
  honest : Honest system.log
  failed_iff : Failed system.log ↔ system.state.failed.isSome

variable {system next : System ε} {call ticket : Nat} {event : Event ε}

theorem Honest.cons {log : List (Event ε)} (h : Honest log)
    (hevent : ∀ call, event = .returned call (.ok ()) → Covered log call ∧ ¬ Failed log) :
    Honest (event :: log) := by
  intro call before hbefore
  obtain heq | hbefore := suffix_cons_iff.mp hbefore
  · grind
  · exact h call before hbefore

theorem Covered.cons {log : List (Event ε)} (h : Covered log call) :
    Covered (event :: log) call := by
  obtain ⟨leader, hleader⟩ := h
  exact ⟨leader, hleader.cons event⟩

theorem Sound.note {requested : Nat} {waiting : Nat → Option Nat} (h : Sound system)
    (hrequested : system.state.requested ≤ requested)
    (hwaiting : ∀ call ticket, waiting call = some ticket → system.waiting call = some ticket)
    (hevent : ∀ call, event = .returned call (.ok ()) →
      Covered system.log call ∧ ¬ Failed system.log)
    (hfailed : Failed (event :: system.log) ↔ system.state.failed.isSome) :
    Sound ⟨{ system.state with requested }, waiting, event :: system.log⟩ where
  completed_le := h.completed_le.trans hrequested
  waiting call ticket hcall := by
    obtain ⟨hpos, hregistered, hcovered, hfollows⟩ := h.waiting _ _ (hwaiting call ticket hcall)
    exact ⟨hpos, mem_cons_of_mem _ hregistered, fun hle => (hcovered hle).cons,
      fun leader hleader hle => (hfollows leader hleader hle).cons _⟩
  flushing leader hleader := by
    obtain ⟨hunfailed, hle, hthrough, hfollows⟩ := h.flushing leader hleader
    exact ⟨hunfailed, hle, hthrough.trans hrequested, hfollows.cons _⟩
  honest := h.honest.cons hevent
  failed_iff := hfailed

theorem waiting_update {waiting : Nat → Option Nat} {value : Option Nat} {other : Nat}
    (h : update waiting call value other = some ticket) :
    (other = call ∧ value = some ticket) ∨ waiting other = some ticket := by
  grind

theorem waiting_update_none {waiting : Nat → Option Nat} (other ticket : Nat)
    (h : update waiting call none other = some ticket) : waiting other = some ticket := by
  grind

theorem Sound.turn (h : Sound system) (hcall : Admitted system.state system.log call ticket) :
    Sound (system.turn call ticket) := by
  have hfailed := h.failed_iff
  unfold System.turn
  split
  next error herror =>
    exact h.note le_rfl waiting_update_none nofun
      (iff_of_true trivial (Option.isSome_of_mem herror))
  next hnone =>
    rw [hnone] at hfailed
    split
    next hle =>
      refine h.note le_rfl waiting_update_none ?_ h.failed_iff
      rintro _ ⟨⟩
      exact ⟨hcall.covered hle, nofun ∘ hfailed.mp⟩
    next hlt =>
      split
      next hsome =>
        refine ⟨h.completed_le, fun other ticket' hother => ?_, h.flushing, h.honest, h.failed_iff⟩
        obtain ⟨rfl, ⟨⟩⟩ | hother := waiting_update hother
        · exact hcall
        · exact h.waiting other ticket' hother
      next hsome =>
        refine ⟨h.completed_le, fun other ticket' hother => ?_, ?_, h.honest, h.failed_iff⟩
        · obtain ⟨hpos, hregistered, hcovered, -⟩ :=
            h.waiting other ticket' (waiting_update_none _ _ hother)
          refine ⟨hpos, hregistered, hcovered, ?_⟩
          rintro _ ⟨⟩ -
          exact singleton_sublist.mpr hregistered
        · rintro _ ⟨⟩
          exact ⟨hnone, h.completed_le, le_rfl, singleton_sublist.mpr hcall.registered⟩

theorem Sound.advance {leader : Leader ε} {phase : Phase ε} (h : Sound system)
    (hleader : leader ∈ system.state.flushing)
    (hevents : Leader.events { leader with phase } = event :: leader.events)
    (hevent : ∀ call, event ≠ .returned call (.ok ()))
    (hfailed : Failed (event :: system.log) ↔ Failed system.log) :
    Sound (system.advance leader phase event) := by
  have hnote := h.note le_rfl (fun _ _ => id) (fun call hcall => absurd hcall (hevent call))
    (hfailed.trans h.failed_iff)
  refine ⟨h.completed_le, fun call ticket hcall => ?_, ?_, hnote.honest, hnote.failed_iff⟩
  · obtain ⟨hpos, hregistered, hcovered, -⟩ := hnote.waiting call ticket hcall
    refine ⟨hpos, hregistered, hcovered, ?_⟩
    rintro _ ⟨⟩ hle
    rw [hevents]
    exact ((h.waiting call ticket hcall).follows leader hleader hle).cons_cons event
  · rintro _ ⟨⟩
    obtain ⟨hunfailed, hle, hthrough, hfollows⟩ := h.flushing leader hleader
    refine ⟨hunfailed, hle, hthrough, ?_⟩
    rw [hevents]
    exact hfollows.cons_cons event

/-- What has been completed and what has failed stays so, until the barrier is reset. -/
def Persists (system next : System ε) : Prop :=
  system.state.completed ≤ next.state.completed ∧
    ∀ error, system.state.failed = some error → next.state.failed = some error

theorem persists_of_eq (hcompleted : next.state.completed = system.state.completed)
    (hfailed : next.state.failed = system.state.failed) : Persists system next :=
  ⟨hcompleted.ge, fun _ h => hfailed.trans h⟩

theorem persists_turn : Persists system (system.turn call ticket) := by
  unfold System.turn
  split
  · exact persists_of_eq rfl rfl
  · split_ifs <;> exact persists_of_eq rfl rfl

theorem Sound.step {action : Action ε} (h : Sound system) (hstep : system.step action = some next) :
    Sound next ∧ (action ≠ .reset → Persists system next) := by
  cases action with
  | enter =>
    simp only [System.step] at hstep
    split at hstep <;> cases hstep
    next =>
      exact ⟨h.note le_rfl waiting_update_none nofun h.failed_iff, fun _ => persists_of_eq rfl rfl⟩
    next =>
      have hregister : Sound system.register :=
        h.note (Nat.le_succ _) (fun _ _ => id) nofun h.failed_iff
      refine ⟨hregister.turn ⟨Nat.succ_pos _, mem_cons_self, fun hle => ?_, ?_⟩,
        fun _ => @persists_turn _ system.register _ _⟩
      · exact absurd h.completed_le (Nat.lt_of_succ_le hle).not_ge
      · intro leader hleader hle
        exact absurd (h.flushing leader hleader).through_le (Nat.lt_of_succ_le hle).not_ge
  | wake call =>
    obtain ⟨ticket, hticket, rfl⟩ := Option.map_eq_some_iff.mp hstep
    exact ⟨h.turn (h.waiting call ticket hticket), fun _ => persists_turn⟩
  | start | finish =>
    simp only [System.step] at hstep
    split at hstep <;> cases hstep
    next hleader => exact ⟨h.advance hleader rfl nofun .rfl, fun _ => persists_of_eq rfl rfl⟩
  | settle =>
    simp only [System.step] at hstep
    split at hstep <;> cases hstep
    next call through hleader =>
      obtain ⟨hunfailed, hcompleted, hthrough, hfollows⟩ := h.flushing _ hleader
      refine ⟨⟨hthrough, fun other ticket hother => ?_, nofun, h.honest.cons ?_, h.failed_iff⟩,
        fun _ => ⟨hcompleted, fun _ => id⟩⟩
      · obtain ⟨hpos, hregistered, -, hcovers⟩ :=
          h.waiting other ticket (waiting_update_none _ _ hother)
        exact ⟨hpos, mem_cons_of_mem _ hregistered, fun hle =>
          .cons ⟨call, hcovers _ hleader hle⟩, nofun⟩
      · rintro _ ⟨⟩
        refine ⟨⟨call, hfollows⟩, ?_⟩
        rw [h.failed_iff, hunfailed]
        exact nofun
    next error hleader =>
      have hunfailed := (h.flushing _ hleader).unfailed
      refine ⟨⟨h.completed_le, fun other ticket hother => ?_, nofun, h.honest.cons nofun,
        iff_of_true trivial rfl⟩, fun _ => ⟨le_rfl, by simp [hunfailed]⟩⟩
      obtain ⟨hpos, hregistered, hcovered, -⟩ :=
        h.waiting other ticket (waiting_update_none _ _ hother)
      exact ⟨hpos, mem_cons_of_mem _ hregistered, fun hle => (hcovered hle).cons, nofun⟩
  | reset =>
    simp only [System.step] at hstep
    split at hstep <;> cases hstep
    next => exact ⟨h, fun _ => persists_of_eq rfl rfl⟩
    next =>
      refine ⟨⟨le_rfl, fun call ticket hcall => ?_, nofun, h.honest.cons nofun,
        iff_of_false id nofun⟩, fun hreset => absurd rfl hreset⟩
      obtain ⟨hpos, hregistered, -⟩ := h.waiting call ticket hcall
      exact ⟨hpos, mem_cons_of_mem _ hregistered, fun hle => absurd hle hpos.not_ge, nofun⟩

theorem sound_new : Sound ({} : System ε) where
  completed_le := le_rfl
  waiting _ _ h := by cases h
  flushing _ h := by cases h
  honest _ _ h := by simp at h
  failed_iff := iff_of_false id nofun

/-- With a recorded failure no flush runs or starts, and every call that waits or comes ends with
the error of the flush. -/
structure Refuses (system : System ε) (error : ε) : Prop where
  idle : system.state.flushing = none
  start_eq : system.step .start = none
  wake_eq : ∀ call, (system.waiting call).isSome →
    system.step (.wake call) = some (system.leave call (.error (.flush error)))
  enter_eq : system.step .enter = some
    (if system.state.requested + 1 = 2 ^ 64 then
      system.leave system.log.length (.error .exhausted)
    else system.register.leave system.log.length (.error (.flush error)))

theorem turn_failed {error : ε} (h : system.state.failed = some error) (call ticket : Nat) :
    system.turn call ticket = system.leave call (.error (.flush error)) := by
  simp [System.turn, h]

theorem Sound.refuses (h : Sound system) {error : ε} (hfailed : system.state.failed = some error) :
    Refuses system error := by
  have hidle : system.state.flushing = none := by
    refine Option.eq_none_iff_forall_ne_some.mpr fun leader hleader => ?_
    rw [(h.flushing leader hleader).unfailed] at hfailed
    cases hfailed
  refine ⟨hidle, by simp [System.step, hidle], fun call hcall => ?_, ?_⟩
  · obtain ⟨ticket, hticket⟩ := Option.isSome_iff_exists.mp hcall
    rw [System.step, hticket, Option.map_some, turn_failed hfailed]
  · rw [System.step, ← apply_ite some, @turn_failed _ system.register _ hfailed]

/-- Whatever the interleaving, a call is acknowledged only after a successful flush that started
when it had its ticket. -/
theorem acknowledges_covered {actions : List (Action ε)}
    (hrun : run System.step {} actions = some system) :
    Honest system.log ∧ system.state.completed ≤ system.state.requested ∧
      (Failed system.log ↔ system.state.failed.isSome) ∧
      (∀ error, system.state.failed = some error → Refuses system error) ∧
      ∀ more next, .reset ∉ more → run System.step system more = some next →
        Persists system next := by
  have hsound : Sound system := run_preserves (fun _ _ _ h hstep => (h.step hstep).1) sound_new hrun
  refine ⟨hsound.honest, hsound.completed_le, hsound.failed_iff, fun _ => hsound.refuses, ?_⟩
  intro more next hmore hnext
  clear hrun
  induction more generalizing system with
  | nil =>
    cases hnext
    exact persists_of_eq rfl rfl
  | cons action more ih =>
    obtain ⟨middle, hstep, hrest⟩ := run_cons_eq_some.mp hnext
    obtain ⟨hmiddle, hpersists⟩ := hsound.step hstep
    obtain ⟨haction, hmore⟩ := not_or.mp (mt mem_cons.mpr hmore)
    obtain ⟨hcompleted, hfailed⟩ := hpersists (Ne.symm haction)
    obtain ⟨hcompleted', hfailed'⟩ := ih hmiddle hmore hrest
    exact ⟨hcompleted.trans hcompleted', fun error h => hfailed' error (hfailed error h)⟩

/-- A call waits while the flush of another one fails, and a third one comes later. -/
theorem acknowledges_covered_failure : ∃ system : System Unit,
    run System.step {} [.enter, .start, .enter, .enter, .finish (.error ()), .settle, .wake 2,
      .enter] = some system ∧
    system.log = [.returned 7 (.error (.flush ())), .registered 7,
      .returned 2 (.error (.flush ())), .returned 0 (.error (.flush ())), .ended 0 (.error ()),
      .registered 3, .registered 2, .started 0, .registered 0] ∧
    Honest system.log ∧ Failed system.log ∧ Refuses system () ∧
    ∀ more next, .reset ∉ more → run System.step system more = some next →
      next.state.failed = some () := by
  have h := @acknowledges_covered Unit _ [.enter, .start, .enter, .enter, .finish (.error ()),
    .settle, .wake 2, .enter] rfl
  refine ⟨_, rfl, rfl, h.1, h.2.2.1.mpr rfl, h.2.2.2.1 () rfl, fun more next hmore hnext => ?_⟩
  exact (h.2.2.2.2 more next hmore hnext).2 () rfl

/-- A flush has failed, and before its leader has the mutex again a waiting call returns that an
earlier flush covers. -/
theorem acknowledged_beside_failure : ∃ system : System Unit,
    run System.step {} [.enter, .start, .enter, .finish (.ok ()), .settle, .enter, .start,
      .finish (.ok ()), .settle, .enter, .start, .finish (.error ()), .wake 2] = some system ∧
    system.log = [.returned 2 (.ok ()), .ended 9 (.error ()), .started 9, .registered 9,
      .returned 5 (.ok ()), .ended 5 (.ok ()), .started 5, .registered 5, .returned 0 (.ok ()),
      .ended 0 (.ok ()), .registered 2, .started 0, .registered 0] :=
  ⟨_, rfl, rfl⟩

end BriskDB.Isam.DurabilityBarrier
