import BriskDB.Lib.Transition
import Mathlib

/-! # Pooled handles and their owners

A shard pool leases SQLite handles to the owners of sessions. A handle that another owner had
first is borrowed: SQL that writes or touches connection-local state must not run on it, so a text
is probed while it is prepared, and the handle is replaced when the authorizer reports such an
action. The first text of an explicit transaction is probed in the same way, before `BEGIN`.
-/

namespace BriskDB.Storage

open Transition List Function

abbrev ConnectionOwner := Nat

/-- What the authorizer reports of a text while it is prepared. -/
structure PreparedSql where
  taints : Bool
  writes : Bool
  prepares : Bool

def beginDeferred : PreparedSql := ⟨true, false, true⟩

variable (sql : PreparedSql)

def PreparedSql.Sensitive : Prop := sql.taints = true ∨ sql.writes = true

def foreignSqlRequiresFresh : Bool :=
  !sql.prepares || (sql.taints || sql.writes)

/-- A handle. -/
structure ManagedConnection where
  schemaGeneration : Nat
  writeOwner : Option ConnectionOwner
  originOwner : Option ConnectionOwner
  tainted : Bool
  wrote : Bool
  firstOwner : ConnectionOwner

variable (generation : Nat)

def openConnection (owner : ConnectionOwner) : ManagedConnection :=
  ⟨generation, none, none, false, false, owner⟩

def ManagedConnection.ran (connection : ManagedConnection) : ManagedConnection :=
  { connection with
    tainted := connection.tainted || sql.taints
    wrote := connection.wrote || sql.writes }

/-- What a lease is for: single statements, or a transaction that has begun or not, or failed. -/
inductive LeaseUse
  | autocommit
  | transaction
  | pinned
  | failed
  deriving DecidableEq

structure PooledConnection where
  owner : ConnectionOwner
  managed : Option ManagedConnection
  borrowedFromOtherOwner : Bool
  use : LeaseUse

structure Execution where
  owner : ConnectionOwner
  firstOwner : ConnectionOwner
  sql : PreparedSql

/-- What the environment lets happen: the probe, the opening of a handle, `BEGIN` and the text. -/
structure Outcomes where
  probed : Bool
  opens : Bool
  begins : Bool
  runs : Bool

/-- The ways into an explicit transaction: a statement, or other work on its shard. -/
inductive TransactionEntry
  | statement
  | onShard

inductive LeaseRequest
  | autocommit (sql : PreparedSql) (outcomes : Outcomes)
  | firstStatement (entry : TransactionEntry) (sql : PreparedSql) (outcomes : Outcomes)
  | laterStatement (entry : TransactionEntry) (sql : PreparedSql) (outcomes : Outcomes)

def LeaseRequest.use : LeaseRequest → LeaseUse
  | .autocommit .. => .autocommit
  | .firstStatement .. => .transaction
  | .laterStatement .. => .pinned

/-- The first statement is probed as itself, other work as `BEGIN`. -/
def TransactionEntry.probe (sql : PreparedSql) : TransactionEntry → PreparedSql
  | .statement => sql
  | .onShard => beginDeferred

/-- Nothing sensitive ran on a handle that another owner had first. -/
def Isolated (executed : List Execution) : Prop :=
  ∀ execution ∈ executed, execution.sql.Sensitive → execution.firstOwner = execution.owner

namespace PooledConnection

/-- A borrowed handle is replaced before a text that may not run on it. -/
def isolateForeignSql (sql : PreparedSql) (outcomes : Outcomes)
    (lease : PooledConnection) : PooledConnection × Bool :=
  if lease.borrowedFromOtherOwner = false then (lease, true)
  else if outcomes.probed = false then (lease, false)
  else if foreignSqlRequiresFresh sql = false then (lease, true)
  else if outcomes.opens = false then ({ lease with managed := none }, false)
  else ({ lease with
    managed := some (openConnection generation lease.owner)
    borrowedFromOtherOwner := false }, true)

def execute (sql : PreparedSql) (runs : Bool) (lease : PooledConnection) :
    PooledConnection × List Execution :=
  match lease.managed with
  | none => (lease, [])
  | some connection =>
    if runs = false then (lease, [])
    else
      ({ lease with managed := some (connection.ran sql) },
        [⟨lease.owner, connection.firstOwner, sql⟩])

variable (lease : PooledConnection)

/-- Other work on the shard of a transaction probes its own text as well. -/
def prepareWork (sql : PreparedSql) (outcomes : Outcomes) :
    TransactionEntry → PooledConnection × Bool
  | .statement => (lease, true)
  | .onShard => lease.isolateForeignSql generation sql outcomes

/-- A failure fails a transaction. -/
def answer : LeaseRequest → PooledConnection × List Execution
  | .autocommit sql outcomes =>
    let isolated := lease.isolateForeignSql generation sql outcomes
    isolated.1.execute sql (isolated.2 && outcomes.runs)
  | .firstStatement entry sql outcomes =>
    let isolated := lease.isolateForeignSql generation (entry.probe sql) outcomes
    let begins := isolated.2 && outcomes.begins
    let begun := isolated.1.execute beginDeferred begins
    let prepared :=
      if begins then begun.1.prepareWork generation sql outcomes entry else (begun.1, false)
    let runs := prepared.2 && outcomes.runs
    let ran := prepared.1.execute sql runs
    ({ ran.1 with use := if runs then .pinned else .failed }, begun.2 ++ ran.2)
  | .laterStatement entry sql outcomes =>
    let prepared := lease.prepareWork generation sql outcomes entry
    let runs := prepared.2 && outcomes.runs
    let ran := prepared.1.execute sql runs
    ({ ran.1 with use := if runs then .pinned else .failed }, ran.2)

def serve (request : LeaseRequest) : Option (PooledConnection × List Execution) :=
  if lease.use = request.use then some (lease.answer generation request) else none

def Own : Prop :=
  ∀ connection, lease.managed = some connection → connection.firstOwner = lease.owner

/-- A lease knows whether its handle is borrowed, and a transaction is on a handle of its owner. -/
structure Sound : Prop where
  borrowed : ∀ connection, lease.managed = some connection →
    (lease.borrowedFromOtherOwner = true ↔ connection.firstOwner ≠ lease.owner)
  origin : ∀ connection, lease.managed = some connection →
    (connection.originOwner <|> some lease.owner) = some connection.firstOwner
  pinned : lease.use = .pinned → lease.Own

/-- A transaction begins on a borrowed handle, because its first statement only reads. -/
def Slips : LeaseRequest → Prop
  | .firstStatement .statement sql outcomes =>
    lease.managed.isSome = true ∧ lease.borrowedFromOtherOwner = true ∧
      lease.use = .transaction ∧ outcomes.probed = true ∧ outcomes.begins = true ∧
      foreignSqlRequiresFresh sql = false
  | _ => False

variable {lease : PooledConnection} {generation : Nat} {sql : PreparedSql} {outcomes : Outcomes}
  {request : LeaseRequest} {served : PooledConnection × List Execution}

theorem Sound.own (h : lease.Sound) (hown : lease.borrowedFromOtherOwner = false) : lease.Own := by
  intro connection hmanaged
  by_contra hforeign
  cases hown.symm.trans ((h.borrowed connection hmanaged).mpr hforeign)

theorem isolateForeignSql_spec (h : lease.Sound) {isolated : PooledConnection × Bool}
    (hisolated : lease.isolateForeignSql generation sql outcomes = isolated) :
    isolated.1.Sound ∧ (isolated.2 = true → isolated.1.Own ∨
      isolated.1 = lease ∧ outcomes.probed = true ∧ foreignSqlRequiresFresh sql = false) := by
  rw [← hisolated, isolateForeignSql]
  split
  next hown => exact ⟨h, fun _ => .inl (h.own hown)⟩
  split
  next => exact ⟨h, nofun⟩
  next hprobed =>
    split
    next hquiet => exact ⟨h, fun _ => .inr ⟨rfl, by simpa using hprobed, hquiet⟩⟩
    split
    next => exact ⟨⟨nofun, nofun, fun _ => nofun⟩, nofun⟩
    next =>
      have hown : Own { lease with
          managed := some (openConnection generation lease.owner)
          borrowedFromOtherOwner := false } := by
        rintro connection ⟨⟩
        rfl
      refine ⟨⟨?_, ?_, fun _ => hown⟩, fun _ => .inl hown⟩
      · rintro connection ⟨⟩
        exact iff_of_false Bool.false_ne_true fun hforeign => hforeign rfl
      · rintro connection ⟨⟩
        rfl

theorem prepareWork_spec (h : lease.Sound) (entry : TransactionEntry) :
    (lease.prepareWork generation sql outcomes entry).1.Sound ∧
      (lease.Own → (lease.prepareWork generation sql outcomes entry).2 = true →
        (lease.prepareWork generation sql outcomes entry).1.Own) := by
  cases entry with
  | statement => exact ⟨h, fun hown _ => hown⟩
  | onShard =>
    obtain ⟨hsound, hcases⟩ := isolateForeignSql_spec h rfl
    refine ⟨hsound, fun hown hready => (hcases hready).elim id ?_⟩
    rintro ⟨hsame, -⟩
    exact hsame.symm ▸ hown

theorem execute_spec (h : lease.Sound) (sql : PreparedSql) (runs : Bool) :
    (lease.execute sql runs).1.Sound ∧ (lease.Own → (lease.execute sql runs).1.Own) ∧
      ((runs = true → lease.Own ∨ ¬ sql.Sensitive) → Isolated (lease.execute sql runs).2) := by
  unfold execute
  split
  next => exact ⟨h, id, fun _ => nofun⟩
  next connection hmanaged =>
    split
    next => exact ⟨h, id, fun _ => nofun⟩
    next hruns =>
      have hkept : lease.Own → Own { lease with managed := some (connection.ran sql) } := by
        rintro hown other ⟨⟩
        exact hown connection hmanaged
      refine ⟨⟨?_, ?_, hkept ∘ h.pinned⟩, hkept, ?_⟩
      · rintro other ⟨⟩
        exact h.borrowed connection hmanaged
      · rintro other ⟨⟩
        exact h.origin connection hmanaged
      · intro hallowed execution hmem hsensitive
        cases mem_singleton.mp hmem
        rcases hallowed (by simpa using hruns) with hown | hquiet
        · exact hown connection hmanaged
        · exact absurd hsensitive hquiet

/-- The text runs on a handle of the owner, if it runs. -/
theorem runWork_spec {prepared : PooledConnection × Bool} (h : prepared.1.Sound)
    (hready : prepared.2 = true → prepared.1.Own) (sql : PreparedSql) (runs : Bool) :
    let ran := prepared.1.execute sql (prepared.2 && runs)
    Sound { ran.1 with use := if prepared.2 && runs then .pinned else .failed } ∧
      Isolated ran.2 := by
  obtain ⟨hran, hown, hlog⟩ := execute_spec h sql (prepared.2 && runs)
  refine ⟨⟨hran.borrowed, hran.origin, fun hpinned => hown (hready ?_)⟩,
    hlog fun hruns => .inl (hready (Bool.and_eq_true_iff.mp hruns).1)⟩
  by_contra hstopped
  simp [hstopped] at hpinned

theorem answer_autocommit (h : lease.Sound) :
    (lease.answer generation (.autocommit sql outcomes)).1.Sound ∧
      Isolated (lease.answer generation (.autocommit sql outcomes)).2 := by
  generalize hisolated : lease.isolateForeignSql generation sql outcomes = isolated
  obtain ⟨hsound, hcases⟩ := isolateForeignSql_spec h hisolated
  obtain ⟨hran, -, hlog⟩ := execute_spec hsound sql (isolated.2 && outcomes.runs)
  simp only [answer, hisolated]
  refine ⟨hran, hlog fun hruns => ?_⟩
  refine (hcases (Bool.and_eq_true_iff.mp hruns).1).imp_right fun ⟨_, _, hquiet⟩ => ?_
  simp_all [foreignSqlRequiresFresh, PreparedSql.Sensitive]

theorem answer_firstStatement (h : lease.Sound) (huse : lease.use = .transaction)
    {entry : TransactionEntry} (hslips : ¬ lease.Slips (.firstStatement entry sql outcomes)) :
    (lease.answer generation (.firstStatement entry sql outcomes)).1.Sound ∧
      Isolated (lease.answer generation (.firstStatement entry sql outcomes)).2 := by
  generalize hisolated : lease.isolateForeignSql generation (entry.probe sql) outcomes = isolated
  obtain ⟨hsound, hcases⟩ := isolateForeignSql_spec h hisolated
  generalize hbegins : (isolated.2 && outcomes.begins) = begins
  obtain ⟨hbegun, hown, hlog⟩ := execute_spec hsound beginDeferred begins
  simp only [answer, hisolated, hbegins]
  have hbegan : begins = true → isolated.1.Own := by
    intro hbegan
    obtain ⟨hisolates, hbegins⟩ := Bool.and_eq_true_iff.mp (hbegins.trans hbegan)
    rcases hcases hisolates with hown | ⟨hsame, hprobed, hquiet⟩
    · exact hown
    · cases entry with
      | statement =>
        rw [hsame]
        intro connection hmanaged
        by_contra hforeign
        exact hslips ⟨by simp [hmanaged], (h.borrowed connection hmanaged).mpr hforeign, huse,
          hprobed, hbegins, hquiet⟩
      | onShard => cases hquiet
  obtain ⟨hprepared, hready⟩ := @prepareWork_spec _ generation sql outcomes hbegun entry
  cases begins with
  | false =>
    obtain ⟨hran, hlog'⟩ := @runWork_spec (_, false) hbegun (by simp) sql outcomes.runs
    exact ⟨hran, forall_mem_append.mpr ⟨hlog nofun, hlog'⟩⟩
  | true =>
    obtain ⟨hran, hlog'⟩ := runWork_spec hprepared (hready (hown (hbegan rfl))) sql outcomes.runs
    exact ⟨hran, forall_mem_append.mpr ⟨hlog fun _ => .inl (hbegan rfl), hlog'⟩⟩

theorem answer_slip (h : lease.Sound) (hslips : lease.Slips request) :
    ¬ Isolated (lease.answer generation request).2 := by
  cases request with
  | firstStatement entry sql outcomes =>
    cases entry with
    | statement =>
      obtain ⟨hlive, hborrowed, -, hprobed, hbegan, hquiet⟩ := hslips
      obtain ⟨connection, hmanaged⟩ := Option.isSome_iff_exists.mp hlive
      have hisolated : lease.isolateForeignSql generation sql outcomes = (lease, true) := by
        rw [isolateForeignSql, if_neg (by simp [hborrowed]), if_neg (by simp [hprobed]),
          if_pos hquiet]
      intro hlogged
      refine (h.borrowed connection hmanaged).mp hborrowed ?_
      refine hlogged ⟨lease.owner, connection.firstOwner, beginDeferred⟩ ?_ (.inl rfl)
      simp [answer, TransactionEntry.probe, hisolated, execute, hmanaged, hbegan]
    | onShard => exact hslips.elim
  | _ => exact hslips.elim

theorem serve_spec (h : lease.Sound) (hserved : lease.serve generation request = some served) :
    (¬ lease.Slips request → served.1.Sound ∧ Isolated served.2) ∧
      (lease.Slips request → ¬ Isolated served.2) := by
  rw [serve, Option.ite_none_right_eq_some] at hserved
  obtain ⟨huse, ⟨⟩⟩ := hserved
  refine ⟨fun hslips => ?_, answer_slip h⟩
  cases request with
  | autocommit sql outcomes => exact answer_autocommit h
  | firstStatement entry sql outcomes => exact answer_firstStatement h huse hslips
  | laterStatement entry sql outcomes =>
    obtain ⟨hprepared, hready⟩ := prepareWork_spec h entry
    exact runWork_spec hprepared (hready (h.pinned huse)) sql outcomes.runs

end PooledConnection

/-- The pool of a shard with its leases. -/
structure ShardPool where
  generation : Nat
  idle : List ManagedConnection
  leases : Nat → Option PooledConnection
  executed : List Execution

variable (owner : ConnectionOwner)

/-- Handles that the owner wrote with come first; those of another owner are not reused. -/
def ManagedConnection.rank (connection : ManagedConnection) : Nat :=
  if connection.writeOwner = some owner then 0
  else if connection.writeOwner ≠ none then 3
  else if connection.originOwner = some owner then 1 else 2

namespace ShardPool

def empty (generation : Nat) : ShardPool := ⟨generation, [], fun _ => none, []⟩

/-- Stale handles are dropped and one of the best is taken; the idle order is not modelled. -/
def checkout (choice : Nat) (currentFile opens : Bool)
    (pool : ShardPool) : Option (List ManagedConnection × Option ManagedConnection) :=
  let idle := pool.idle.filter fun connection => connection.schemaGeneration = pool.generation
  let opened := if opens then some (openConnection pool.generation owner) else none
  match idle[choice]? with
  | none => if idle = [] then some ([], opened) else none
  | some connection =>
    if ∃ other ∈ idle, other.rank owner < connection.rank owner then none
    else some (idle.eraseIdx choice,
      if connection.rank owner = 3 ∨ currentFile = false then opened
      else some { connection with wrote := false })

def checkIn (broken : Bool) (pool : ShardPool)
    (connection : ManagedConnection) : List ManagedConnection :=
  if connection.schemaGeneration ≠ pool.generation then pool.idle
  else if broken || connection.tainted then pool.idle
  else pool.idle ++ [{ connection with
    writeOwner := if connection.wrote then some owner else connection.writeOwner
    originOwner := connection.originOwner <|> some owner }]

/-- A handle is also broken after a panic, and when a transaction was left open on it. -/
inductive Action
  | checkout (lease : Nat) (owner : ConnectionOwner) (transaction : Bool) (choice : Nat)
    (currentFile opens : Bool)
  | serve (lease : Nat) (request : LeaseRequest)
  | drop (lease : Nat) (broken : Bool)
  | migrate (generation : Nat)

def step (pool : ShardPool) : Action → Option ShardPool
  | .checkout lease owner transaction choice currentFile opens =>
    if (pool.leases lease).isSome then none
    else (pool.checkout owner choice currentFile opens).map fun checked =>
      { pool with
        idle := checked.1
        leases := update pool.leases lease (checked.2.map fun connection =>
          ⟨owner, some connection, connection.originOwner.any (· ≠ owner),
            if transaction then .transaction else .autocommit⟩) }
  | .serve lease request =>
    (pool.leases lease).bind fun found =>
      (found.serve pool.generation request).map fun served =>
        { pool with
          leases := update pool.leases lease (some served.1)
          executed := pool.executed ++ served.2 }
  | .drop lease broken =>
    (pool.leases lease).map fun found =>
      { pool with
        idle := (found.managed.map (pool.checkIn found.owner broken)).getD pool.idle
        leases := update pool.leases lease none }
  | .migrate generation => some { pool with generation }

def Slips (pool : ShardPool) : Action → Prop
  | .serve lease request => ∃ found, pool.leases lease = some found ∧ found.Slips request
  | _ => False

/-- Every idle handle knows its first owner, and every lease is sound. -/
structure Sound (pool : ShardPool) : Prop where
  idle : ∀ connection ∈ pool.idle, connection.originOwner = some connection.firstOwner
  leases : ∀ lease found, pool.leases lease = some found → found.Sound

variable {pool next : ShardPool} {action : Action}

theorem Sound.update (h : pool.Sound) {lease : Nat} {changed : Option PooledConnection}
    (hchanged : ∀ found, changed = some found → found.Sound) (other : Nat)
    (found : PooledConnection) (hfound : update pool.leases lease changed other =
      some found) : found.Sound := by
  rw [update_apply] at hfound
  split at hfound
  next => exact hchanged found hfound
  next => exact h.leases other found hfound

theorem checkout_spec (h : pool.Sound) {owner : ConnectionOwner} {choice : Nat}
    {currentFile opens : Bool} {checked : List ManagedConnection × Option ManagedConnection}
    (hchecked : pool.checkout owner choice currentFile opens = some checked) :
    (∀ connection ∈ checked.1, connection ∈ pool.idle) ∧ ∀ connection, checked.2 = some connection →
      (connection.originOwner <|> some owner) = some connection.firstOwner := by
  have hopened : ∀ connection, (if opens then some (openConnection pool.generation owner) else
      none) = some connection →
      (connection.originOwner <|> some owner) = some connection.firstOwner := by
    intro connection hopened
    split at hopened
    next =>
      cases hopened
      rfl
    next => cases hopened
  simp only [checkout] at hchecked
  split at hchecked
  next =>
    grind
  next connection hchosen =>
    split at hchecked
    next => cases hchecked
    next =>
      cases hchecked
      refine ⟨fun other hmem => mem_of_mem_filter (mem_of_mem_eraseIdx hmem), ?_⟩
      split
      next => exact hopened
      next =>
        rintro other ⟨⟩
        exact congrArg (· <|> some owner)
          (h.idle connection (mem_of_mem_filter (mem_of_getElem? hchosen)))

theorem checkIn_spec (h : pool.Sound) {found : PooledConnection} (hfound : found.Sound)
    {broken : Bool} : ∀ connection ∈
      (found.managed.map (pool.checkIn found.owner broken)).getD pool.idle,
      connection.originOwner = some connection.firstOwner := by
  cases hmanaged : found.managed with
  | none => exact h.idle
  | some connection =>
    simp only [Option.map_some, Option.getD_some, checkIn]
    split
    next => exact h.idle
    split
    next => exact h.idle
    next =>
      refine forall_mem_append.mpr ⟨h.idle, forall_mem_singleton.mpr ?_⟩
      exact hfound.origin connection hmanaged

theorem isolated_of_step (hstep : pool.step action = some next)
    (hisolated : Isolated next.executed) : Isolated pool.executed := by
  cases action <;> grind [step, Isolated, Option.map_eq_some_iff, Option.bind_eq_some_iff]

/-- Only a slip loses the invariant and the isolation. -/
theorem step_spec (h : pool.Sound) (hstep : pool.step action = some next) :
    (¬ pool.Slips action → next.Sound ∧ (Isolated next.executed ↔ Isolated pool.executed)) ∧
      (pool.Slips action → ¬ Isolated next.executed) := by
  cases action with
  | checkout lease owner transaction choice currentFile opens =>
    simp only [step] at hstep
    split at hstep
    next => cases hstep
    obtain ⟨checked, hchecked, rfl⟩ := Option.map_eq_some_iff.mp hstep
    obtain ⟨hidle, horigin⟩ := checkout_spec h hchecked
    refine ⟨fun _ => ⟨⟨fun connection hmem => h.idle connection (hidle connection hmem),
      h.update ?_⟩, .rfl⟩, nofun⟩
    intro found hfound
    obtain ⟨connection, hconnection, rfl⟩ := Option.map_eq_some_iff.mp hfound
    have hfirst := horigin connection hconnection
    refine ⟨?_, fun _ hsame => Option.some.inj hsame ▸ hfirst, ?_⟩
    · rintro other ⟨⟩
      cases horigin : connection.originOwner <;> simp_all
    · grind
  | serve lease request =>
    obtain ⟨found, hfound, hserves⟩ := Option.bind_eq_some_iff.mp hstep
    obtain ⟨served, hserved, rfl⟩ := Option.map_eq_some_iff.mp hserves
    obtain ⟨hsound, hslips⟩ := PooledConnection.serve_spec (h.leases lease found hfound) hserved
    refine ⟨fun hkeeps => ?_, ?_⟩
    · obtain ⟨hserved, hisolated⟩ := hsound fun hslip => hkeeps ⟨found, hfound, hslip⟩
      exact ⟨⟨h.idle, h.update fun _ hsame => Option.some.inj hsame ▸ hserved⟩,
        forall_mem_append.trans (and_iff_left hisolated)⟩
    · rintro ⟨other, hother, hslip⟩ hisolated
      cases hfound.symm.trans hother
      exact hslips hslip (forall_mem_append.mp hisolated).2
  | drop lease broken =>
    obtain ⟨found, hfound, rfl⟩ := Option.map_eq_some_iff.mp hstep
    exact ⟨fun _ => ⟨⟨checkIn_spec h (h.leases lease found hfound), h.update nofun⟩, .rfl⟩, nofun⟩
  | migrate generation =>
    cases hstep
    exact ⟨fun _ => ⟨⟨h.idle, h.leases⟩, .rfl⟩, nofun⟩

theorem isolated_iff_along (actions : List Action) {final : ShardPool} (h : pool.Sound)
    (hrun : run step pool actions = some final) :
    Isolated final.executed ↔ Isolated pool.executed ∧
      Along step (fun pool action => ¬ pool.Slips action) pool actions := by
  induction actions generalizing pool with
  | nil =>
    cases hrun
    exact (and_iff_left trivial).symm
  | cons action actions ih =>
    obtain ⟨next, hstep, hrest⟩ := run_cons_eq_some.mp hrun
    obtain ⟨hkeeps, hslips⟩ := step_spec h hstep
    by_cases hslip : pool.Slips action
    · refine iff_of_false (fun hisolated => hslips hslip ?_) fun halong => halong.2.1 hslip
      exact run_preserves (P := fun pool => Isolated pool.executed → Isolated next.executed)
        (fun _ _ _ hearlier hstep => hearlier ∘ isolated_of_step hstep) id hrest hisolated
    · grind [Along]

/-- Everything sensitive runs on handles of its owner exactly when no transaction begins on a
borrowed handle. -/
theorem isolated_iff_no_slip (generation : Nat) (actions : List Action) (final : ShardPool)
    (hrun : run step (empty generation) actions = some final) :
    Isolated final.executed ↔
      Along step (fun pool action => ¬ pool.Slips action) (empty generation) actions := by
  have hempty : (empty generation).Sound := ⟨nofun, fun _ _ => nofun⟩
  rw [isolated_iff_along actions hempty hrun]
  exact and_iff_right nofun

/-- A read leaves its handle to the next owner, whose transaction starts with a read and writes. -/
def readThenWrite : List Action :=
  let read : PreparedSql := ⟨false, false, true⟩
  let done : Outcomes := ⟨true, true, true, true⟩
  [.checkout 0 1 false 0 true true, .serve 0 (.autocommit read done), .drop 0 false,
    .checkout 0 2 true 0 true true, .serve 0 (.firstStatement .statement read done),
    .serve 0 (.laterStatement .statement ⟨false, true, true⟩ done)]

theorem write_on_borrowed_handle : ∃ final, run step (empty 0) readThenWrite = some final ∧
    ∃ execution ∈ final.executed, execution.sql.writes = true ∧
      execution.firstOwner ≠ execution.owner := by
  refine ⟨_, rfl, ⟨2, 1, ⟨false, true, true⟩⟩, ?_, rfl, by decide⟩
  exact mem_append_right _ mem_cons_self

theorem isolated_iff_no_slip_borrowed : ∃ final, run step (empty 0) readThenWrite = some final ∧
    (Isolated final.executed ↔
      Along step (fun pool action => ¬ pool.Slips action) (empty 0) readThenWrite) :=
  ⟨_, rfl, isolated_iff_no_slip 0 readThenWrite _ rfl⟩

end ShardPool

end BriskDB.Storage
