import BriskDB.Core.GeneratedId
import BriskDB.Lib.Ledger
import BriskDB.Lib.Result
import BriskDB.Lib.Transition

/-!
# Hi/lo allocation

The manifest is the only durable allocator: a reservation moves the head of a
table's sequence in one immediate transaction and leases the block it skipped to
one process. A process hands the numbers of its block out under a mutex and asks
for the next block when the last one is used up. A commit may fail, and it may
succeed and still be reported as failed; the block is then burned.
-/

namespace BriskDB.Storage

open GeneratedId

def hiloV1BlockSize : Nat := 4096

/-- The row of one table in `briskdb_hilo_leases`. -/
structure LeaseRow where
  blockSize : Int
  nextSequence : Int
  fenceToken : Int
  lastOwnerId : Option (List UInt8)
  lastFirstSequence : Option Int
  lastLastSequence : Option Int
  deriving DecidableEq

/-- One range durably committed by the manifest allocator. -/
structure DurableHiloLease where
  tableId : Nat
  ownerId : List UInt8
  fence : Nat
  firstSequence : Nat
  lastSequence : Nat
  deriving DecidableEq

structure HiloAllocation where
  id : Int
  tableId : Nat
  ownerId : List UInt8
  fence : Nat
  deriving DecidableEq

structure CachedRange where
  ownerId : List UInt8
  fence : Nat
  nextSequence : Nat
  lastSequence : Nat
  deriving DecidableEq

/-- The block after the row that was read; the catalog checks around it can only refuse. -/
def planHiloV1Block (tableId : Nat) (ownerId : List UInt8) (row : LeaseRow) :
    EngineResult DurableHiloLease := do
  if row.blockSize ≠ hiloV1BlockSize then
    throw (.new .dataCorruption "hilo_v1 allocation head has an unsupported block size")
  if row.nextSequence < 0 then
    throw (.new .dataCorruption "hilo_v1 allocation head is outside its numeric range")
  let firstSequence := row.nextSequence.toNat
  if firstSequence > maxHiloV1Sequence then
    throw (.new .limitExceeded
      ("hilo_v1 table " ++ toString tableId ++ " exhausted its global sequence"))
  if row.fenceToken < 0 then
    throw (.new .dataCorruption "hilo_v1 fence token is outside its numeric range")
  let nextFence := row.fenceToken.toNat + 1
  if nextFence > 2 ^ 63 - 1 then
    throw (.new .limitExceeded
      ("hilo_v1 table " ++ toString tableId ++ " exhausted its fence tokens"))
  -- the block before the maximum is cut short
  let lastSequence := min (min (firstSequence + (hiloV1BlockSize - 1)) (2 ^ 64 - 1))
    maxHiloV1Sequence
  return ⟨tableId, ownerId, nextFence, firstSequence, lastSequence⟩

/-- The update of the row that was read, refused when the row has changed. -/
def LeaseRow.advance (current read : LeaseRow) (lease : DurableHiloLease) : EngineResult LeaseRow :=
  if current.nextSequence = read.nextSequence ∧ current.fenceToken = read.fenceToken then
    .ok
      { current with
        nextSequence := lease.lastSequence + 1
        fenceToken := lease.fence
        lastOwnerId := some lease.ownerId
        lastFirstSequence := some lease.firstSequence
        lastLastSequence := some lease.lastSequence }
  else .error (.new .busy "hilo_v1 allocation head changed concurrently")

def validateLease (tableId : Nat) (ownerId : List UInt8) (lease : DurableHiloLease) :
    EngineResult Unit :=
  if lease.tableId ≠ tableId ∨ lease.ownerId ≠ ownerId ∨ lease.fence = 0 ∨
      lease.firstSequence = 0 ∨ lease.firstSequence > lease.lastSequence ∨
      lease.lastSequence > maxHiloV1Sequence then
    .error (.new .dataCorruption "manifest returned an invalid hilo_v1 lease")
  else .ok ()

def exhausted : Option CachedRange → Prop
  | none => True
  | some range => range.nextSequence > range.lastSequence

instance (range : Option CachedRange) : Decidable (exhausted range) := by
  cases range with
  | none => exact .isTrue trivial
  | some range => exact inferInstanceAs (Decidable (range.nextSequence > range.lastSequence))

def CachedRange.install (lease : DurableHiloLease) : CachedRange :=
  ⟨lease.ownerId, lease.fence, lease.firstSequence, lease.lastSequence⟩

def CachedRange.take (range : CachedRange) (tableId : Nat) :
    CachedRange × EngineResult HiloAllocation :=
  ({ range with nextSequence := range.nextSequence + 1 }, do
    let id ← HiloV1Id.new range.nextSequence
    return ⟨id.encode, tableId, range.ownerId, range.fence⟩)

/-- A process: its incarnation, its cached range and the thread that holds the mutex. -/
structure HiloProcess where
  ownerId : List UInt8
  range : Option CachedRange
  holder : Option Nat

/-- An allocation that refills the cache, or a caller that only reserves. -/
inductive HiloCall
  | allocate
  | reserve
  deriving DecidableEq

inductive HiloThread
  | idle
  /-- inside `allocate`, with the mutex -/
  | examining
  /-- inside an immediate transaction that read this row -/
  | reserving (call : HiloCall) (read : LeaseRow)
  /-- the transaction updated the row and is about to commit -/
  | updated (call : HiloCall) (lease : DurableHiloLease)
  /-- inside `allocate`, with the lease that the reservation returned -/
  | leased (lease : DurableHiloLease)
  deriving DecidableEq

inductive CommitOutcome
  | committed
  | failed
  | committedButReportedFailed
  deriving DecidableEq

abbrev ThreadRef := Nat × Nat

inductive HiloAction
  | lock (thread : ThreadRef)
  | issue (thread : ThreadRef)
  | begin (call : HiloCall) (thread : ThreadRef)
  | update (thread : ThreadRef)
  | commit (thread : ThreadRef) (outcome : CommitOutcome)
  | install (thread : ThreadRef)
  /-- the call ends with an error, its transaction is rolled back -/
  | abort (thread : ThreadRef)
  /-- the process dies and a new incarnation takes its place -/
  | crash (process : Nat) (ownerId : List UInt8)

/-- One table, with the allocations that were returned and the leases that became durable. -/
structure HiloSystem where
  row : LeaseRow
  transaction : Option (ThreadRef × LeaseRow)
  processes : Nat → HiloProcess
  threads : ThreadRef → HiloThread
  issued : List HiloAllocation
  reservations : List DurableHiloLease

namespace HiloSystem

variable (system : HiloSystem) (thread : ThreadRef)

def setThread (state : HiloThread) : HiloSystem :=
  { system with threads := Function.update system.threads thread state }

def setProcess (process : Nat) (state : HiloProcess) : HiloSystem :=
  { system with processes := Function.update system.processes process state }

def unlock : HiloSystem :=
  if (system.processes thread.1).holder = some thread.2 then
    system.setProcess thread.1 { system.processes thread.1 with holder := none }
  else system

def rollback : HiloSystem :=
  match system.transaction with
  | some (owner, _) => if owner = thread then { system with transaction := none } else system
  | none => system

/-- A call returns: its transaction is gone, its mutex is free. -/
def leave : HiloSystem :=
  ((system.rollback thread).unlock thread).setThread thread .idle

/-- A refill starts with the mutex and an empty range, a bare reservation outside any
call. -/
def mayBegin (call : HiloCall) (thread : ThreadRef) : Prop :=
  system.transaction = none ∧
    (call = .allocate → system.threads thread = .examining ∧
      exhausted (system.processes thread.1).range) ∧
    (call = .reserve → system.threads thread = .idle)

instance (system : HiloSystem) (call : HiloCall) (thread : ThreadRef) :
    Decidable (system.mayBegin call thread) :=
  inferInstanceAs (Decidable (_ ∧ _ ∧ _))

def acquire : HiloSystem :=
  (system.setProcess thread.1
    { system.processes thread.1 with holder := some thread.2 }).setThread thread .examining

/-- The row and the lease of a transaction that is committed. -/
def durable (row : LeaseRow) (lease : DurableHiloLease) : HiloSystem :=
  { system with row, transaction := none, reservations := system.reservations ++ [lease] }

def install (lease : DurableHiloLease) : HiloSystem :=
  (system.setProcess thread.1
    { system.processes thread.1 with range := some (.install lease) }).setThread thread .examining

/-- A new incarnation of the process, without what its threads were doing. -/
def restart (process : Nat) (ownerId : List UInt8) : HiloSystem :=
  { system with
    transaction := system.transaction.filter fun open' => open'.1.1 ≠ process
    processes := Function.update system.processes process ⟨ownerId, none, none⟩
    threads := fun thread => if thread.1 = process then .idle else system.threads thread }

def step (tableId : Nat) (system : HiloSystem) : HiloAction → Option HiloSystem
  | .lock thread =>
    if system.threads thread = .idle ∧ (system.processes thread.1).holder = none then
      some (system.acquire thread)
    else none
  | .issue thread =>
    let process := system.processes thread.1
    match system.threads thread, process.range with
    | .examining, some range =>
      if range.nextSequence > range.lastSequence then none
      else
        let (range, result) := range.take tableId
        let system := system.setProcess thread.1 { process with range := some range }
        match result with
        | .ok allocation =>
          some ({ system with issued := system.issued ++ [allocation] }.leave thread)
        | .error _ => some (system.leave thread)
    | _, _ => none
  | .begin call thread =>
    if system.mayBegin call thread then
      some ({ system with transaction := some (thread, system.row) }.setThread thread
        (.reserving call system.row))
    else none
  | .update thread =>
    match system.threads thread, system.transaction with
    | .reserving call read, some (owner, current) =>
      if owner = thread then
        match planHiloV1Block tableId (system.processes thread.1).ownerId read with
        | .error _ => some (system.leave thread)
        | .ok lease =>
          match current.advance read lease with
          | .error _ => some (system.leave thread)
          | .ok row =>
            some ({ system with transaction := some (thread, row) }.setThread thread
              (.updated call lease))
      else none
    | _, _ => none
  | .commit thread outcome =>
    match system.threads thread, system.transaction with
    | .updated call lease, some (owner, row) =>
      if owner = thread then
        match outcome, call with
        | .committed, .allocate =>
          some ((system.durable row lease).setThread thread (.leased lease))
        | .committed, .reserve | .committedButReportedFailed, _ =>
          some ((system.durable row lease).leave thread)
        | .failed, _ => some (system.leave thread)
      else none
    | _, _ => none
  | .install thread =>
    match system.threads thread with
    | .leased lease =>
      match validateLease tableId (system.processes thread.1).ownerId lease with
      | .error _ => some (system.leave thread)
      | .ok () => some (system.install thread lease)
    | _ => none
  | .abort thread => if system.threads thread = .idle then none else some (system.leave thread)
  | .crash process ownerId => some (system.restart process ownerId)

/-- A table before any process used it: a coherent row, no cached range, no call. -/
structure Fresh : Prop where
  next_pos : 1 ≤ system.row.nextSequence
  next_le : system.row.nextSequence ≤ maxHiloV1Sequence + 1
  fence_nonneg : 0 ≤ system.row.fenceToken
  transaction_none : system.transaction = none
  range_none : ∀ process, (system.processes process).range = none
  holder_none : ∀ process, (system.processes process).holder = none
  idle : ∀ thread, system.threads thread = .idle
  issued_nil : system.issued = []
  reservations_nil : system.reservations = []

end HiloSystem

end BriskDB.Storage
