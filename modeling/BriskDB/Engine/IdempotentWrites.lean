import BriskDB.Lib.Transition
import BriskDB.Storage.IdempotencyReceipts

/-!
# Idempotent writes

A request holds its key within its process, then the lock stripe of the key among all processes.
Under the stripe it reads the clock once, looks for a receipt on every shard, and executes its
statement with a new receipt when there is none. Requests of other stripes go on in between, and
every step may fail or be the last one of a process.
-/

namespace BriskDB.Idempotency

structure Request where
  process : Nat
  key : IdempotencyKey
  write : WriteRequest

inductive IdempotencyStatus
  | created
  | replayed
  deriving DecidableEq

structure IdempotentWriteResult where
  shard : Nat
  rowsAffected : Nat
  status : IdempotencyStatus
  deriving DecidableEq

inductive Phase
  | admitted
  | scanning (now shard : Nat) (found : Option IdempotencyReceipt)
  /-- The receipt on `shard` was expired and is about to be deleted. -/
  | deleting (now shard : Nat) (found : Option IdempotencyReceipt)

structure Worker where
  request : Request
  phase : Phase

inductive Event
  | clock (worker : Nat) (request : Request) (now : Nat)
  /-- The application statement was committed with the receipt. -/
  | committed (worker : Nat) (request : Request) (receipt : IdempotencyReceipt)
  | replied (worker : Nat) (request : Request) (reply : EngineResult IdempotentWriteResult)
  /-- A failure of storage, a cancellation or an unusable clock ended the request. -/
  | aborted (worker : Nat) (request : Request) (error : EngineError)

structure IdempotencySystem where
  shards : Nat → ReceiptTable
  workers : Nat → Option Worker
  /-- The keys that each process handles. -/
  active : Nat → Blake3.Digest → Bool
  stripes : UInt8 → Option Nat
  history : List Event

inductive TransactionOutcome
  | committed
  | failed (error : EngineError) (tookEffect : Bool)

inductive IdempotencyAction
  | admission (worker : Nat) (request : Request)
  | lock (worker now : Nat)
  | find (worker : Nat)
  | expire (worker : Nat) (outcome : TransactionOutcome)
  | execute (worker : Nat) (execution : EngineResult Nat) (outcome : TransactionOutcome)
  | fail (worker : Nat) (error : EngineError)
  | crash (process : Nat)

def keyBusy : EngineError := .new .busy "another request is handling this idempotency key"

def localStripeBusy : EngineError :=
  .new .busy "another local operation is handling an idempotency key in this lock stripe"

def stripeBusy : EngineError :=
  .new .busy "another process is handling an idempotency key in this lock stripe"

def clockExhausted : EngineError :=
  .new .storageUnavailable "the system clock leaves no room for the idempotency retention window"

def idempotencyConflict : EngineError :=
  .new .idempotencyConflict
    "the idempotency key already belongs to a different semantic write request"

def stripe (keyDigest : Blake3.Digest) : UInt8 := keyDigest.val.headD 0

def idempotencyResultFromReceipt (receipt : IdempotencyReceipt) (digests : IdempotencyDigests)
    (expectedShard : Nat) (status : IdempotencyStatus) : EngineResult IdempotentWriteResult := do
  if receipt.keyDigest ≠ digests.key then
    throw (.new .dataCorruption "idempotency receipt contains a different key digest")
  if receipt.requestDigest ≠ digests.request then throw idempotencyConflict
  if receipt.targetShard ≠ expectedShard then
    throw (.new .dataCorruption
      "matching idempotency receipt records an inconsistent target shard")
  return ⟨receipt.targetShard, receipt.rowsAffected, status⟩

def noteReceipt (keyDigest : Blake3.Digest) (physicalShard : Nat)
    (found : Option IdempotencyReceipt) (receipt : IdempotencyReceipt) :
    EngineResult IdempotencyReceipt := do
  if receipt.keyDigest ≠ keyDigest then
    throw (.new .dataCorruption "idempotency receipt lookup returned a different key digest")
  if receipt.targetShard ≠ physicalShard then
    throw (.new .dataCorruption
      "idempotency receipt is stored on a different physical shard than it records")
  if found.isSome then
    throw (.new .dataCorruption
      "one database-wide idempotency key has receipts on multiple shards")
  return receipt

namespace Phase

/-- The clock value, the position and the receipt found so far, under the stripe. -/
def scan? : Phase → Option (Nat × Nat × Option IdempotencyReceipt)
  | .admitted => none
  | .scanning now shard found | .deleting now shard found => some (now, shard, found)

end Phase

namespace IdempotencySystem

def initial : IdempotencySystem where
  shards := fun _ => .empty
  workers := fun _ => none
  active := fun _ _ => false
  stripes := fun _ => none
  history := []

section

variable (deriveKey : List UInt8 → List UInt8 → Blake3.Digest) (shardCount : Nat)

def digests (request : Request) : IdempotencyDigests :=
  writeDigests deriveKey request.key request.write

variable (system : IdempotencySystem)

def setPhase (worker : Nat) (request : Request) (phase : Phase) : IdempotencySystem :=
  { system with workers := Function.update system.workers worker (some ⟨request, phase⟩) }

def setShard (shard : Nat) (table : ReceiptTable) : IdempotencySystem :=
  { system with shards := Function.update system.shards shard table }

def finish (worker : Nat) (ending : Worker) (events : List Event) : IdempotencySystem :=
  let keyDigest := (digests deriveKey ending.request).key
  { system with
    workers := Function.update system.workers worker none
    active := Function.update system.active ending.request.process
      (Function.update (system.active ending.request.process) keyDigest false)
    stripes := if ending.phase.scan?.isSome then
      Function.update system.stripes (stripe keyDigest) none else system.stripes
    history := system.history ++ events }

def advance (worker : Nat) (ending : Worker) (now shard : Nat)
    (found : Option IdempotencyReceipt) : Option IdempotencyReceipt → IdempotencySystem
  | none => system.setPhase worker ending.request (.scanning now (shard + 1) found)
  | some receipt =>
    match noteReceipt (digests deriveKey ending.request).key shard found receipt with
    | .ok noted => system.setPhase worker ending.request (.scanning now (shard + 1) (some noted))
    | .error error =>
      system.finish deriveKey worker ending [.replied worker ending.request (.error error)]

/-- Who holds the stripe decides the message. -/
def stripeError (request : Request) (holder : Nat) : EngineError :=
  if (system.workers holder).any fun other => other.request.process = request.process then
    localStripeBusy
  else stripeBusy

/-- The transaction of the write, once no shard has a receipt. -/
def executeOn (request : Request) (now : Nat)
    (execution : EngineResult Nat) : EngineResult (IdempotentExecuteOutcome × ReceiptTable) := do
  let target := request.write.targetShard.toNat
  if target ≥ shardCount then
    throw (.new .internal "idempotent write target is outside the admitted shard connections")
  let receipt ← NewIdempotencyReceipt.new (digests deriveKey request) target now
  executeWithReceipt (system.shards target) target receipt execution

def outcomeEvents (worker : Nat) (request : Request) : IdempotentExecuteOutcome → List Event
  | .executed receipt => [.committed worker request receipt]
  | .existing _ => []

def outcomeReply (request : Request) : IdempotentExecuteOutcome → EngineResult IdempotentWriteResult
  | .executed receipt => idempotencyResultFromReceipt receipt (digests deriveKey request)
      request.write.targetShard.toNat .created
  | .existing receipt => idempotencyResultFromReceipt receipt (digests deriveKey request)
      request.write.targetShard.toNat .replayed

def step : IdempotencyAction → Option IdempotencySystem
  | .admission worker request =>
    let keyDigest := (digests deriveKey request).key
    if (system.workers worker).isSome then none
    else if system.active request.process keyDigest then
      some { system with
        history := system.history ++ [.replied worker request (.error keyBusy)] }
    else
      some { system.setPhase worker request .admitted with
        active := Function.update system.active request.process
          (Function.update (system.active request.process) keyDigest true) }
  | .lock worker now =>
    match system.workers worker with
    | some ⟨request, .admitted⟩ =>
      let keyDigest := (digests deriveKey request).key
      match system.stripes (stripe keyDigest) with
      | some holder =>
        some (system.finish deriveKey worker ⟨request, .admitted⟩
          [.replied worker request (.error (system.stripeError request holder))])
      | none =>
        if now ≤ maxCreatedUnixMs then
          some { system.setPhase worker request (.scanning now 0 none) with
            stripes := Function.update system.stripes (stripe keyDigest) (some worker)
            history := system.history ++ [.clock worker request now] }
        else
          some (system.finish deriveKey worker ⟨request, .admitted⟩
            [.aborted worker request clockExhausted])
    | _ => none
  | .find worker =>
    match system.workers worker with
    | some ⟨request, .scanning now shard found⟩ =>
      if shard < shardCount then
        match loadReceipt (system.shards shard) (digests deriveKey request).key with
        | some receipt =>
          if receipt.expiresUnixMs > now then
            some (system.advance deriveKey worker ⟨request, .scanning now shard found⟩ now
              shard found (some receipt))
          else some (system.setPhase worker request (.deleting now shard found))
        | none =>
          some (system.advance deriveKey worker ⟨request, .scanning now shard found⟩ now
            shard found none)
      else
        match found with
        | some receipt =>
          some (system.finish deriveKey worker ⟨request, .scanning now shard found⟩
            [.replied worker request (idempotencyResultFromReceipt receipt
              (digests deriveKey request) request.write.targetShard.toNat .replayed)])
        | none => none
    | _ => none
  | .expire worker outcome =>
    match system.workers worker with
    | some ⟨request, .deleting now shard found⟩ =>
      let expired := expireReceipt (system.shards shard) (digests deriveKey request).key now
      match outcome with
      | .committed =>
        some ((system.setShard shard expired.2).advance deriveKey worker
          ⟨request, .deleting now shard found⟩ now shard found expired.1)
      | .failed error tookEffect =>
        some ((if tookEffect then system.setShard shard expired.2 else system).finish
          deriveKey worker ⟨request, .deleting now shard found⟩
          [.aborted worker request error])
    | _ => none
  | .execute worker execution outcome =>
    match system.workers worker with
    | some ⟨request, .scanning now shard none⟩ =>
      let ending : Worker := ⟨request, .scanning now shard none⟩
      let target := request.write.targetShard.toNat
      if shard < shardCount then none
      else
        match executeOn deriveKey shardCount system request now execution, outcome with
        | .error error, _ =>
          some (system.finish deriveKey worker ending [.replied worker request (.error error)])
        | .ok (executed, table), .committed =>
          some ((system.setShard target table).finish deriveKey worker ending
            (outcomeEvents worker request executed ++
              [.replied worker request (outcomeReply deriveKey request executed)]))
        | .ok (executed, table), .failed error true =>
          some ((system.setShard target table).finish deriveKey worker ending
            (outcomeEvents worker request executed ++ [.aborted worker request error]))
        | .ok _, .failed error false =>
          some (system.finish deriveKey worker ending [.aborted worker request error])
    | _ => none
  | .fail worker error =>
    match system.workers worker with
    | some ending =>
      some (system.finish deriveKey worker ending [.aborted worker ending.request error])
    | none => none
  | .crash process =>
    -- The system closes the files of the process, which frees its stripes.
    let gone := fun worker =>
      (system.workers worker).any fun found => found.request.process = process
    some { system with
      workers := fun worker => if gone worker then none else system.workers worker
      active := Function.update system.active process fun _ => false
      stripes := fun index => (system.stripes index).filter fun holder => !gone holder }

end

end IdempotencySystem

end BriskDB.Idempotency
