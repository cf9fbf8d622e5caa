import BriskDB.Engine.IdempotentWrites

/-! # Idempotent writes execute at most once

The stripe makes the requests of one key follow each other. So a request that found nothing on the
shards it looked at still finds nothing there, and a receipt is written only when no shard has one
for its key. A receipt stays until some request reads a clock at or past its expiration; up to then
every other request of its key finds it.
-/

namespace BriskDB.Idempotency.IdempotencySystem

open Result List Function

variable {deriveKey : List UInt8 → List UInt8 → Blake3.Digest} {shardCount : Nat}
  {system next : IdempotencySystem} {allowed : Request → Prop}

variable (deriveKey)

structure Describes (request : Request) (receipt : IdempotencyReceipt) : Prop where
  keyDigest_eq : receipt.keyDigest = (digests deriveKey request).key
  requestDigest_eq : receipt.requestDigest = (digests deriveKey request).request
  targetShard_eq : receipt.targetShard = request.write.targetShard.toNat

variable (allowed)

def Committed (history : List Event) (receipt : IdempotencyReceipt) : Prop :=
  ∃ worker request, Event.committed worker request receipt ∈ history ∧ allowed request ∧
    Describes deriveKey request receipt

def Truthful (history : List Event) : Event → Prop
  | .replied _ request (.ok result) => allowed request ∧ ∃ receipt,
      Committed deriveKey allowed history receipt ∧
      receipt.keyDigest = (digests deriveKey request).key ∧
      receipt.requestDigest = (digests deriveKey request).request ∧
      result.shard = receipt.targetShard ∧ result.rowsAffected = receipt.rowsAffected
  | .committed _ request receipt => allowed request ∧ Describes deriveKey request receipt
  | _ => True

/-- A request at work is one that was presented, holds its stripe from the lock on, and has in hand
what the shards that it has looked at have of its key. -/
structure Serves (shards : Nat → ReceiptTable) (stripes : UInt8 → Option Nat) (history : List Event)
    (worker : Nat) (found : Worker) : Prop where
  permitted : allowed found.request
  held : found.phase.scan?.isSome = true →
    stripes (stripe (digests deriveKey found.request).key) = some worker
  scanned : ∀ now shard, found.phase.scan? = some (now, shard, none) →
    ∀ other < shard, NoReceipt (shards other) (digests deriveKey found.request).key
  noted : ∀ now shard receipt, found.phase.scan? = some (now, shard, some receipt) →
    Committed deriveKey allowed history receipt

structure Consistent (shardCount : Nat)
    (allowed : Request → Prop) (system : IdempotencySystem) : Prop where
  bounded : ∀ shard, (system.shards shard).rows.length ≤ maxIdempotencyReceiptsPerShard
  within : ∀ shard receipt, receipt ∈ (system.shards shard).rows →
    receipt.targetShard = shard ∧ shard < shardCount
  alone : ∀ shard shard' receipt receipt', receipt ∈ (system.shards shard).rows →
    receipt' ∈ (system.shards shard').rows → receipt.keyDigest = receipt'.keyDigest → shard = shard'
  committed : ∀ shard receipt, receipt ∈ (system.shards shard).rows →
    Committed deriveKey allowed system.history receipt
  serves : ∀ worker found, system.workers worker = some found →
    Serves deriveKey allowed system.shards system.stripes system.history worker found
  truthful : ∀ event ∈ system.history, Truthful deriveKey allowed system.history event

variable {allowed} {deriveKey} {receipt : IdempotencyReceipt} {worker now : Nat}
  {history : List Event} {other shard : Nat} {found : Worker} {request : Request}
    {outcome : TransactionOutcome} {execution : EngineResult Nat}

theorem Committed.mono (h : Committed deriveKey allowed history receipt) (events : List Event) :
    Committed deriveKey allowed (history ++ events) receipt := by
  obtain ⟨worker, request, hmem, hrequest⟩ := h
  exact ⟨worker, request, mem_append_left _ hmem, hrequest⟩

theorem Truthful.mono {event : Event}
    (h : Truthful deriveKey allowed history event) (events : List Event) :
    Truthful deriveKey allowed (history ++ events) event := by
  cases event with
  | clock | aborted => trivial
  | committed worker request receipt => exact h
  | replied worker request reply =>
    cases reply with
    | error error => trivial
    | ok result =>
      obtain ⟨hrequest, receipt, hcommitted, hrest⟩ := h
      exact ⟨hrequest, receipt, hcommitted.mono events, hrest⟩

theorem workers_finish {ending : Worker} {events : List Event} :
    (system.finish deriveKey worker ending events).workers other = some found ↔
      other ≠ worker ∧ system.workers other = some found := by
  simp [finish, update_apply]

theorem workers_setPhase {phase : Phase} :
    (system.setPhase worker request phase).workers other = some found ↔
      (other = worker ∧ found = ⟨request, phase⟩) ∨
        (other ≠ worker ∧ system.workers other = some found) := by
  simp only [setPhase, update_apply]
  grind

namespace Consistent

theorem initial : Consistent deriveKey shardCount allowed .initial where
  bounded := fun _ => Nat.zero_le _
  within := nofun
  alone := nofun
  committed := nofun
  serves := nofun
  truthful := nofun

section

variable (h : Consistent deriveKey shardCount allowed system)
include h

variable {found : Worker} {worker shard : Nat} {events : List Event} {table : ReceiptTable}

theorem eq_of_held {found' : Worker} (hworker : system.workers worker = some found)
    (hother : system.workers other = some found') (hscan : found.phase.scan?.isSome = true)
    (hscan' : found'.phase.scan?.isSome = true)
    (hstripe : stripe (digests deriveKey found.request).key =
      stripe (digests deriveKey found'.request).key) : worker = other := by
  have hheld := (h.serves worker found hworker).held hscan
  rw [hstripe, (h.serves other found' hother).held hscan'] at hheld
  exact (Option.some.inj hheld).symm

theorem addEvents
    (hevents : ∀ event ∈ events, Truthful deriveKey allowed (system.history ++ events) event) :
    Consistent deriveKey shardCount allowed { system with history := system.history ++ events } :=
  { h with
    committed := fun shard receipt hmem => (h.committed shard receipt hmem).mono events
    serves := fun worker found hworker =>
      { h.serves worker found hworker with
        noted := fun now shard receipt hscan =>
          ((h.serves worker found hworker).noted now shard receipt hscan).mono events }
    truthful := by
      intro event hmem
      rcases mem_append.mp hmem with hmem | hmem
      · exact (h.truthful event hmem).mono events
      · exact hevents event hmem }

theorem finish {ending : Worker} (hworker : system.workers worker = some ending)
    (hevents : ∀ event ∈ events, Truthful deriveKey allowed (system.history ++ events) event) :
    Consistent deriveKey shardCount allowed (system.finish deriveKey worker ending events) := by
  have hadded := h.addEvents hevents
  refine { hadded with serves := fun other found hfound => ?_ }
  obtain ⟨hne, hfound⟩ := workers_finish.mp hfound
  refine { hadded.serves other found hfound with held := fun hscan => ?_ }
  have hheld := (h.serves other found hfound).held hscan
  simp only [IdempotencySystem.finish]
  split
  next hending =>
    -- Another request under a stripe has another stripe.
    rw [update_of_ne]
    · exact hheld
    · intro hsame
      exact hne (h.eq_of_held hfound hworker hscan hending hsame)
  next => exact hheld

theorem setPhase {old : Worker}
    (hworker : system.workers worker = some old) {phase : Phase} {shard' : Nat}
    {noted noted' : Option IdempotencyReceipt} (hold : old.phase.scan? = some (now, shard, noted))
    (hphase : phase.scan? = some (now, shard', noted'))
    (hscanned : noted' = none → ∀ other < shard',
      NoReceipt (system.shards other) (digests deriveKey old.request).key)
    (hnoted : ∀ receipt, noted' = some receipt →
      Committed deriveKey allowed system.history receipt) :
    Consistent deriveKey shardCount allowed (system.setPhase worker old.request phase) := by
  refine { h with serves := fun other found hfound => ?_ }
  rcases workers_setPhase.mp hfound with ⟨rfl, rfl⟩ | ⟨-, hfound⟩
  · have hserves := h.serves _ _ hworker
    refine ⟨hserves.permitted, fun _ => hserves.held (by rw [hold]; rfl), ?_, ?_⟩
    · intro now' place hscan
      cases hphase.symm.trans hscan
      exact hscanned rfl
    · intro now' place receipt hscan
      cases hphase.symm.trans hscan
      exact hnoted receipt rfl
  · exact h.serves other found hfound

theorem shrinkShard (hrows : ∀ receipt ∈ table.rows, receipt ∈ (system.shards shard).rows)
    (hlength : table.rows.length ≤ (system.shards shard).rows.length) :
    Consistent deriveKey shardCount allowed (system.setShard shard table) := by
  have hold : ∀ other receipt, receipt ∈ ((system.setShard shard table).shards other).rows →
      receipt ∈ (system.shards other).rows := by
    intro other receipt hmem
    simp only [setShard, update_apply] at hmem
    split at hmem
    next heq => exact heq ▸ hrows receipt hmem
    next => exact hmem
  exact { h with
    bounded := by
      intro other
      simp only [setShard, update_apply]
      split
      next heq => exact hlength.trans (h.bounded shard)
      next => exact h.bounded other
    within := fun other receipt hmem => h.within other receipt (hold other receipt hmem)
    alone := fun left right receipt receipt' hleft hright =>
      h.alone left right receipt receipt' (hold left receipt hleft) (hold right receipt' hright)
    committed := fun other receipt hmem => h.committed other receipt (hold other receipt hmem)
    serves := fun worker found hworker =>
      { h.serves worker found hworker with
        scanned := fun now place hscan other hlt receipt hmem =>
          (h.serves worker found hworker).scanned now place hscan other hlt receipt
            (hold other receipt hmem) } }

/-- A shard gets the receipt of a key that no shard has, from the request holding the key. -/
theorem storeReceipt {stored : IdempotencyReceipt}
    (hworker : system.workers worker = some found) (hscan : found.phase.scan?.isSome = true)
    (hkey : stored.keyDigest = (digests deriveKey found.request).key)
    (hfree : ∀ other, NoReceipt (system.shards other) stored.keyDigest)
    (hplace : stored.targetShard = shard ∧ shard < shardCount)
    (hcommitted : Committed deriveKey allowed system.history stored)
    (hrows : ∀ receipt ∈ table.rows, receipt = stored ∨ receipt ∈ (system.shards shard).rows)
    (hlength : table.rows.length ≤ maxIdempotencyReceiptsPerShard) (events : List Event)
    (hevents : ∀ event ∈ events, Truthful deriveKey allowed (system.history ++ events) event) :
    Consistent deriveKey shardCount allowed
      ((system.setShard shard table).finish deriveKey worker found events) := by
  have hold : ∀ other receipt, receipt ∈ ((system.setShard shard table).shards other).rows →
      (other = shard ∧ receipt = stored) ∨ receipt ∈ (system.shards other).rows := by
    intro other receipt hmem
    simp only [setShard, update_apply] at hmem
    split at hmem
    next heq =>
      simp [*]
    next => exact .inr hmem
  have hfinished := h.finish hworker hevents
  exact { hfinished with
    bounded := by
      intro other
      change ((system.setShard shard table).shards other).rows.length ≤ _
      simp only [setShard, update_apply]
      split
      next => exact hlength
      next => exact h.bounded other
    within := by
      intro other receipt hmem
      rcases hold other receipt hmem with ⟨rfl, rfl⟩ | hmem
      · exact hplace
      · exact h.within other receipt hmem
    alone := by
      intro left right receipt receipt' hleft hright hsame
      rcases hold left receipt hleft with ⟨rfl, rfl⟩ | hbefore
      · rcases hold right receipt' hright with ⟨rfl, -⟩ | hbefore'
        · rfl
        · exact absurd hsame.symm (hfree right receipt' hbefore')
      · rcases hold right receipt' hright with ⟨rfl, rfl⟩ | hbefore'
        · exact absurd hsame (hfree left receipt hbefore)
        · exact h.alone left right receipt receipt' hbefore hbefore' hsame
    committed := by
      intro other receipt hmem
      rcases hold other receipt hmem with ⟨-, rfl⟩ | hmem
      · exact hcommitted.mono events
      · exact hfinished.committed other receipt hmem
    serves := by
      intro other other' hother
      refine { hfinished.serves other other' hother with
        scanned := fun now place hscan' index hlt receipt hmem hsame => ?_ }
      obtain ⟨hne, hother⟩ := workers_finish.mp hother
      rcases hold index receipt hmem with ⟨-, rfl⟩ | hmem
      · -- Only the request that just ended had this key.
        refine hne (h.eq_of_held hother hworker ?_ hscan ?_)
        · rw [hscan']
          rfl
        · rw [← hsame, hkey]
      · exact (h.serves other other' hother).scanned now place hscan' index hlt receipt hmem hsame }

end

end Consistent

theorem noteReceipt_eq_ok {keyDigest : Blake3.Digest}
    {found : Option IdempotencyReceipt} {noted : IdempotencyReceipt}
    (h : noteReceipt keyDigest shard found receipt = .ok noted) : noted = receipt := by
  unfold noteReceipt at h
  rw [ite_throw_eq_ok, ite_throw_eq_ok, ite_throw_eq_ok] at h
  exact (Except.ok.inj h.2.2.2).symm

theorem idempotencyResultFromReceipt_eq_ok
    {digests : IdempotencyDigests} {status : IdempotencyStatus} {result : IdempotentWriteResult} :
    idempotencyResultFromReceipt receipt digests shard status = .ok result ↔
      receipt.keyDigest = digests.key ∧ receipt.requestDigest = digests.request ∧
        receipt.targetShard = shard ∧ ⟨receipt.targetShard, receipt.rowsAffected, status⟩ =
          result := by
  unfold idempotencyResultFromReceipt
  rw [ite_throw_eq_ok, ite_throw_eq_ok, ite_throw_eq_ok]
  simp

theorem truthful_result (h : Committed deriveKey allowed history receipt) (worker : Nat)
    (hrequest : allowed request) (shard : Nat) (status : IdempotencyStatus) :
    Truthful deriveKey allowed history (.replied worker request
      (idempotencyResultFromReceipt receipt (digests deriveKey request) shard status)) := by
  cases hresult : idempotencyResultFromReceipt receipt (digests deriveKey request) shard status with
  | error error => trivial
  | ok result =>
    obtain ⟨hkey, hsame, -, rfl⟩ := idempotencyResultFromReceipt_eq_ok.mp hresult
    exact ⟨hrequest, receipt, h, hkey, hsame, rfl, rfl⟩

namespace Consistent

theorem advance (h : Consistent deriveKey shardCount allowed system)
    (hworker : system.workers worker = some found) {noted current : Option IdempotencyReceipt}
    (hscan : found.phase.scan? = some (now, shard, noted))
    (hnone : current = none → NoReceipt (system.shards shard) (digests deriveKey found.request).key)
    (hsome : ∀ receipt, current = some receipt →
      Committed deriveKey allowed system.history receipt) :
    Consistent deriveKey shardCount allowed
      (system.advance deriveKey worker found now shard noted current) := by
  cases current with
  | none =>
    refine h.setPhase hworker hscan rfl ?_ ?_
    · rintro rfl other hlt
      rcases Nat.lt_succ_iff_lt_or_eq.mp hlt with hlt | rfl
      · exact (h.serves worker found hworker).scanned now shard hscan other hlt
      · exact hnone rfl
    · rintro receipt rfl
      exact (h.serves worker found hworker).noted now shard receipt hscan
  | some receipt =>
    simp only [IdempotencySystem.advance]
    split
    next noted hnoted =>
      cases noteReceipt_eq_ok hnoted
      refine h.setPhase hworker hscan rfl nofun ?_
      omega
    next => exact h.finish hworker (forall_mem_singleton.mpr trivial)

theorem crash (h : Consistent deriveKey shardCount allowed system) {process : Nat}
    (hstep : system.step deriveKey shardCount (.crash process) = some next) :
    Consistent deriveKey shardCount allowed next := by
  cases hstep
  have hworkers : ∀ worker found,
      (if (system.workers worker).any fun found => found.request.process = process then none
        else system.workers worker) = some found →
      system.workers worker = some found ∧ found.request.process ≠ process := by
    intro worker found hfound
    split at hfound
    next => cases hfound
    next hgone =>
      grind
  refine { h with serves := fun worker found hfound => ?_ }
  obtain ⟨hfound, hprocess⟩ := hworkers worker found hfound
  refine { h.serves worker found hfound with held := fun hscan => ?_ }
  simp [(h.serves worker found hfound).held hscan, hfound, hprocess]

end Consistent

theorem step_admission
    (h : system.step deriveKey shardCount (.admission worker request) = some next) :
    system.workers worker = none ∧
      (next = { system with history := system.history ++
        [.replied worker request (.error keyBusy)] } ∨
        next = { system.setPhase worker request .admitted with
          active := Function.update system.active request.process (Function.update
            (system.active request.process) (digests deriveKey request).key true) }) := by
  simp only [step] at h
  split at h
  next => cases h
  next hfree =>
    refine ⟨by simpa using hfree, ?_⟩
    grind

theorem step_lock (h : system.step deriveKey shardCount (.lock worker now) = some next) :
    ∃ request, system.workers worker = some ⟨request, .admitted⟩ ∧
      ((∃ holder, next = system.finish deriveKey worker ⟨request, .admitted⟩
          [.replied worker request (.error (system.stripeError request holder))]) ∨
        (system.stripes (stripe (digests deriveKey request).key) = none ∧
          next = { system.setPhase worker request (.scanning now 0 none) with
            stripes := Function.update system.stripes (stripe (digests deriveKey request).key)
              (some worker)
            history := system.history ++ [.clock worker request now] }) ∨
        next = system.finish deriveKey worker ⟨request, .admitted⟩
          [.aborted worker request clockExhausted]) := by
  simp only [step] at h
  split at h
  next request hworker =>
    refine ⟨request, hworker, ?_⟩
    split at h
    next holder _ => exact .inl ⟨holder, (Option.some.inj h).symm⟩
    next hfree =>
      grind
  next => cases h

theorem step_find (h : system.step deriveKey shardCount (.find worker) = some next) :
    ∃ request now shard noted, system.workers worker = some ⟨request, .scanning now shard noted⟩ ∧
      ((shard < shardCount ∧ ∃ current,
          loadReceipt (system.shards shard) (digests deriveKey request).key = current ∧
          (∀ receipt, current = some receipt → now < receipt.expiresUnixMs) ∧
          next = system.advance deriveKey worker
            ⟨request, .scanning now shard noted⟩ now shard noted
            current) ∨
        (shard < shardCount ∧ ∃ receipt,
          loadReceipt (system.shards shard) (digests deriveKey request).key = some receipt ∧
          receipt.expiresUnixMs ≤ now ∧
          next = system.setPhase worker request (.deleting now shard noted)) ∨
        (¬ shard < shardCount ∧ ∃ receipt, noted = some receipt ∧
          next = system.finish deriveKey worker ⟨request, .scanning now shard noted⟩
            [.replied worker request (idempotencyResultFromReceipt receipt
              (digests deriveKey request) request.write.targetShard.toNat .replayed)])) := by
  simp only [step] at h
  split at h
  next request now shard noted hworker =>
    refine ⟨request, now, shard, noted, hworker, ?_⟩
    split at h
    next hlt =>
      split at h
      next receipt hload =>
        split at h
        next hactive =>
          grind
        next hexpired =>
          exact .inr (.inl ⟨hlt, receipt, hload, Nat.not_lt.mp hexpired, (Option.some.inj h).symm⟩)
      next hload =>
        exact .inl ⟨hlt, none, hload, nofun, (Option.some.inj h).symm⟩
    next hend =>
      cases noted with
      | some receipt => exact .inr (.inr ⟨hend, receipt, rfl, (Option.some.inj h).symm⟩)
      | none => cases h
  next => cases h

theorem step_expire (h : system.step deriveKey shardCount (.expire worker outcome) = some next) :
    ∃ request now shard noted current table,
      system.workers worker = some ⟨request, .deleting now shard noted⟩ ∧
      expireReceipt (system.shards shard) (digests deriveKey request).key now = (current, table) ∧
      (next = (system.setShard shard table).advance deriveKey worker
          ⟨request, .deleting now shard noted⟩ now shard noted current ∨
        (∃ error, next = (system.setShard shard table).finish deriveKey worker
          ⟨request, .deleting now shard noted⟩ [.aborted worker request error]) ∨
        ∃ error, next = system.finish deriveKey worker ⟨request, .deleting now shard noted⟩
          [.aborted worker request error]) := by
  simp only [step] at h
  split at h
  next request now shard noted hworker =>
    refine ⟨request, now, shard, noted, _, _, hworker, rfl, ?_⟩
    split at h
    next => exact .inl (Option.some.inj h).symm
    next error tookEffect =>
      cases tookEffect with
      | true => exact .inr (.inl ⟨error, (Option.some.inj h).symm⟩)
      | false => exact .inr (.inr ⟨error, (Option.some.inj h).symm⟩)
  next => cases h

theorem step_execute
    (h : system.step deriveKey shardCount (.execute worker execution outcome) = some next) :
    ∃ request now shard, system.workers worker = some ⟨request, .scanning now shard none⟩ ∧
      ¬ shard < shardCount ∧
      ((∃ error, next = system.finish deriveKey worker ⟨request, .scanning now shard none⟩
          [.replied worker request (.error error)]) ∨
        (∃ error, next = system.finish deriveKey worker ⟨request, .scanning now shard none⟩
          [.aborted worker request error]) ∨
        ∃ executed table last,
          executeOn deriveKey shardCount system request now execution = .ok (executed, table) ∧
          (last = .replied worker request (outcomeReply deriveKey request executed) ∨
            ∃ error, last = .aborted worker request error) ∧
          next = (system.setShard request.write.targetShard.toNat table).finish deriveKey worker
            ⟨request, .scanning now shard none⟩
              (outcomeEvents worker request executed ++ [last])) := by
  simp only [step] at h
  split at h
  next request now shard hworker =>
    refine ⟨request, now, shard, hworker, ?_⟩
    split at h
    next => cases h
    next hend =>
      refine ⟨hend, ?_⟩
      split at h
      next error _ => exact .inl ⟨error, (Option.some.inj h).symm⟩
      next executed table hexecute =>
        exact .inr (.inr ⟨executed, table, _, hexecute, .inl rfl, (Option.some.inj h).symm⟩)
      next executed table error hexecute =>
        exact .inr (.inr ⟨executed, table, _, hexecute, .inr ⟨error, rfl⟩,
          (Option.some.inj h).symm⟩)
      next error _ => exact .inr (.inl ⟨error, (Option.some.inj h).symm⟩)
  next => cases h

theorem step_fail {error : EngineError}
    (h : system.step deriveKey shardCount (.fail worker error) = some next) :
    ∃ ending, system.workers worker = some ending ∧
      next = system.finish deriveKey worker ending [.aborted worker ending.request error] := by
  simp only [step] at h
  grind [Option.some.inj]

variable (deriveKey) in
def receiptOf (request : Request) (now rowsAffected : Nat) : IdempotencyReceipt :=
  ⟨(digests deriveKey request).key, (digests deriveKey request).request,
    request.write.targetShard.toNat, rowsAffected, now, now + idempotencyReceiptRetentionMs⟩

theorem describes_receiptOf (request : Request) (now rowsAffected : Nat) :
    Describes deriveKey request (receiptOf deriveKey request now rowsAffected) := ⟨rfl, rfl, rfl⟩

theorem Consistent.noReceipt (h : Consistent deriveKey shardCount allowed system)
    (hworker : system.workers worker = some ⟨request, .scanning now shard none⟩)
    (hend : ¬ shard < shardCount) (other : Nat) :
    NoReceipt (system.shards other) (digests deriveKey request).key := by
  rcases Nat.lt_or_ge other shard with hlt | hge
  · exact (h.serves worker _ hworker).scanned now shard rfl other hlt
  · intro receipt hmem
    have := (h.within other receipt hmem).2
    omega

theorem Consistent.executed (h : Consistent deriveKey shardCount allowed system)
    {executed : IdempotentExecuteOutcome} {table : ReceiptTable}
    (hworker : system.workers worker = some ⟨request, .scanning now shard none⟩)
    (hend : ¬ shard < shardCount)
    (hexecute : executeOn deriveKey shardCount system request now execution =
      .ok (executed, table)) :
    ∃ rowsAffected, executed = .executed (receiptOf deriveKey request now rowsAffected) ∧
      request.write.targetShard.toNat < shardCount ∧
      receiptOf deriveKey request now rowsAffected ∈ table.rows ∧
      table.rows.length ≤ maxIdempotencyReceiptsPerShard ∧
      (∀ receipt ∈ table.rows, receipt = receiptOf deriveKey request now rowsAffected ∨
        receipt ∈ (system.shards request.write.targetShard.toNat).rows) ∧
      ∀ receipt ∈ (system.shards request.write.targetShard.toNat).rows,
        now < receipt.expiresUnixMs → receipt ∈ table.rows := by
  unfold executeOn at hexecute
  rw [ite_throw_eq_ok] at hexecute
  obtain ⟨htarget, hexecute⟩ := hexecute
  obtain ⟨new, hnew, hexecute⟩ := bind_eq_ok.mp hexecute
  unfold NewIdempotencyReceipt.new at hnew
  rw [ite_throw_eq_ok, ite_throw_eq_ok] at hnew
  cases hnew.2.2
  obtain ⟨-, hkept, hlength, hcases⟩ := executeWithReceipt_cases hexecute
  have hfree := h.noReceipt hworker hend request.write.targetShard.toNat
  rcases hcases with ⟨existing, -, hmem, hkey, -⟩ | ⟨rowsAffected, -, rfl, hstored, hrows⟩
  · exact absurd hkey (hfree existing hmem)
  · exact ⟨rowsAffected, rfl, Nat.not_le.mp htarget, hstored, hlength (h.bounded _), hrows,
      fun receipt hmem hactive => hkept receipt hmem (hfree receipt hmem) hactive⟩

namespace Consistent

section

variable (h : Consistent deriveKey shardCount allowed system)
include h

variable {worker : Nat} {request : Request}

theorem admission (hrequest : allowed request) (active : Nat → Blake3.Digest → Bool) :
    Consistent deriveKey shardCount allowed
      { system.setPhase worker request .admitted with active := active } := by
  refine { h with serves := fun other found hfound => ?_ }
  rcases workers_setPhase.mp hfound with ⟨-, rfl⟩ | ⟨-, hfound⟩
  · exact ⟨hrequest, nofun, nofun, nofun⟩
  · exact h.serves other found hfound

theorem lock (hworker : system.workers worker = some ⟨request, .admitted⟩)
    (hfree : system.stripes (stripe (digests deriveKey request).key) = none) :
    Consistent deriveKey shardCount allowed
      { system.setPhase worker request (.scanning now 0 none) with
        stripes := Function.update system.stripes (stripe (digests deriveKey request).key)
          (some worker)
        history := system.history ++ [.clock worker request now] } := by
  have hadded : Consistent deriveKey shardCount allowed
      { system with history := system.history ++ [.clock worker request now] } :=
    h.addEvents (forall_mem_singleton.mpr trivial)
  refine { hadded with serves := fun other found hfound => ?_ }
  rcases workers_setPhase.mp hfound with ⟨rfl, rfl⟩ | ⟨-, hfound⟩
  · refine ⟨(h.serves _ _ hworker).permitted, fun _ => update_self .., ?_, nofun⟩
    intro now' shard hscan
    cases hscan
    exact fun index hlt => absurd hlt (Nat.not_lt_zero index)
  · refine { hadded.serves other found hfound with held := fun hscan => ?_ }
    have hheld := (h.serves other found hfound).held hscan
    grind

theorem finishError
    {ending : Worker} (hworker : system.workers worker = some ending) {event : Event}
    (hevent : (∃ error, event = .replied worker ending.request (.error error)) ∨
      ∃ error, event = .aborted worker ending.request error) :
    Consistent deriveKey shardCount allowed (system.finish deriveKey worker ending [event]) := by
  refine h.finish hworker (forall_mem_singleton.mpr ?_)
  rcases hevent with ⟨error, rfl⟩ | ⟨error, rfl⟩ <;> trivial

theorem step {action : IdempotencyAction}
    (hallowed : ∀ worker request, action = .admission worker request → allowed request)
    (hstep : system.step deriveKey shardCount action = some next) :
    Consistent deriveKey shardCount allowed next := by
  cases action with
  | admission worker request =>
    obtain ⟨-, rfl | rfl⟩ := step_admission hstep
    · exact h.addEvents (forall_mem_singleton.mpr trivial)
    · exact h.admission (hallowed worker request rfl) _
  | lock worker now =>
    obtain ⟨request, hworker, ⟨holder, rfl⟩ | ⟨hfree, rfl⟩ | rfl⟩ := step_lock hstep
    · exact h.finishError hworker (.inl ⟨_, rfl⟩)
    · exact h.lock hworker hfree
    · exact h.finishError hworker (.inr ⟨_, rfl⟩)
  | find worker =>
    obtain ⟨request, now, shard, noted, hworker, ⟨-, current, hload, -, rfl⟩ |
      ⟨-, receipt, -, -, rfl⟩ | ⟨-, receipt, rfl, rfl⟩⟩ := step_find hstep
    · refine h.advance hworker rfl ?_ ?_
      · rintro rfl
        exact loadReceipt_eq_none.mp hload
      · rintro receipt rfl
        exact h.committed shard receipt (loadReceipt_eq_some.mp hload).1
    · refine h.setPhase hworker rfl rfl ?_ ?_
      · rintro rfl
        exact (h.serves worker _ hworker).scanned now shard rfl
      · rintro receipt rfl
        exact (h.serves worker _ hworker).noted now shard receipt rfl
    · refine h.finish hworker (forall_mem_singleton.mpr ?_)
      have hserves := h.serves worker _ hworker
      exact truthful_result ((hserves.noted now shard receipt rfl).mono _) _ hserves.permitted _ _
  | expire worker outcome =>
    obtain ⟨request, now, shard, noted, current, table, hworker, hexpire, hcases⟩ :=
      step_expire hstep
    obtain ⟨hrows, -, hlength, hcurrent⟩ := expireReceipt_cases hexpire
    have hshrunk := h.shrinkShard hrows hlength
    rcases hcases with rfl | ⟨error, rfl⟩ | ⟨error, rfl⟩
    · refine hshrunk.advance hworker rfl ?_ ?_
      · rintro rfl
        rcases hcurrent with ⟨-, hnone⟩ | ⟨_, hsome, -⟩
        · simpa [setShard] using hnone
        · cases hsome
      · rintro receipt rfl
        rcases hcurrent with ⟨hnone, -⟩ | ⟨_, ⟨⟩, hmem, -⟩
        · cases hnone
        · exact h.committed shard receipt (hrows receipt hmem)
    · exact hshrunk.finishError hworker (.inr ⟨error, rfl⟩)
    · exact h.finishError hworker (.inr ⟨error, rfl⟩)
  | execute worker execution outcome =>
    obtain ⟨request, now, shard, hworker, hend, ⟨error, rfl⟩ | ⟨error, rfl⟩ |
      ⟨executed, table, last, hexecute, hlast, rfl⟩⟩ := step_execute hstep
    · exact h.finishError hworker (.inl ⟨error, rfl⟩)
    · exact h.finishError hworker (.inr ⟨error, rfl⟩)
    · obtain ⟨rowsAffected, rfl, htarget, -, hlength, hrows, -⟩ :=
        h.executed hworker hend hexecute
      have hrequest : allowed request := (h.serves worker _ hworker).permitted
      have hdescribes : Describes deriveKey request
          (receiptOf deriveKey request now rowsAffected) := describes_receiptOf ..
      -- The commit is known before the shard has its receipt.
      have hadded : Consistent deriveKey shardCount allowed { system with
          history := system.history ++ [.committed worker request
            (receiptOf deriveKey request now rowsAffected)] } :=
        h.addEvents (forall_mem_singleton.mpr ⟨hrequest, hdescribes⟩)
      have hcommitted : Committed deriveKey allowed (system.history ++ [.committed worker request
          (receiptOf deriveKey request now rowsAffected)])
          (receiptOf deriveKey request now rowsAffected) :=
        ⟨worker, request, mem_append_right _ (mem_singleton_self _), hrequest,
          hdescribes⟩
      have hfinished := hadded.storeReceipt hworker rfl hdescribes.keyDigest_eq
        (h.noReceipt hworker hend) ⟨rfl, htarget⟩ hcommitted hrows hlength [last] (by
          rw [forall_mem_singleton]
          rcases hlast with rfl | ⟨error, rfl⟩
          · exact truthful_result (hcommitted.mono _) _ hrequest _ _
          · trivial)
      have hsame : (setShard { system with history := system.history ++ [.committed worker request
            (receiptOf deriveKey request now rowsAffected)] } request.write.targetShard.toNat
              table).finish deriveKey worker ⟨request, .scanning now shard none⟩ [last] =
          (system.setShard request.write.targetShard.toNat table).finish deriveKey worker
            ⟨request, .scanning now shard none⟩ (outcomeEvents worker request
              (.executed (receiptOf deriveKey request now rowsAffected)) ++ [last]) := by
        simp [IdempotencySystem.finish, setShard, outcomeEvents]
      rw [← hsame]
      exact hfinished
  | fail worker error =>
    obtain ⟨ending, hworker, rfl⟩ := step_fail hstep
    exact h.finishError hworker (.inr ⟨error, rfl⟩)
  | crash process => exact h.crash hstep

end

end Consistent

end BriskDB.Idempotency.IdempotencySystem
