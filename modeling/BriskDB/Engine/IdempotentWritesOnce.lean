import BriskDB.Engine.IdempotentWritesSafety
import BriskDB.Lib.Blake3

/-!
# The retention of receipts

While no request reads a clock at or past the expiration of a receipt, the receipt stays on its
shard, and whoever holds its key walks over the shards with nothing in hand up to that shard and
with the receipt after it. So the key is not used for another write, and its requests get the
result of the receipt or a conflict.
-/

namespace BriskDB.Idempotency.IdempotencySystem

open Result Transition List

variable {deriveKey : List UInt8 → List UInt8 → Blake3.Digest} {shardCount : Nat}
  {system next : IdempotencySystem} {allowed : Request → Prop} {receipt : IdempotencyReceipt}
  {first : Request}

def ReplyOk (first : Request) (receipt : IdempotencyReceipt) (request : Request)
    (reply : EngineResult IdempotentWriteResult) : Prop :=
  (∃ error, reply = .error error ∧ error.kind = .busy) ∨
    (request.write = first.write ∧
      ∃ status, reply = .ok ⟨receipt.targetShard, receipt.rowsAffected, status⟩) ∨
    (request.write ≠ first.write ∧ reply = .error idempotencyConflict)

def EventOk (first : Request) (receipt : IdempotencyReceipt) : Event → Prop
  | .committed _ request _ => request.key ≠ first.key
  | .replied _ request reply => request.key = first.key → ReplyOk first receipt request reply
  | _ => True

variable (deriveKey) in
/-- Different writes that are presented have different fingerprints. -/
def CollisionFree (allowed : Request → Prop) : Prop :=
  ∀ request request', allowed request → allowed request' →
    (digests deriveKey request).request = (digests deriveKey request').request →
      requestBytes request.write = requestBytes request'.write

variable {request : Request} {shard : Nat} {found : Worker} {noted : Option IdempotencyReceipt}
    {event : Event}

theorem key_eq_of_eq (h : request.key = first.key) :
    (digests deriveKey request).key = (digests deriveKey first).key := by
  unfold digests writeDigests
  rw [h]

theorem idempotencyResultFromReceipt_conflict {digests : IdempotencyDigests}
    (hkey : receipt.keyDigest = digests.key) (hne : receipt.requestDigest ≠ digests.request)
    (shard : Nat) (status : IdempotencyStatus) :
    idempotencyResultFromReceipt receipt digests shard status = .error idempotencyConflict := by
  unfold idempotencyResultFromReceipt
  rw [if_neg (not_not.mpr hkey), if_pos hne]
  rfl

theorem replyOk_result (hfree : CollisionFree deriveKey allowed) (hfirst : allowed first)
    (hdescribes : Describes deriveKey first receipt) (hrequest : allowed request)
    (hkey : (digests deriveKey request).key = receipt.keyDigest) (status : IdempotencyStatus) :
    ReplyOk first receipt request (idempotencyResultFromReceipt receipt (digests deriveKey request)
      request.write.targetShard.toNat status) := by
  by_cases hsame : receipt.requestDigest = (digests deriveKey request).request
  · have hwrite : request.write = first.write := by
      refine requestBytes_injective (hfree request first hrequest hfirst ?_)
      rw [← hsame, hdescribes.requestDigest_eq]
    refine .inr (.inl ⟨hwrite, status, ?_⟩)
    refine idempotencyResultFromReceipt_eq_ok.mpr ⟨hkey.symm, hsame, ?_, rfl⟩
    rw [hdescribes.targetShard_eq, hwrite]
  · refine .inr (.inr ⟨fun hwrite => hsame ?_, ?_⟩)
    · rw [hdescribes.requestDigest_eq]
      unfold digests writeDigests
      rw [hwrite]
    · exact idempotencyResultFromReceipt_conflict hkey.symm hsame _ _

variable {worker now : Nat} {action : IdempotencyAction}

theorem eventOk_of_key_ne (hdescribes : Describes deriveKey first receipt)
    (hkey : (digests deriveKey request).key ≠ receipt.keyDigest)
    (reply : EngineResult IdempotentWriteResult) :
    EventOk first receipt (.replied worker request reply) := by
  intro hsame
  exact absurd ((key_eq_of_eq hsame).trans hdescribes.keyDigest_eq.symm) hkey

section

variable (deriveKey) (receipt)

/-- A request that may end the retention of the receipt, if its clock is late. -/
def Touches (request : Request) : Prop :=
  (digests deriveKey request).key = receipt.keyDigest ∨
    request.write.targetShard.toNat = receipt.targetShard

def Timely (found : Worker) : Prop :=
  ∀ now shard noted, found.phase.scan? = some (now, shard, noted) →
    Touches deriveKey receipt found.request → now < receipt.expiresUnixMs

def ClocksBefore (events : List Event) : Prop :=
  ∀ reader request now, Event.clock reader request now ∈ events →
    Touches deriveKey receipt request → now < receipt.expiresUnixMs

/-- A scan for the key has the receipt in hand exactly after its shard. -/
def InHand (found : Worker) : Prop :=
  (digests deriveKey found.request).key = receipt.keyDigest →
    ∀ now shard noted, found.phase.scan? = some (now, shard, noted) →
      found.phase = .scanning now shard noted ∧
        ((shard ≤ receipt.targetShard ∧ noted = none) ∨
          (receipt.targetShard < shard ∧ noted = some receipt))

/-- The receipt is on its shard, and everybody at work respects it. -/
structure Lasts (system : IdempotencySystem) : Prop where
  stored : receipt ∈ (system.shards receipt.targetShard).rows
  work : ∀ worker found, system.workers worker = some found →
    Timely deriveKey receipt found ∧ InHand deriveKey receipt found

/-- The receipt lasts through a step, and what happens respects it. -/
def LastsThrough (first : Request) (system next : IdempotencySystem) : Prop :=
  Lasts deriveKey receipt next ∧ ∃ events, next.history = system.history ++ events ∧
    ∀ event ∈ events, EventOk first receipt event

end

theorem inHand_of_key_ne {phase : Phase} (h : (digests deriveKey request).key ≠ receipt.keyDigest) :
    InHand deriveKey receipt ⟨request, phase⟩ :=
  fun hkey => absurd hkey h

/-- A clock is read once, so who was in time stays so. -/
theorem Timely.setPhase {old phase : Phase} (h : Timely deriveKey receipt ⟨request, old⟩)
    (hold : old.scan? = some (now, shard, noted)) {shard' : Nat}
    {noted' : Option IdempotencyReceipt} (hphase : phase.scan? = some (now, shard', noted')) :
    Timely deriveKey receipt ⟨request, phase⟩ := by
  intro now' place noted'' hscan
  cases hphase.symm.trans hscan
  exact h now shard noted hold

namespace Lasts

variable (h : Lasts deriveKey receipt system)
include h

theorem finish (worker : Nat) (ending : Worker) (events : List Event) :
    Lasts deriveKey receipt (system.finish deriveKey worker ending events) where
  stored := h.stored
  work other found hfound := h.work other found (workers_finish.mp hfound).2

theorem setShard {table : ReceiptTable}
    (hkept : receipt ∈ (system.shards shard).rows → receipt ∈ table.rows) :
    Lasts deriveKey receipt (system.setShard shard table) where
  stored := by
    simp only [IdempotencySystem.setShard, Function.update_apply]
    split
    next heq => exact hkept (heq ▸ h.stored)
    next => exact h.stored
  work := h.work

theorem setPhase {phase : Phase} (htimely : Timely deriveKey receipt ⟨request, phase⟩)
    (hphase : InHand deriveKey receipt ⟨request, phase⟩) :
    Lasts deriveKey receipt (system.setPhase worker request phase) where
  stored := h.stored
  work other found hfound := by
    rcases workers_setPhase.mp hfound with ⟨-, rfl⟩ | ⟨-, hfound⟩
    · exact ⟨htimely, hphase⟩
    · exact h.work other found hfound

theorem silent (hhistory : system.history = next.history) :
    LastsThrough deriveKey receipt first next system :=
  ⟨h, [], hhistory.trans (append_nil _).symm, nofun⟩

theorem ended {ending : Worker} (hevent : EventOk first receipt event) :
    LastsThrough deriveKey receipt first system
      (system.finish deriveKey worker ending [event]) :=
  ⟨h.finish _ _ _, _, rfl, forall_mem_singleton.mpr hevent⟩

theorem advance_other (hdescribes : Describes deriveKey first receipt)
    (hworker : system.workers worker = some found)
    (hkey : (digests deriveKey found.request).key ≠ receipt.keyDigest)
    (hscan : found.phase.scan? = some (now, shard, noted)) (current : Option IdempotencyReceipt) :
    LastsThrough deriveKey receipt first system
      (system.advance deriveKey worker found now shard noted current) := by
  have htimely := (h.work worker found hworker).1
  cases current with
  | none => exact (h.setPhase (htimely.setPhase hscan rfl) (inHand_of_key_ne hkey)).silent rfl
  | some candidate =>
    simp only [advance]
    split
    next => exact (h.setPhase (htimely.setPhase hscan rfl) (inHand_of_key_ne hkey)).silent rfl
    next => exact h.ended (eventOk_of_key_ne hdescribes hkey _)

/-- A scan for the key of the receipt finds it on its shard and nothing on the others. -/
theorem advance_same (hconsistent : Consistent deriveKey shardCount allowed system)
    (hworker : system.workers worker = some ⟨request, .scanning now shard noted⟩)
    (hkey : (digests deriveKey request).key = receipt.keyDigest) :
    ∃ noted', system.advance deriveKey worker ⟨request, .scanning now shard noted⟩ now shard noted
        (loadReceipt (system.shards shard) (digests deriveKey request).key) =
          system.setPhase worker request (.scanning now (shard + 1) noted') ∧
      ((shard + 1 ≤ receipt.targetShard ∧ noted' = none) ∨
        (receipt.targetShard < shard + 1 ∧ noted' = some receipt)) := by
  obtain ⟨-, hplace⟩ := (h.work worker _ hworker).2 hkey now shard noted rfl
  by_cases hshard : shard = receipt.targetShard
  · subst hshard
    have hload : loadReceipt (system.shards receipt.targetShard) (digests deriveKey request).key =
        some receipt := loadReceipt_eq_some.mpr ⟨h.stored, hkey.symm⟩
    have hnone : noted = none := by
      rcases hplace with ⟨-, hnone⟩ | ⟨hlt, -⟩
      · exact hnone
      · exact absurd hlt (lt_irrefl _)
    subst hnone
    refine ⟨some receipt, ?_, .inr ⟨Nat.lt_succ_self _, rfl⟩⟩
    have hnote : noteReceipt (digests deriveKey request).key receipt.targetShard none receipt =
        .ok receipt := by
      unfold noteReceipt
      rw [if_neg (not_not.mpr hkey.symm), if_neg (not_not.mpr rfl), if_neg (by simp)]
      rfl
    rw [hload]
    simp [advance, hnote]
  · have hload : loadReceipt (system.shards shard) (digests deriveKey request).key = none := by
      refine loadReceipt_eq_none.mpr fun other hother hsame => hshard ?_
      exact hconsistent.alone shard _ other receipt hother h.stored (hsame.trans hkey)
    refine ⟨noted, by rw [hload]; rfl, ?_⟩
    grind

theorem lock (hclock : Touches deriveKey receipt request → now < receipt.expiresUnixMs)
    (stripes : UInt8 → Option Nat) :
    LastsThrough deriveKey receipt first system
      { system.setPhase worker request (.scanning now 0 none) with
        stripes
        history := system.history ++ [.clock worker request now] } := by
  have hset : Lasts deriveKey receipt
      (system.setPhase worker request (.scanning now 0 none)) := by
    refine h.setPhase ?_ ?_
    · rintro _ _ _ ⟨⟩
      exact hclock
    · rintro - _ _ _ ⟨⟩
      exact ⟨rfl, .inl ⟨Nat.zero_le _, rfl⟩⟩
  exact ⟨⟨hset.stored, hset.work⟩, _, rfl, forall_mem_singleton.mpr trivial⟩

variable (hconsistent : Consistent deriveKey shardCount allowed system)
  (hdescribes : Describes deriveKey first receipt)
include hconsistent hdescribes

theorem find (hfree : CollisionFree deriveKey allowed) (hfirst : allowed first)
    (hstep : system.step deriveKey shardCount (.find worker) = some next) :
    LastsThrough deriveKey receipt first system next := by
  obtain ⟨request, now, shard, noted, hworker, hcases⟩ := step_find hstep
  obtain ⟨htimely, hinHand⟩ := h.work worker _ hworker
  by_cases hkey : (digests deriveKey request).key = receipt.keyDigest
  · obtain ⟨-, hplace⟩ := hinHand hkey now shard noted rfl
    have hnow := htimely now shard noted rfl (.inl hkey)
    rcases hcases with ⟨-, current, hload, -, rfl⟩ | ⟨-, other, hload, hexpired, -⟩ |
      ⟨hend, other, hnoted, rfl⟩
    · obtain ⟨noted', hadvance, hplace'⟩ := h.advance_same hconsistent hworker hkey
      rw [← hload, hadvance]
      refine (h.setPhase (htimely.setPhase rfl rfl) ?_).silent rfl
      rintro - _ _ _ ⟨⟩
      exact ⟨rfl, hplace'⟩
    · -- The expired receipt would be this one.
      obtain ⟨hmem, hsame⟩ := loadReceipt_eq_some.mp hload
      have hshard := hconsistent.alone _ _ _ _ hmem h.stored (hsame.trans hkey)
      subst hshard
      have heq : other = receipt :=
        Table.eq_of_conflict (fun _ _ h => h.symm) hmem h.stored (hsame.trans hkey)
      subst heq
      omega
    · have hwithin : receipt.targetShard < shardCount := (hconsistent.within _ _ h.stored).2
      rcases hplace with ⟨hle, -⟩ | ⟨-, hsome⟩
      · omega
      · cases hnoted.symm.trans hsome
        exact h.ended fun _ => replyOk_result hfree hfirst hdescribes
          (hconsistent.serves worker _ hworker).permitted hkey _
  · rcases hcases with ⟨-, current, -, -, rfl⟩ | ⟨-, other, -, -, rfl⟩ | ⟨-, other, -, rfl⟩
    · exact h.advance_other hdescribes hworker hkey rfl _
    · exact (h.setPhase (htimely.setPhase rfl rfl) (inHand_of_key_ne hkey)).silent rfl
    · exact h.ended (eventOk_of_key_ne hdescribes hkey _)

omit hconsistent in
theorem expire {outcome : TransactionOutcome}
    (hstep : system.step deriveKey shardCount (.expire worker outcome) = some next) :
    LastsThrough deriveKey receipt first system next := by
  obtain ⟨request, now, shard, noted, current, table, hworker, hexpire, hcases⟩ :=
    step_expire hstep
  have hkey : (digests deriveKey request).key ≠ receipt.keyDigest := by
    intro hkey
    cases ((h.work worker _ hworker).2 hkey now shard noted rfl).1
  have hset : Lasts deriveKey receipt (system.setShard shard table) :=
    h.setShard fun hmem => (expireReceipt_cases hexpire).2.1 receipt hmem hkey.symm
  rcases hcases with rfl | ⟨error, rfl⟩ | ⟨error, rfl⟩
  · exact hset.advance_other hdescribes hworker hkey rfl _
  · exact hset.ended trivial
  · exact h.ended trivial

/-- A request of another key may execute on the shard; it deletes only what its clock is past. -/
theorem execute {execution : EngineResult Nat} {outcome : TransactionOutcome}
    (hstep : system.step deriveKey shardCount (.execute worker execution outcome) = some next) :
    LastsThrough deriveKey receipt first system next := by
  obtain ⟨request, now, shard, hworker, hend, hcases⟩ := step_execute hstep
  obtain ⟨htimely, hinHand⟩ := h.work worker _ hworker
  have hkey : (digests deriveKey request).key ≠ receipt.keyDigest := by
    intro hkey
    have hwithin : receipt.targetShard < shardCount := (hconsistent.within _ _ h.stored).2
    rcases (hinHand hkey now shard none rfl).2 with ⟨hle, -⟩ | ⟨-, hsome⟩
    · omega
    · cases hsome
  rcases hcases with ⟨error, rfl⟩ | ⟨error, rfl⟩ | ⟨executed, table, last, hexecute, hlast, rfl⟩
  · exact h.ended (eventOk_of_key_ne hdescribes hkey _)
  · exact h.ended trivial
  · obtain ⟨rowsAffected, rfl, -, -, -, -, hkept⟩ := hconsistent.executed hworker hend hexecute
    have hset : Lasts deriveKey receipt
        (system.setShard request.write.targetShard.toNat table) :=
      h.setShard fun hmem => hkept receipt hmem
        (htimely now shard none rfl (.inr (hconsistent.within _ _ hmem).1.symm))
    refine ⟨hset.finish _ _ _, _, rfl, fun event hevent => ?_⟩
    rcases mem_append.mp hevent with hevent | hevent
    · cases mem_singleton.mp hevent
      intro hsame
      exact hkey ((key_eq_of_eq hsame).trans hdescribes.keyDigest_eq.symm)
    · cases mem_singleton.mp hevent
      rcases hlast with rfl | ⟨error, rfl⟩
      · exact eventOk_of_key_ne hdescribes hkey _
      · trivial

theorem step (hfree : CollisionFree deriveKey allowed) (hfirst : allowed first)
    (hstep : system.step deriveKey shardCount action = some next)
    {events : List Event} (hhistory : next.history = system.history ++ events)
    (hclocks : ClocksBefore deriveKey receipt events) :
    LastsThrough deriveKey receipt first system next := by
  cases action with
  | admission worker request =>
    obtain ⟨-, rfl | rfl⟩ := step_admission hstep
    · refine ⟨⟨h.stored, h.work⟩, _, rfl, forall_mem_singleton.mpr fun _ => ?_⟩
      exact .inl ⟨_, rfl, rfl⟩
    · have hset : Lasts deriveKey receipt (system.setPhase worker request .admitted) :=
        h.setPhase nofun nofun
      exact silent ⟨hset.stored, hset.work⟩ rfl
  | lock worker now =>
    obtain ⟨request, -, ⟨holder, rfl⟩ | ⟨-, rfl⟩ | rfl⟩ := step_lock hstep
    · refine h.ended fun _ => .inl ⟨_, rfl, ?_⟩
      unfold stripeError
      split <;> rfl
    · cases append_cancel_left hhistory
      exact h.lock (hclocks worker request now mem_cons_self) _
    · exact h.ended trivial
  | find worker => exact h.find hconsistent hdescribes hfree hfirst hstep
  | expire worker outcome => exact h.expire hdescribes hstep
  | execute worker execution outcome => exact h.execute hconsistent hdescribes hstep
  | fail worker error =>
    obtain ⟨ending, -, rfl⟩ := step_fail hstep
    exact h.ended trivial
  | crash process =>
    cases hstep
    refine silent ⟨h.stored, fun worker found hfound => ?_⟩ rfl
    dsimp only at hfound
    split at hfound
    next => cases hfound
    next => exact h.work worker found hfound

end Lasts

def NoCommit (events : List Event) : Prop :=
  ∀ worker request receipt, Event.committed worker request receipt ∉ events

theorem noCommit_nil : NoCommit [] := fun _ _ _ => not_mem_nil

theorem noCommit_singleton
    (h : ∀ worker request receipt, event ≠ .committed worker request receipt) :
    NoCommit [event] := by
  intro worker request receipt hmem
  exact h worker request receipt (mem_singleton.mp hmem).symm

theorem history_advance (worker : Nat) (found : Worker) (now shard : Nat)
    (noted current : Option IdempotencyReceipt) :
    ∃ events, (system.advance deriveKey worker found now shard noted current).history =
      system.history ++ events ∧ NoCommit events := by
  cases current with
  | none => exact ⟨[], (append_nil _).symm, noCommit_nil⟩
  | some receipt =>
    simp only [advance]
    split
    next => exact ⟨[], (append_nil _).symm, noCommit_nil⟩
    next => exact ⟨_, rfl, noCommit_singleton (by simp)⟩

/-- A step commits nothing, or one write whose receipt then lasts if nobody at work is late. -/
theorem Consistent.commit_of_step (h : Consistent deriveKey shardCount allowed system)
    (hfree : CollisionFree deriveKey allowed)
    (hstep : system.step deriveKey shardCount action = some next) :
    ∃ events, next.history = system.history ++ events ∧
      (NoCommit events ∨ ∃ worker request receipt last,
        events = [.committed worker request receipt, last] ∧ allowed request ∧
        Describes deriveKey request receipt ∧ EventOk request receipt last ∧
        ((∀ worker found, next.workers worker = some found → Timely deriveKey receipt found) →
          Lasts deriveKey receipt next)) := by
  cases action with
  | admission worker request =>
    obtain ⟨-, rfl | rfl⟩ := step_admission hstep
    · exact ⟨_, rfl, .inl (noCommit_singleton (by simp))⟩
    · exact ⟨[], (append_nil _).symm, .inl noCommit_nil⟩
  | lock worker now =>
    obtain ⟨request, -, ⟨holder, rfl⟩ | ⟨-, rfl⟩ | rfl⟩ := step_lock hstep <;>
      exact ⟨_, rfl, .inl (noCommit_singleton (by simp))⟩
  | find worker =>
    obtain ⟨request, now, shard, noted, -, ⟨-, current, -, -, rfl⟩ | ⟨-, _, -, -, rfl⟩ |
      ⟨-, _, -, rfl⟩⟩ := step_find hstep
    · obtain ⟨events, hevents, hnone⟩ := history_advance worker _ now shard noted current
      exact ⟨events, hevents, .inl hnone⟩
    · exact ⟨[], (append_nil _).symm, .inl noCommit_nil⟩
    · exact ⟨_, rfl, .inl (noCommit_singleton (by simp))⟩
  | expire worker outcome =>
    obtain ⟨request, now, shard, noted, current, table, -, -, rfl | ⟨error, rfl⟩ | ⟨error, rfl⟩⟩ :=
      step_expire hstep
    · obtain ⟨events, hevents, hnone⟩ := history_advance worker _ now shard noted current
      exact ⟨events, hevents, .inl hnone⟩
    · exact ⟨_, rfl, .inl (noCommit_singleton (by simp))⟩
    · exact ⟨_, rfl, .inl (noCommit_singleton (by simp))⟩
  | execute worker execution outcome =>
    obtain ⟨request, now, shard, hworker, hend, ⟨error, rfl⟩ | ⟨error, rfl⟩ |
      ⟨executed, table, last, hexecute, hlast, rfl⟩⟩ := step_execute hstep
    · exact ⟨_, rfl, .inl (noCommit_singleton (by simp))⟩
    · exact ⟨_, rfl, .inl (noCommit_singleton (by simp))⟩
    · obtain ⟨rowsAffected, rfl, -, hstored, -, -, -⟩ := h.executed hworker hend hexecute
      have hrequest : allowed request := (h.serves worker _ hworker).permitted
      have hdescribes : Describes deriveKey request
          (receiptOf deriveKey request now rowsAffected) := describes_receiptOf ..
      refine ⟨_, rfl, .inr ⟨worker, request, receiptOf deriveKey request now rowsAffected, last,
        rfl, hrequest, hdescribes, ?_, fun htimely => ⟨?_, fun other found hfound => ?_⟩⟩⟩
      · rcases hlast with rfl | ⟨error, rfl⟩
        · exact fun _ => replyOk_result hfree hrequest hdescribes hrequest rfl _
        · trivial
      · change _ ∈ ((system.setShard request.write.targetShard.toNat table).shards
          request.write.targetShard.toNat).rows
        simpa [setShard] using hstored
      · -- Nobody else is at work with the key.
        refine ⟨htimely other found hfound, fun hkey now' place noted hscan => ?_⟩
        obtain ⟨hne, hfound⟩ := workers_finish.mp hfound
        have hstripe : stripe (digests deriveKey found.request).key =
            stripe (digests deriveKey request).key := congrArg stripe hkey
        refine absurd (h.eq_of_held hfound hworker ?_ rfl hstripe) hne
        rw [hscan]
        rfl
  | fail worker error =>
    obtain ⟨ending, -, rfl⟩ := step_fail hstep
    exact ⟨_, rfl, .inl (noCommit_singleton (by simp))⟩
  | crash process =>
    cases hstep
    exact ⟨[], (append_nil _).symm, .inl noCommit_nil⟩

def presented (actions : List IdempotencyAction) (request : Request) : Prop :=
  ∃ worker, IdempotencyAction.admission worker request ∈ actions

section Runs

variable {actions : List IdempotencyAction} (hfree : CollisionFree deriveKey allowed)
  (hallowed : ∀ request, presented actions request → allowed request)
  (hconsistent : Consistent deriveKey shardCount allowed system)
  (hrun : Transition.run (IdempotencySystem.step deriveKey shardCount) system actions = some next)
include hfree hallowed hconsistent hrun

theorem Consistent.run :
    Consistent deriveKey shardCount allowed next ∧ system.history <+: next.history := by
  induction actions generalizing system with
  | nil =>
    cases hrun
    exact ⟨hconsistent, prefix_rfl⟩
  | cons action actions ih =>
    obtain ⟨middle, hstep, hrun⟩ := run_cons_eq_some.mp hrun
    obtain ⟨events, hhistory, -⟩ := hconsistent.commit_of_step hfree hstep
    have hmiddle := hconsistent.step
      (fun worker request haction => hallowed request ⟨worker, haction ▸ mem_cons_self⟩) hstep
    obtain ⟨hnext, hprefix⟩ := ih (fun request ⟨worker, hmem⟩ =>
      hallowed request ⟨worker, mem_cons_of_mem _ hmem⟩) hmiddle hrun
    exact ⟨hnext, (hhistory ▸ prefix_append _ _).trans hprefix⟩

/-- A receipt that lasts is respected as long as the clocks that are read are before its
expiration. -/
theorem Lasts.run (h : Lasts deriveKey receipt system) (hfirst : allowed first)
    (hdescribes : Describes deriveKey first receipt) {events : List Event}
    (hhistory : next.history = system.history ++ events)
    (hclocks : ClocksBefore deriveKey receipt events) :
    ∀ event ∈ events, EventOk first receipt event := by
  induction actions generalizing system events with
  | nil =>
    cases hrun
    rw [self_eq_append_right.mp hhistory]
    exact forall_mem_nil _
  | cons action actions ih =>
    obtain ⟨middle, hstep, hrun⟩ := run_cons_eq_some.mp hrun
    have hrest := fun request (hmem : presented actions request) =>
      hallowed request (hmem.imp fun _ => mem_cons_of_mem _)
    have hmiddle := hconsistent.step
      (fun worker request haction => hallowed request ⟨worker, haction ▸ mem_cons_self⟩) hstep
    obtain ⟨now, hnow, -⟩ := hconsistent.commit_of_step hfree hstep
    obtain ⟨later, hlater⟩ := (hmiddle.run hfree hrest hrun).2
    -- What the step adds comes before what the rest of the run adds.
    have hevents : events = now ++ later := by
      rw [hhistory, hnow, append_assoc] at hlater
      exact (append_cancel_left hlater).symm
    subst hevents
    obtain ⟨hnext, now', hnow', hok⟩ := h.step hconsistent hdescribes hfree hfirst hstep hnow
      fun reader request time hmem => hclocks reader request time (mem_append_left _ hmem)
    cases append_cancel_left (hnow'.symm.trans hnow)
    refine forall_mem_append.mpr ⟨hok, ih hrest hmiddle hrun hnext hlater.symm ?_⟩
    exact fun reader request time hmem => hclocks reader request time (mem_append_right _ hmem)

end Runs

/-- In every interleaving of requests, with failures and crashes at any step: no shard has more
receipts than its limit; no key has receipts on two shards; every successful reply repeats the
receipt that was committed with an equal request. -/
theorem executes_at_most_once (deriveKey : List UInt8 → List UInt8 → Blake3.Digest)
    (shardCount : Nat) {actions : List IdempotencyAction}
    (hfree : CollisionFree deriveKey (presented actions))
    (hrun : run (step deriveKey shardCount) .initial actions = some system) :
    (∀ shard, (system.shards shard).rows.length ≤ maxIdempotencyReceiptsPerShard) ∧
    (∀ key shard shard', ¬ NoReceipt (system.shards shard) key →
      ¬ NoReceipt (system.shards shard') key → shard = shard') ∧
    (∀ worker request result, Event.replied worker request (.ok result) ∈ system.history →
      ∃ worker' first receipt, Event.committed worker' first receipt ∈ system.history ∧
        receipt.keyDigest = (digests deriveKey request).key ∧ request.write = first.write ∧
        result.shard = receipt.targetShard ∧ result.rowsAffected = receipt.rowsAffected) ∧
    ∀ before action after prior current, actions = before ++ action :: after →
      run (step deriveKey shardCount) .initial before = some prior →
      prior.step deriveKey shardCount action = some current →
      ∃ now later, current.history = prior.history ++ now ∧
        system.history = current.history ++ later ∧
        (NoCommit now ∨ ∃ worker first receipt last, now = [.committed worker first receipt, last] ∧
          ((∀ worker found, current.workers worker = some found →
            Timely deriveKey receipt found) → ClocksBefore deriveKey receipt later →
            ∀ event ∈ last :: later, EventOk first receipt event)) := by
  obtain ⟨hconsistent, -⟩ := Consistent.initial.run hfree (fun _ h => h) hrun
  refine ⟨hconsistent.bounded, ?_, ?_, ?_⟩
  · intro key shard shard' hleft hright
    unfold NoReceipt at hleft hright
    push Not at hleft hright
    obtain ⟨receipt, hreceipt, hkey⟩ := hleft
    obtain ⟨receipt', hreceipt', hkey'⟩ := hright
    exact hconsistent.alone _ _ receipt receipt' hreceipt hreceipt' (hkey.trans hkey'.symm)
  · intro worker request result hreply
    obtain ⟨hrequest, receipt, ⟨worker', first, hcommit, hfirst, hdescribes⟩, hkey, hsame,
      hresult⟩ := hconsistent.truthful _ hreply
    refine ⟨worker', first, receipt, hcommit, hkey, ?_, hresult⟩
    refine requestBytes_injective (hfree request first hrequest hfirst ?_)
    rw [← hsame, hdescribes.requestDigest_eq]
  · rintro before action after prior current rfl hbefore hstep
    have hsub : ∀ {some' : List IdempotencyAction}, some' ⊆ before ++ action :: after →
        ∀ request, presented some' request → presented (before ++ action :: after) request :=
      fun hsub request => Exists.imp fun _ hmem => hsub hmem
    obtain ⟨hprior, -⟩ := Consistent.initial.run hfree (hsub (subset_append_left _ _)) hbefore
    have hcurrent := hprior.step (fun worker request haction => ⟨worker, by simp [← haction]⟩) hstep
    obtain ⟨_, hbefore', hrun⟩ := run_append_eq_some.mp hrun
    cases hbefore.symm.trans hbefore'
    obtain ⟨_, hstep', hrun⟩ := run_cons_eq_some.mp hrun
    cases hstep.symm.trans hstep'
    have hafter := @hsub after fun _ h => by simp [h]
    obtain ⟨later, hlater⟩ := (hcurrent.run hfree hafter hrun).2
    obtain ⟨now, hnow, hcommit⟩ := hprior.commit_of_step hfree hstep
    refine ⟨now, later, hnow, hlater.symm, hcommit.imp_right ?_⟩
    rintro ⟨worker, first, receipt, last, rfl, hfirst, hdescribes, hlast, hlasts⟩
    refine ⟨worker, first, receipt, last, rfl, fun htimely hclocks => ?_⟩
    exact forall_mem_cons.mpr ⟨hlast, (hlasts htimely).run hfree hafter hcurrent hrun hfirst
      hdescribes hlater.symm hclocks⟩

def quiet (shards : Nat → ReceiptTable) (history : List Event) : IdempotencySystem :=
  ⟨shards, fun _ => none, fun _ _ => false, fun _ => none, history⟩

def single (receipt : IdempotencyReceipt) (h : receiptCheck receipt) : ReceiptTable where
  rows := [receipt]
  apart := pairwise_singleton _ _
  checked := fun _ hmem => mem_singleton.mp hmem ▸ h

/-- A request that finds nothing and executes its write, with one affected row. -/
def write (worker : Nat) (request : Request) (now : Nat) : List IdempotencyAction :=
  [.admission worker request, .lock worker now, .find worker,
    .execute worker (.ok 1) .committed]

def visit (worker : Nat) (request : Request) (now : Nat) (error : EngineError) :
    List IdempotencyAction :=
  [.admission worker request, .lock worker now, .find worker, .expire worker .committed,
    .fail worker error]

/-- A request that finds a receipt on the only shard. -/
def replay (worker : Nat) (request : Request) (now : Nat) : List IdempotencyAction :=
  [.admission worker request, .lock worker now, .find worker, .find worker]

theorem executeWithReceipt_empty (receipt : NewIdempotencyReceipt) (rowsAffected : Nat)
    (hcheck : receiptCheck (receipt.stored rowsAffected)) :
    executeWithReceipt .empty receipt.targetShard receipt (.ok rowsAffected) =
      .ok (.executed (receipt.stored rowsAffected), single
        (receipt.stored rowsAffected) hcheck) := by
  have hrows : ¬ rowsAffected ≥ 2 ^ 63 := Nat.not_le.mpr hcheck.2.1
  have hinsert : (Table.empty : ReceiptTable).insert (receipt.stored rowsAffected) =
      some (single (receipt.stored rowsAffected) hcheck) := by
    unfold Table.insert
    rw [dif_pos ⟨hcheck, forall_mem_nil _⟩]
    rfl
  unfold executeWithReceipt
  refine ite_throw_eq_ok.mpr ⟨not_not.mpr rfl, ?_⟩
  refine bind_eq_ok.mpr ⟨(), rfl, bind_eq_ok.mpr ⟨rowsAffected, rfl, ?_⟩⟩
  refine ite_throw_eq_ok.mpr ⟨hrows, ?_⟩
  dsimp only
  split
  next next hnext =>
    cases hinsert.symm.trans hnext
    rfl
  next hnone => cases hinsert.symm.trans hnone

variable (deriveKey)

theorem executeOn_empty (request : Request)
    (htarget : request.write.targetShard.toNat = 0) (now : Nat)
    (hcheck : receiptCheck (receiptOf deriveKey request now 1))
    (system : IdempotencySystem) (hempty : system.shards 0 = .empty) :
    executeOn deriveKey 1 system request now (.ok 1) =
      .ok (.executed (receiptOf deriveKey request now 1),
        single (receiptOf deriveKey request now 1) hcheck) := by
  have hnew : NewIdempotencyReceipt.new (digests deriveKey request) 0 now =
      .ok ⟨(digests deriveKey request).key, (digests deriveKey request).request, 0, now,
        now + idempotencyReceiptRetentionMs⟩ := by
    unfold NewIdempotencyReceipt.new
    rw [ite_throw_eq_ok, ite_throw_eq_ok]
    exact ⟨by decide, not_not.mpr hcheck.2.2.1, rfl⟩
  refine ite_throw_eq_ok.mpr ⟨by simp [htarget], ?_⟩
  rw [htarget, hnew, ok_bind, hempty]
  have hstored : NewIdempotencyReceipt.stored ⟨(digests deriveKey request).key,
      (digests deriveKey request).request, 0, now, now + idempotencyReceiptRetentionMs⟩ 1 =
      receiptOf deriveKey request now 1 := by
    simp [NewIdempotencyReceipt.stored, receiptOf, htarget]
  have hexecute := executeWithReceipt_empty ⟨(digests deriveKey request).key,
    (digests deriveKey request).request, 0, now, now + idempotencyReceiptRetentionMs⟩ 1
    (hstored ▸ hcheck)
  simp [*]

theorem run_write (request : Request)
    (htarget : request.write.targetShard.toNat = 0) (worker now : Nat)
    (history : List Event) (hcheck : receiptCheck (receiptOf deriveKey request now 1)) :
    run (step deriveKey 1) (quiet (fun _ => .empty) history) (write worker request now) =
      some (quiet (Function.update (fun _ => .empty) 0
        (single (receiptOf deriveKey request now 1) hcheck)) (history ++
        [.clock worker request now, .committed worker request (receiptOf deriveKey request now 1),
         .replied worker request (.ok ⟨0, 1, .created⟩)])) := by
  have hnow : now ≤ maxCreatedUnixMs := hcheck.2.2.1
  have hreply : idempotencyResultFromReceipt (receiptOf deriveKey request now 1)
      (digests deriveKey request) 0 .created = .ok ⟨0, 1, .created⟩ :=
    idempotencyResultFromReceipt_eq_ok.mpr ⟨rfl, rfl, htarget, by simp [receiptOf, htarget]⟩
  have hexecute : ∀ system : IdempotencySystem, system.shards 0 = .empty → _ := fun system =>
    executeOn_empty deriveKey request htarget now hcheck system
  have hload : loadReceipt .empty (digests deriveKey request).key = none := rfl
  simp [run, step, quiet, write, finish, advance, setPhase, setShard, hexecute, hload,
    htarget, outcomeEvents, outcomeReply, hreply, Phase.scan?, hnow]

theorem run_visit (request : Request)
    (worker now : Nat) {late : Nat} (hnow : late ≤ maxCreatedUnixMs)
    (hlate : now + idempotencyReceiptRetentionMs ≤ late) (error : EngineError)
    (history : List Event) (hcheck : receiptCheck (receiptOf deriveKey request now 1)) :
    run (step deriveKey 1) (quiet (Function.update (fun _ => .empty) 0
        (single (receiptOf deriveKey request now 1) hcheck)) history)
        (visit worker request late error) =
      some (quiet (fun _ => .empty) (history ++
        [.clock worker request late, .aborted worker request error])) := by
  have hnot : ¬ late < now + idempotencyReceiptRetentionMs := by omega
  simp [run, step, quiet, visit, finish, advance, setPhase, setShard, loadReceipt,
    Table.empty, deleteExpiredKey, Table.delete, receiptOf, Phase.scan?, hnow, single, hnot,
    expireReceipt, hlate]

theorem run_replay {first request : Request} (hkey : request.key = first.key)
    (htarget : first.write.targetShard.toNat = 0) (worker : Nat) {now late : Nat}
    (hlate : late < now + idempotencyReceiptRetentionMs) (hnow : late ≤ maxCreatedUnixMs)
    (history : List Event) (hcheck : receiptCheck (receiptOf deriveKey first now 1)) :
    run (step deriveKey 1) (quiet (Function.update (fun _ => .empty) 0
        (single (receiptOf deriveKey first now 1) hcheck)) history) (replay worker request late) =
      some (quiet (Function.update (fun _ => .empty) 0
        (single (receiptOf deriveKey first now 1) hcheck)) (history ++
          [.clock worker request late, .replied worker request
            (idempotencyResultFromReceipt (receiptOf deriveKey first now 1)
              (digests deriveKey request) request.write.targetShard.toNat .replayed)])) := by
  have hdigest := @key_eq_of_eq deriveKey _ _ hkey
  simp [run, step, quiet, replay, finish, advance, setPhase, loadReceipt, receiptOf, Phase.scan?,
    hnow, single, hlate, hdigest, noteReceipt, htarget]

variable {deriveKey}

def cancelled : EngineError :=
  .new .cancelled "the request was cancelled before the operation completed"

def sample : Request where
  process := 0
  key := ⟨1 :: List.replicate 15 0, by decide, by decide⟩
  write := {
    exactSql := "INSERT INTO records (id) VALUES (1)"
    params := []
    routingKey := none
    logicalDatabase := 1
    table := 1
    targetShard := 0
    sql_fits := by decide +kernel
    params_fit := ⟨by decide, nofun⟩
    routing_fits := nofun }

theorem receiptCheck_sample (hnow : now ≤ maxCreatedUnixMs) :
    receiptCheck (receiptOf Blake3.deriveKey sample now 1) :=
  ⟨Nat.zero_le 63, Nat.one_lt_two_pow (by decide), hnow, rfl⟩

/-- Another write under the key of the sample. -/
def rival : Request :=
  { sample with
    write := { sample.write with
      exactSql := "DELETE FROM records"
      sql_fits := by decide +kernel } }

theorem digests_sample_ne : (digests Blake3.deriveKey sample).request ≠
    (digests Blake3.deriveKey rival).request := by decide +kernel

theorem collisionFree_sample {actions : List IdempotencyAction}
    (h : ∀ request, presented actions request → request = sample ∨ request = rival) :
    CollisionFree Blake3.deriveKey (presented actions) := by
  intro request request' hrequest hrequest' hsame
  rcases h request hrequest with rfl | rfl <;> rcases h request' hrequest' with rfl | rfl
  · rfl
  · exact absurd hsame digests_sample_ne
  · exact absurd hsame.symm digests_sample_ne
  · rfl

/-- A write is repeated, and then its key is used for another write. -/
theorem executes_at_most_once_replayed :
    ∃ system, run (step Blake3.deriveKey 1) .initial
        (write 0 sample 0 ++ (replay 1 sample 1 ++ replay 2 rival 2)) = some system ∧
      system.history = [.clock 0 sample 0,
        .committed 0 sample (receiptOf Blake3.deriveKey sample 0 1),
        .replied 0 sample (.ok ⟨0, 1, .created⟩), .clock 1 sample 1,
        .replied 1 sample (.ok ⟨0, 1, .replayed⟩), .clock 2 rival 2,
        .replied 2 rival (.error idempotencyConflict)] ∧
      (∀ shard, (system.shards shard).rows.length ≤ maxIdempotencyReceiptsPerShard) ∧
      ∀ event ∈ system.history.drop 2,
        EventOk sample (receiptOf Blake3.deriveKey sample 0 1) event := by
  have hcheck : receiptCheck (receiptOf Blake3.deriveKey sample 0 1) :=
    receiptCheck_sample (Nat.zero_le _)
  have hwrite := run_write Blake3.deriveKey sample rfl 0 0 [] hcheck
  have hreplay := fun request (hkey : request.key = sample.key) worker (now : Nat)
    (hnow : now < idempotencyReceiptRetentionMs) history =>
    @run_replay Blake3.deriveKey sample request hkey rfl worker 0 now
      (by omega) (hnow.le.trans (by decide)) history hcheck
  have hrun := run_append_eq_some.mpr ⟨_, hwrite, run_append_eq_some.mpr ⟨_,
    hreplay sample rfl 1 1 (by decide) _, hreplay rival rfl 2 2 (by decide) _⟩⟩
  have hpresented : ∀ request, presented
      (write 0 sample 0 ++ (replay 1 sample 1 ++ replay 2 rival 2)) request →
        request = sample ∨ request = rival := by
    rintro request ⟨worker, hmem⟩
    simp only [write, replay, mem_append, mem_cons, IdempotencyAction.admission.injEq,
      reduceCtorEq, not_mem_nil, or_false] at hmem
    rcases hmem with ⟨-, rfl⟩ | ⟨-, rfl⟩ | ⟨-, rfl⟩
    · exact .inl rfl
    · exact .inl rfl
    · exact .inr rfl
  obtain ⟨hbounded, -, -, hsteps⟩ :=
    executes_at_most_once Blake3.deriveKey 1 (collisionFree_sample hpresented) hrun
  have hreplayed : idempotencyResultFromReceipt (receiptOf Blake3.deriveKey sample 0 1)
      (digests Blake3.deriveKey sample) sample.write.targetShard.toNat .replayed =
        .ok ⟨0, 1, .replayed⟩ := idempotencyResultFromReceipt_eq_ok.mpr ⟨rfl, rfl, rfl, rfl⟩
  have hconflict : idempotencyResultFromReceipt (receiptOf Blake3.deriveKey sample 0 1)
      (digests Blake3.deriveKey rival) rival.write.targetShard.toNat .replayed =
        .error idempotencyConflict :=
    idempotencyResultFromReceipt_conflict rfl digests_sample_ne _ _
  obtain ⟨prior, hprior, hclock⟩ : ∃ prior, run (step Blake3.deriveKey 1) .initial
      [.admission 0 sample, .lock 0 0, .find 0] = some prior ∧
        prior.history = [.clock 0 sample 0] := ⟨_, rfl, rfl⟩
  rw [show write 0 sample 0 = [.admission 0 sample, .lock 0 0, .find 0] ++
    [.execute 0 (.ok 1) .committed] from rfl] at hwrite
  obtain ⟨_, hprior', hlast⟩ := run_append_eq_some.mp hwrite
  cases hprior.symm.trans hprior'
  obtain ⟨_, hstep, ⟨⟩⟩ := run_cons_eq_some.mp hlast
  obtain ⟨now, later, hnow, hlater, hcommit⟩ := hsteps
    [.admission 0 sample, .lock 0 0, .find 0] _ _ _ _ rfl hprior hstep
  rw [hclock] at hnow
  cases hnow
  rw [hreplayed, hconflict] at hlater hrun
  cases hlater
  obtain ⟨_, _, _, _, ⟨⟩, hok⟩ :=
    hcommit.resolve_left fun hnone => hnone 0 sample _ mem_cons_self
  refine ⟨_, hrun, rfl, hbounded, hok nofun ?_⟩
  intro reader request now hmem
  simp only [append_eq, cons_append, nil_append, mem_cons, Event.clock.injEq, not_mem_nil,
    reduceCtorEq, or_false, false_or] at hmem
  rcases hmem with ⟨-, -, rfl⟩ | ⟨-, -, rfl⟩ <;> exact fun _ => by decide

/-- One late clock, of a request that is then cancelled, and the same write is committed twice by
requests that read their clocks within the retention of the first receipt. -/
theorem late_clock_repeats_write :
    ∃ system receipt receipt', run (step Blake3.deriveKey 1) .initial
        (write 0 sample 0 ++ (visit 1 sample idempotencyReceiptRetentionMs
          cancelled ++ write 2 sample 1)) = some system ∧
      system.history[0]? = some (.clock 0 sample 0) ∧
      system.history[1]? = some (.committed 0 sample receipt) ∧
      system.history[5]? = some (.clock 2 sample 1) ∧
      system.history[6]? = some (.committed 2 sample receipt') ∧
      1 < receipt.expiresUnixMs := by
  have hfirst := run_write Blake3.deriveKey sample rfl 0 0 []
    (receiptCheck_sample (Nat.zero_le _))
  have hvisit := run_visit Blake3.deriveKey sample 1 0
    (by decide : idempotencyReceiptRetentionMs ≤ maxCreatedUnixMs) (by decide)
    cancelled ([] ++ [.clock 0 sample 0, .committed 0 sample
      (receiptOf Blake3.deriveKey sample 0 1), .replied 0 sample (.ok ⟨0, 1, .created⟩)])
    (receiptCheck_sample (Nat.zero_le _))
  have hsecond := run_write Blake3.deriveKey sample rfl 2 1
    (([] ++ [.clock 0 sample 0, .committed 0 sample
      (receiptOf Blake3.deriveKey sample 0 1), .replied 0 sample (.ok ⟨0, 1, .created⟩)]) ++
    [.clock 1 sample idempotencyReceiptRetentionMs,
      .aborted 1 sample cancelled]) (receiptCheck_sample (by decide))
  refine ⟨_, _, _, run_append_eq_some.mpr ⟨_, hfirst,
    run_append_eq_some.mpr ⟨_, hvisit, hsecond⟩⟩, rfl, rfl, rfl, rfl, by decide⟩

end BriskDB.Idempotency.IdempotencySystem
