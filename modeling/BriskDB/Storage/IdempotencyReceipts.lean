import BriskDB.Core.Idempotency
import BriskDB.Lib.Table

/-! # Shard-local receipts of idempotent writes

A shard keeps a receipt for every idempotent write it committed. The key digest is the primary
key, and the checks of the table fix the retention window. A receipt is written in the transaction
of its write, after expired receipts were deleted and the capacity was checked; the capacity counts
only receipts that have not expired, but a table with an expired receipt loses one first.
-/

namespace BriskDB.Idempotency

open Result List

def expiredReceiptCleanupLimit : Nat := 64

def maxCreatedUnixMs : Nat := 2 ^ 63 - 1 - idempotencyReceiptRetentionMs

structure IdempotencyReceipt where
  keyDigest : Blake3.Digest
  requestDigest : Blake3.Digest
  targetShard : Nat
  rowsAffected : Nat
  createdUnixMs : Nat
  expiresUnixMs : Nat
  deriving DecidableEq

/-- The checks of the table. -/
def receiptCheck (receipt : IdempotencyReceipt) : Prop :=
  receipt.targetShard ≤ 63 ∧ receipt.rowsAffected < 2 ^ 63 ∧
    receipt.createdUnixMs ≤ maxCreatedUnixMs ∧
    receipt.expiresUnixMs = receipt.createdUnixMs + idempotencyReceiptRetentionMs

instance : DecidablePred receiptCheck := fun _ => inferInstanceAs (Decidable (_ ∧ _))

def sameKey (left right : IdempotencyReceipt) : Prop := left.keyDigest = right.keyDigest

instance : DecidableRel sameKey := fun _ _ => inferInstanceAs (Decidable (_ = _))

abbrev ReceiptTable := Table sameKey receiptCheck

/-- Receipt fields known before the application statement runs. -/
structure NewIdempotencyReceipt where
  keyDigest : Blake3.Digest
  requestDigest : Blake3.Digest
  targetShard : Nat
  createdUnixMs : Nat
  expiresUnixMs : Nat

def NewIdempotencyReceipt.new (digests : IdempotencyDigests) (targetShard createdUnixMs : Nat) :
    EngineResult NewIdempotencyReceipt := do
  if targetShard > 63 then
    throw (.new .invalidArgument "idempotency receipt target shard must be between 0 and 63")
  if ¬ createdUnixMs ≤ maxCreatedUnixMs then
    throw (.new .invalidArgument
      "idempotency receipt creation time is outside the supported Unix millisecond range")
  return ⟨digests.key, digests.request, targetShard, createdUnixMs,
    createdUnixMs + idempotencyReceiptRetentionMs⟩

inductive IdempotentExecuteOutcome
  | executed (receipt : IdempotencyReceipt)
  | existing (receipt : IdempotencyReceipt)

def misplaced : EngineError :=
  .new .dataCorruption "shard idempotency receipt targets a different physical shard"

def overCapacity : EngineError :=
  .new .dataCorruption "shard idempotency receipt count exceeds the storage format limit"

def capacityExhausted : EngineError :=
  .new .limitExceeded "shard idempotency receipt capacity is exhausted"

variable (table : ReceiptTable) (keyDigest : Blake3.Digest)

def loadReceipt : Option IdempotencyReceipt :=
  table.rows.find? fun receipt => receipt.keyDigest = keyDigest

variable (nowUnixMs : Nat)

def deleteExpiredKey : ReceiptTable :=
  table.delete fun receipt => receipt.keyDigest = keyDigest ∧ receipt.expiresUnixMs ≤ nowUnixMs

def expiresBefore (left right : IdempotencyReceipt) : Prop :=
  left.expiresUnixMs < right.expiresUnixMs ∨
    left.expiresUnixMs = right.expiresUnixMs ∧ left.keyDigest.val ≤ right.keyDigest.val

instance : DecidableRel expiresBefore := fun _ _ => inferInstanceAs (Decidable (_ ∨ _))

def cleanupVictims : List IdempotencyReceipt :=
  ((table.rows.filter fun receipt => receipt.expiresUnixMs ≤ nowUnixMs).insertionSort
    expiresBefore).take expiredReceiptCleanupLimit

def cleanupExpired : ReceiptTable :=
  let victims := (cleanupVictims table nowUnixMs).map IdempotencyReceipt.keyDigest
  table.delete fun receipt => receipt.keyDigest ∈ victims

def ensureCapacity (physicalShard nowUnixMs : Nat) : EngineResult Unit := do
  if table.rows.any fun receipt => receipt.targetShard ≠ physicalShard then throw misplaced
  let count := table.rows.countP fun receipt =>
    receipt.targetShard = physicalShard ∧ receipt.expiresUnixMs > nowUnixMs
  if count > maxIdempotencyReceiptsPerShard then throw overCapacity
  if count = maxIdempotencyReceiptsPerShard then throw capacityExhausted

/-- The deletion of an expired receipt. -/
def expireReceipt : Option IdempotencyReceipt × ReceiptTable :=
  match loadReceipt table keyDigest with
  | some receipt =>
    if receipt.expiresUnixMs ≤ nowUnixMs then
      (none, deleteExpiredKey table keyDigest nowUnixMs)
    else (some receipt, table)
  | none => (none, table)

/-- The transaction of a write and its receipt; `execution` is what the statement does. -/
def executeWithReceipt (physicalShard : Nat)
    (receipt : NewIdempotencyReceipt) (execution : EngineResult Nat) :
    EngineResult (IdempotentExecuteOutcome × ReceiptTable) := do
  if receipt.targetShard ≠ physicalShard then
    throw (.new .internal
      "idempotency receipt target does not match the checked-out physical shard")
  let cleaned := cleanupExpired (deleteExpiredKey table receipt.keyDigest receipt.createdUnixMs)
    receipt.createdUnixMs
  match loadReceipt cleaned receipt.keyDigest with
  | some existing => return (.existing existing, cleaned)
  | none =>
    ensureCapacity cleaned physicalShard receipt.createdUnixMs
    let rowsAffected ← execution
    if rowsAffected ≥ 2 ^ 63 then
      throw (.new .limitExceeded
        "affected-row count exceeds the idempotency receipt format")
    let stored : IdempotencyReceipt := ⟨receipt.keyDigest, receipt.requestDigest,
      receipt.targetShard, rowsAffected, receipt.createdUnixMs, receipt.expiresUnixMs⟩
    match cleaned.insert stored with
    | some next => return (.executed stored, next)
    | none => throw (.new .constraintViolation "idempotency receipt violates its table")

variable {table next : ReceiptTable} {keyDigest : Blake3.Digest} {nowUnixMs : Nat}
  {receipt : IdempotencyReceipt}

def NoReceipt (table : ReceiptTable) (keyDigest : Blake3.Digest) : Prop :=
  ∀ receipt ∈ table.rows, receipt.keyDigest ≠ keyDigest

theorem loadReceipt_eq_none : loadReceipt table keyDigest = none ↔ NoReceipt table keyDigest := by
  simp [loadReceipt, NoReceipt, find?_eq_none]

theorem loadReceipt_eq_some :
    loadReceipt table keyDigest = some receipt ↔
      receipt ∈ table.rows ∧ receipt.keyDigest = keyDigest := by
  constructor
  · intro h
    exact ⟨mem_of_find?_eq_some h, by simpa using find?_some h⟩
  · rintro ⟨hmem, hkey⟩
    cases hfound : loadReceipt table keyDigest with
    | none => exact absurd hkey (loadReceipt_eq_none.mp hfound receipt hmem)
    | some found =>
      have hsame : sameKey found receipt := by
        have hfoundKey : found.keyDigest = keyDigest := by simpa using find?_some hfound
        exact hfoundKey.trans hkey.symm
      rw [Table.eq_of_conflict (fun _ _ h => h.symm) (mem_of_find?_eq_some hfound) hmem hsame]

theorem mem_delete {selected : IdempotencyReceipt → Bool} :
    receipt ∈ (table.delete selected).rows ↔ receipt ∈ table.rows ∧ selected receipt = false := by
  simp [Table.delete, mem_filter]

theorem mem_cleanupVictims (h : receipt ∈ cleanupVictims table nowUnixMs) :
    receipt ∈ table.rows ∧ receipt.expiresUnixMs ≤ nowUnixMs := by
  have hsorted := mem_of_mem_take h
  grind [mem_insertionSort]

theorem mem_cleanupExpired (hmem : receipt ∈ table.rows)
    (hactive : nowUnixMs < receipt.expiresUnixMs) :
    receipt ∈ (cleanupExpired table nowUnixMs).rows := by
  refine mem_delete.mpr ⟨hmem, ?_⟩
  simp only [decide_eq_false_iff_not, mem_map, not_exists, not_and]
  intro victim hvictim hkey
  obtain ⟨hvictimMem, hexpired⟩ := mem_cleanupVictims hvictim
  have hsame : victim = receipt :=
    Table.eq_of_conflict (fun _ _ h => h.symm) hvictimMem hmem hkey
  subst hsame
  omega

theorem mem_of_cleanupExpired (h : receipt ∈ (cleanupExpired table nowUnixMs).rows) :
    receipt ∈ table.rows :=
  (mem_delete.mp h).1

theorem length_cleanupExpired_lt (hmem : receipt ∈ table.rows)
    (hexpired : receipt.expiresUnixMs ≤ nowUnixMs) :
    (cleanupExpired table nowUnixMs).rows.length < table.rows.length := by
  have hsome : cleanupVictims table nowUnixMs ≠ [] := by
    unfold cleanupVictims
    rw [Ne, take_eq_nil_iff, not_or]
    refine ⟨by decide, fun hnil => ?_⟩
    have hsorted : receipt ∈ (table.rows.filter fun receipt =>
        receipt.expiresUnixMs ≤ nowUnixMs).insertionSort expiresBefore := by
      rw [mem_insertionSort]
      exact mem_filter.mpr ⟨hmem, by simpa using hexpired⟩
    rw [hnil] at hsorted
    cases hsorted
  obtain ⟨victim, hvictim⟩ := exists_mem_of_ne_nil _ hsome
  refine length_filter_lt_length_iff_exists.mpr ⟨victim, (mem_cleanupVictims hvictim).1, ?_⟩
  grind

/-- Everything that the deletion of an expired receipt can do. -/
theorem expireReceipt_cases {current : Option IdempotencyReceipt}
    (h : expireReceipt table keyDigest nowUnixMs = (current, next)) :
    (∀ receipt ∈ next.rows, receipt ∈ table.rows) ∧
      (∀ receipt ∈ table.rows, receipt.keyDigest ≠ keyDigest → receipt ∈ next.rows) ∧
      next.rows.length ≤ table.rows.length ∧
      (current = none ∧ NoReceipt next keyDigest ∨
        ∃ receipt, current = some receipt ∧ receipt ∈ next.rows ∧
          receipt.keyDigest = keyDigest ∧ nowUnixMs < receipt.expiresUnixMs) := by
  unfold expireReceipt at h
  split at h
  next receipt hload =>
    obtain ⟨hmem, hkey⟩ := loadReceipt_eq_some.mp hload
    split at h
    next hexpired =>
      cases h
      refine ⟨fun other hother => (mem_delete.mp hother).1, fun other hother hne => ?_,
        length_filter_le .., .inl ⟨rfl, fun other hother hsame => ?_⟩⟩
      · exact mem_delete.mpr ⟨hother, by simp [hne]⟩
      · obtain ⟨hother, hkept⟩ := mem_delete.mp hother
        have heq : other = receipt :=
          Table.eq_of_conflict (fun _ _ h => h.symm) hother hmem (hsame.trans hkey.symm)
        grind
    next hactive =>
      grind
  next hload =>
    cases h
    exact ⟨fun _ h => h, fun _ h _ => h, le_rfl, .inl ⟨rfl, loadReceipt_eq_none.mp hload⟩⟩

variable {physicalShard : Nat}

theorem ensureCapacity_spec (h : ensureCapacity table physicalShard nowUnixMs = .ok ()) :
    (∀ receipt ∈ table.rows, receipt.targetShard = physicalShard) ∧
      (table.rows.countP fun receipt => receipt.expiresUnixMs > nowUnixMs) <
        maxIdempotencyReceiptsPerShard := by
  unfold ensureCapacity at h
  rw [ite_throw_eq_ok] at h
  obtain ⟨hplaced, h⟩ := h
  have hall : ∀ receipt ∈ table.rows, receipt.targetShard = physicalShard := by simpa using hplaced
  have hcount : (table.rows.countP fun receipt =>
      receipt.targetShard = physicalShard ∧ receipt.expiresUnixMs > nowUnixMs) =
      table.rows.countP fun receipt => receipt.expiresUnixMs > nowUnixMs := by
    refine countP_congr fun receipt hmem => ?_
    simp [hall receipt hmem]
  dsimp only at h
  rw [hcount, ite_throw_eq_ok] at h
  refine ⟨hall, lt_of_le_of_ne (Nat.not_lt.mp h.1) fun hfull => ?_⟩
  rw [if_pos hfull] at h
  cases h.2

theorem length_lt_of_ensureCapacity (htable : table.rows.length ≤ maxIdempotencyReceiptsPerShard)
    (h : ensureCapacity (cleanupExpired table nowUnixMs) physicalShard nowUnixMs = .ok ()) :
    (cleanupExpired table nowUnixMs).rows.length < maxIdempotencyReceiptsPerShard := by
  by_cases hexpired : ∃ receipt ∈ table.rows, receipt.expiresUnixMs ≤ nowUnixMs
  · obtain ⟨receipt, hmem, hexpired⟩ := hexpired
    exact (length_cleanupExpired_lt hmem hexpired).trans_le htable
  · -- Nothing expired, so the count is the length.
    have hall : (cleanupExpired table nowUnixMs).rows.countP
        (fun receipt => receipt.expiresUnixMs > nowUnixMs) =
        (cleanupExpired table nowUnixMs).rows.length := by
      refine countP_eq_length.mpr fun receipt hmem => ?_
      simp only [decide_eq_true_eq]
      by_contra hle
      exact hexpired ⟨receipt, mem_of_cleanupExpired hmem, Nat.not_lt.mp hle⟩
    rw [← hall]
    exact (ensureCapacity_spec h).2

def NewIdempotencyReceipt.stored (receipt : NewIdempotencyReceipt) (rowsAffected : Nat) :
    IdempotencyReceipt :=
  ⟨receipt.keyDigest, receipt.requestDigest, receipt.targetShard, rowsAffected,
    receipt.createdUnixMs, receipt.expiresUnixMs⟩

/-- Everything that the transaction of a write can do. -/
theorem executeWithReceipt_cases {new : NewIdempotencyReceipt}
    {execution : EngineResult Nat} {outcome : IdempotentExecuteOutcome}
    (h : executeWithReceipt table physicalShard new execution = .ok (outcome, next)) :
    new.targetShard = physicalShard ∧
      (∀ receipt ∈ table.rows, receipt.keyDigest ≠ new.keyDigest →
        new.createdUnixMs < receipt.expiresUnixMs → receipt ∈ next.rows) ∧
      (table.rows.length ≤ maxIdempotencyReceiptsPerShard →
        next.rows.length ≤ maxIdempotencyReceiptsPerShard) ∧
      ((∃ existing, outcome = .existing existing ∧ existing ∈ table.rows ∧
          existing.keyDigest = new.keyDigest ∧ ∀ receipt ∈ next.rows, receipt ∈ table.rows) ∨
        ∃ rowsAffected, execution = .ok rowsAffected ∧
          outcome = .executed (new.stored rowsAffected) ∧ new.stored rowsAffected ∈ next.rows ∧
          ∀ receipt ∈ next.rows, receipt = new.stored rowsAffected ∨ receipt ∈ table.rows) := by
  unfold executeWithReceipt at h
  rw [ite_throw_eq_ok] at h
  obtain ⟨htarget, h⟩ := h
  refine ⟨not_not.mp htarget, ?_⟩
  dsimp only at h
  generalize hdeleted : deleteExpiredKey table new.keyDigest new.createdUnixMs = deleted at h
  have hfewer : ∀ receipt ∈ deleted.rows, receipt ∈ table.rows := by
    subst hdeleted
    exact fun receipt hmem => (mem_delete.mp hmem).1
  have hshorter : deleted.rows.length ≤ table.rows.length := by
    subst hdeleted
    exact length_filter_le ..
  have hkept : ∀ receipt ∈ table.rows, receipt.keyDigest ≠ new.keyDigest →
      new.createdUnixMs < receipt.expiresUnixMs →
      receipt ∈ (cleanupExpired deleted new.createdUnixMs).rows := by
    intro receipt hmem hne hactive
    refine mem_cleanupExpired ?_ hactive
    subst hdeleted
    exact mem_delete.mpr ⟨hmem, by simp [hne]⟩
  split at h
  next existing hload =>
    cases h
    obtain ⟨hmem, hkey⟩ := loadReceipt_eq_some.mp hload
    refine ⟨hkept, fun hle => ?_, .inl ⟨existing, rfl, hfewer _ (mem_of_cleanupExpired hmem), hkey,
      fun receipt hreceipt => hfewer _ (mem_of_cleanupExpired hreceipt)⟩⟩
    exact (length_filter_le ..).trans (hshorter.trans hle)
  next hload =>
    obtain ⟨⟨⟩, hcapacity, h⟩ := bind_eq_ok.mp h
    obtain ⟨rowsAffected, hexecution, h⟩ := bind_eq_ok.mp h
    rw [ite_throw_eq_ok] at h
    obtain ⟨-, h⟩ := h
    split at h
    next inserted hinsert =>
      cases h
      have hrows := Table.rows_insert hinsert
      refine ⟨?_, ?_, .inr ⟨rowsAffected, hexecution, rfl, ?_, ?_⟩⟩
      · grind
      · intro hle
        rw [hrows, length_append]
        exact length_lt_of_ensureCapacity (hshorter.trans hle) hcapacity
      · rw [hrows]
        exact mem_append_right _ (mem_singleton_self _)
      · intro receipt hmem
        rw [hrows] at hmem
        rcases mem_append.mp hmem with hmem | hmem
        · exact .inr (hfewer _ (mem_of_cleanupExpired hmem))
        · exact .inl (mem_singleton.mp hmem)
    next => cases h

end BriskDB.Idempotency
