import BriskDB.Core.Error
import BriskDB.Lib.Blake3
import BriskDB.Lib.Float64
import BriskDB.Lib.PrefixCode
import BriskDB.Lib.Utf8

/-! # Identities of durable idempotent writes

A write intent is named by a caller's key. Its meaning is fixed by a fingerprint over a framed
encoding of the statement, the typed parameters, the routing input, the database, the table and
the shard. The encoding is injective: every variable part stands behind its length.
-/

namespace BriskDB

open Bytes Utf8

/-- A protocol-neutral value. -/
inductive Value
  | null
  | boolean (value : Bool)
  | int64 (value : Int64)
  | uint64 (value : UInt64)
  | float64 (value : F64)
  | decimal (value : String)
  | text (value : String)
  | invalidText (value : List UInt8)
  | binary (value : List UInt8)
  deriving DecidableEq

/-- The bytes of a value that are written behind their length fit in memory. -/
def Value.Fits : Value → Prop
  | .decimal value | .text value => (bytes value).length < 2 ^ 64
  | .invalidText value | .binary value => value.length < 2 ^ 64
  | _ => True

namespace Idempotency

open PrefixCode

def idempotencyFingerprintVersion : Nat := 1

def idempotencyReceiptRetentionMs : Nat := 24 * 60 * 60 * 1000

def maxIdempotencyReceiptsPerShard : Nat := 4096

def keyDigestContext : String := "briskdb durable idempotency key digest v1"

def requestDigestContext : String := "briskdb durable idempotent write semantics v1"

def executeWriteScope : String := "core.Engine.execute_idempotent_write.v1"

@[ext] structure IdempotencyKey where
  bytes : List UInt8
  length_eq : bytes.length = 16
  nonzero : bytes ≠ List.replicate 16 0

instance : DecidableEq IdempotencyKey := fun _ _ => decidable_of_iff _ IdempotencyKey.ext_iff.symm

/-- Everything that makes two writes different. -/
structure WriteRequest where
  exactSql : String
  params : List Value
  routingKey : Option String
  logicalDatabase : UInt64
  table : UInt64
  targetShard : UInt16
  sql_fits : (bytes exactSql).length < 2 ^ 64
  params_fit : params.length < 2 ^ 64 ∧ ∀ value ∈ params, value.Fits
  routing_fits : ∀ key ∈ routingKey, (bytes key).length < 2 ^ 64
  deriving DecidableEq

def hashBytes (value : List UInt8) : List UInt8 := ofLe 8 value.length ++ value

def hashValue : Value → List UInt8
  | .null => [0]
  | .boolean value => [1, if value then 1 else 0]
  | .int64 value => 2 :: ofLe 8 value.toUInt64.toNat
  | .uint64 value => 3 :: ofLe 8 value.toNat
  | .float64 value => 4 :: ofLe 8 value.toBits.toNat
  | .decimal value => 5 :: hashBytes (bytes value)
  | .text value => 6 :: hashBytes (bytes value)
  | .invalidText value => 7 :: hashBytes value
  | .binary value => 8 :: hashBytes value

def hashRoutingKey : Option String → List UInt8
  | some routingKey => 1 :: hashBytes (bytes routingKey)
  | none => [0]

def requestBytes (write : WriteRequest) : List UInt8 :=
  hashBytes (bytes executeWriteScope) ++ (ofLe 4 idempotencyFingerprintVersion ++
    (hashBytes (bytes write.exactSql) ++
      ((ofLe 8 write.params.length ++ write.params.flatMap hashValue) ++
        (hashRoutingKey write.routingKey ++ (ofLe 8 write.logicalDatabase.toNat ++
          (ofLe 8 write.table.toNat ++ ofLe 2 write.targetShard.toNat))))))

structure IdempotencyDigests where
  key : Blake3.Digest
  request : Blake3.Digest

def writeDigests (deriveKey : List UInt8 → List UInt8 → Blake3.Digest) (key : IdempotencyKey)
    (write : WriteRequest) : IdempotencyDigests where
  key := deriveKey (bytes keyDigestContext) key.bytes
  request := deriveKey (bytes requestDigestContext) (requestBytes write)

theorem separates_hashBytes {x y : List UInt8} (hx : x.length < 2 ^ 64) (hy : y.length < 2 ^ 64) :
    Separates (x = y) (hashBytes x) (hashBytes y) :=
  separates_sized hx hy

theorem separates_ofLe_uint64 (x y : UInt64) :
    Separates (x = y) (ofLe 8 x.toNat) (ofLe 8 y.toNat) :=
  (separates_ofLe x.toNat_lt y.toNat_lt).imp UInt64.toNat_inj.mp

theorem separates_hashValue {v w : Value} (hv : v.Fits) (hw : w.Fits) :
    Separates (v = w) (hashValue v) (hashValue w) := by
  cases v <;> cases w <;> try exact .of_head_ne (by decide)
  case null.null => exact (Separates.of_length_eq rfl).imp fun _ => rfl
  case boolean.boolean left right =>
    have hlength : (hashValue (.boolean left)).length = (hashValue (.boolean right)).length := rfl
    refine (Separates.of_length_eq hlength).imp fun heq => ?_
    cases left <;> cases right <;> first | rfl | cases heq
  case int64.int64 left right =>
    refine (separates_ofLe_uint64 _ _).tagged.imp fun heq => ?_
    cases left
    cases right
    exact congrArg (fun word => Value.int64 ⟨word⟩) heq
  case uint64.uint64 left right =>
    exact (separates_ofLe_uint64 _ _).tagged.imp (congrArg Value.uint64)
  case float64.float64 left right =>
    refine (separates_ofLe_uint64 _ _).tagged.imp fun heq => ?_
    exact congrArg Value.float64 (F64.ext heq)
  case decimal.decimal left right =>
    refine (separates_hashBytes hv hw).tagged.imp fun heq => ?_
    exact congrArg Value.decimal (bytes_injective heq)
  case text.text left right =>
    refine (separates_hashBytes hv hw).tagged.imp fun heq => ?_
    exact congrArg Value.text (bytes_injective heq)
  case invalidText.invalidText left right =>
    exact (separates_hashBytes hv hw).tagged.imp (congrArg Value.invalidText)
  case binary.binary left right =>
    exact (separates_hashBytes hv hw).tagged.imp (congrArg Value.binary)

theorem separates_params {v w : List Value} (hv : v.length < 2 ^ 64 ∧ ∀ value ∈ v, value.Fits)
    (hw : w.length < 2 ^ 64 ∧ ∀ value ∈ w, value.Fits) :
    Separates (v = w) (ofLe 8 v.length ++ v.flatMap hashValue)
      (ofLe 8 w.length ++ w.flatMap hashValue) := by
  refine ((separates_ofLe hv.1 hw.1).append fun hlength => .flatMap hlength ?_).imp And.right
  grind [separates_hashValue]

theorem separates_hashRoutingKey {x y : Option String} (hx : ∀ key ∈ x, (bytes key).length < 2 ^ 64)
    (hy : ∀ key ∈ y, (bytes key).length < 2 ^ 64) :
    Separates (x = y) (hashRoutingKey x) (hashRoutingKey y) := by
  cases x with
  | none =>
    cases y with
    | none => exact (Separates.of_length_eq rfl).imp fun _ => rfl
    | some right => exact .of_head_ne (by decide)
  | some left =>
    cases y with
    | none => exact .of_head_ne (by decide)
    | some right =>
      refine (separates_hashBytes (hx left rfl) (hy right rfl)).tagged.imp fun heq => ?_
      exact congrArg some (bytes_injective heq)

theorem requestBytes_injective : Function.Injective requestBytes := by
  intro left right heq
  have hshards : Separates (left.targetShard.toNat = right.targetShard.toNat)
      (ofLe 2 left.targetShard.toNat) (ofLe 2 right.targetShard.toNat) :=
    separates_ofLe left.targetShard.toNat_lt right.targetShard.toNat_lt
  have hwords :=
    (Separates.of_length_eq (x := hashBytes (bytes executeWriteScope)) rfl).append fun _ =>
    (Separates.of_length_eq (x := ofLe 4 idempotencyFingerprintVersion) rfl).append fun _ =>
    (separates_hashBytes left.sql_fits right.sql_fits).append fun _ =>
    (separates_params left.params_fit right.params_fit).append fun _ =>
    (separates_hashRoutingKey left.routing_fits right.routing_fits).append fun _ =>
    (separates_ofLe_uint64 left.logicalDatabase right.logicalDatabase).append fun _ =>
    (separates_ofLe_uint64 left.table right.table).append fun _ => hshards
  obtain ⟨-, -, hsql, hparams, hrouting, hdatabase, htable, hshard⟩ := hwords.of_eq heq
  cases left
  cases right
  simp only [WriteRequest.mk.injEq]
  exact ⟨bytes_injective hsql, hparams, hrouting, hdatabase, htable,
    UInt16.toNat_inj.mp hshard⟩

end Idempotency

end BriskDB
