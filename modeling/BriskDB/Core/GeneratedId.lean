import BriskDB.Core.Error
import Mathlib

/-! # Generated row IDs

The stable encodings of generated IDs. A native ID carries a marker, the slot of
its owner and a sequence local to the owner; a hi/lo ID carries a smaller marker
and a sequence of the whole table. A stored key is interpreted by the policy of
its table, never by its bits alone.
-/

namespace BriskDB.GeneratedId

def nativeRangeV1FormatMarker : Nat := 2 ^ 62
def maxAllocationOwnerSlot : Nat := 2 ^ 10 - 1
def maxNativeRangeV1LocalSequence : Nat := 2 ^ 52 - 1

def hiloV1FormatMarker : Nat := 2 ^ 61
def maxHiloV1Sequence : Nat := 2 ^ 61 - 1

/-- How a table generates its IDs; the column is the one that holds them. -/
inductive GeneratedIdPolicy
  | none
  | nativeRangeV1 (column : String)
  | hiloV1 (column : String)
  deriving DecidableEq

structure NativeRangeV1Id where
  owner : Nat
  localSequence : Nat
  deriving DecidableEq

structure HiloV1Id where
  sequence : Nat
  deriving DecidableEq

namespace HiloV1Id

def new (sequence : Nat) : EngineResult HiloV1Id :=
  if sequence = 0 then .error (.new .invalidArgument "hilo_v1 sequence zero is reserved")
  else if sequence > maxHiloV1Sequence then
    .error (.new .numericOutOfRange
      ("hilo_v1 sequence " ++ toString sequence ++ " exceeds " ++ toString maxHiloV1Sequence))
  else .ok ⟨sequence⟩

def encode (id : HiloV1Id) : Int := ((hiloV1FormatMarker ||| id.sequence : Nat) : Int)

end HiloV1Id

inductive GeneratedIdClassification
  | legacy (value : Int)
  | nativeRangeV1 (id : NativeRangeV1Id)
  | hiloV1 (id : HiloV1Id)
  deriving DecidableEq

def decodeNativeRangeV1 (encoded : Int) (reservedErrorKind : EngineErrorKind) :
    EngineResult (Option NativeRangeV1Id) :=
  if encoded < 0 then .ok .none
  else
    let bits := encoded.toNat
    if bits &&& nativeRangeV1FormatMarker = 0 then .ok .none
    else
      let localSequence := bits &&& maxNativeRangeV1LocalSequence
      if localSequence = 0 then
        .error (.new reservedErrorKind
          "native_range_v1 row ID contains the reserved local sequence zero")
      else .ok (some ⟨(bits >>> 52) &&& maxAllocationOwnerSlot, localSequence⟩)

def decodeHiloV1 (encoded : Int) (reservedErrorKind : EngineErrorKind) :
    EngineResult (Option HiloV1Id) :=
  if encoded < 0 then .ok .none
  else
    let bits := encoded.toNat
    if bits < hiloV1FormatMarker then .ok .none
    else if bits > hiloV1FormatMarker ||| maxHiloV1Sequence then
      .error (.new reservedErrorKind "hilo_v1 row ID uses an incompatible generated-ID namespace")
    else
      let sequence := bits &&& maxHiloV1Sequence
      if sequence = 0 then
        .error (.new reservedErrorKind "hilo_v1 row ID contains the reserved sequence zero")
      else .ok (some ⟨sequence⟩)

def classifyGeneratedId (policy : GeneratedIdPolicy) (encoded : Int) :
    EngineResult GeneratedIdClassification :=
  match policy with
  | .none => .ok (.legacy encoded)
  | .nativeRangeV1 _ => do
    match ← decodeNativeRangeV1 encoded .dataCorruption with
    | some id => return .nativeRangeV1 id
    | .none => return .legacy encoded
  | .hiloV1 _ => do
    match ← decodeHiloV1 encoded .dataCorruption with
    | some id => return .hiloV1 id
    | .none => return .legacy encoded

def hiloV1FirstId : Int := HiloV1Id.encode ⟨1⟩
def hiloV1SequenceCeiling : Int := HiloV1Id.encode ⟨maxHiloV1Sequence⟩

variable {sequence : Nat}

theorem HiloV1Id.encode_eq (h : sequence ≤ maxHiloV1Sequence) :
    HiloV1Id.encode ⟨sequence⟩ = ((2 ^ 61 + sequence : Nat) : Int) := by
  have hlt : sequence < 2 ^ 61 := by
    have hmax : maxHiloV1Sequence = 2 ^ 61 - 1 := rfl
    omega
  have hor := Nat.two_pow_add_eq_or_of_lt hlt 1
  rw [Nat.mul_one] at hor
  rw [encode, hiloV1FormatMarker, hor]

theorem HiloV1Id.new_eq_ok {id : HiloV1Id} (h : HiloV1Id.new sequence = .ok id) :
    id = ⟨sequence⟩ ∧ 1 ≤ sequence ∧ sequence ≤ maxHiloV1Sequence := by
  unfold HiloV1Id.new at h
  grind

def sequenceOf (encoded : Int) : Nat := encoded.toNat % 2 ^ 61

theorem sequenceOf_encode (h : sequence ≤ maxHiloV1Sequence) :
    sequenceOf (HiloV1Id.encode ⟨sequence⟩) = sequence := by
  have hmax : maxHiloV1Sequence = 2 ^ 61 - 1 := rfl
  rw [sequenceOf, HiloV1Id.encode_eq h, Int.toNat_natCast]
  omega

/-- Encoded sequences lie in the hi/lo interval and are recognised as generated. -/
theorem classify_encode (column : String) (hpos : 1 ≤ sequence)
    (hmax : sequence ≤ maxHiloV1Sequence) :
    hiloV1FirstId ≤ HiloV1Id.encode ⟨sequence⟩ ∧
      HiloV1Id.encode ⟨sequence⟩ ≤ hiloV1SequenceCeiling ∧
      classifyGeneratedId (.hiloV1 column) (HiloV1Id.encode ⟨sequence⟩) =
        .ok (.hiloV1 ⟨sequence⟩) := by
  have hbound : maxHiloV1Sequence = 2 ^ 61 - 1 := rfl
  have hfirst : hiloV1FirstId = ((2 ^ 61 + 1 : Nat) : Int) := by decide
  have hceiling : hiloV1SequenceCeiling = ((2 ^ 61 + maxHiloV1Sequence : Nat) : Int) :=
    HiloV1Id.encode_eq le_rfl
  have hlast : hiloV1FormatMarker ||| maxHiloV1Sequence = 2 ^ 61 + maxHiloV1Sequence := by decide
  have hmask : (2 ^ 61 + sequence) &&& maxHiloV1Sequence = sequence := by
    rw [hbound, Nat.and_two_pow_sub_one_eq_mod]
    omega
  rw [HiloV1Id.encode_eq hmax, hfirst, hceiling]
  refine ⟨by omega, by omega, ?_⟩
  have hdecode : decodeHiloV1 ((2 ^ 61 + sequence : Nat) : Int) .dataCorruption =
      .ok (some ⟨sequence⟩) := by
    unfold decodeHiloV1
    rw [if_neg (by omega)]
    simp only [Int.toNat_natCast, hmask, hlast]
    rw [if_neg (by rw [hiloV1FormatMarker]; omega), if_neg (by omega), if_neg (by omega)]
  unfold classifyGeneratedId
  rw [hdecode]
  rfl

end BriskDB.GeneratedId
