import Mathlib

/-! # Binary64 values as bit patterns

A binary64 value is identified with its 64 bits: a sign bit, an 11-bit exponent
and a 52-bit fraction. Comparisons that programs make on floats are stated on
these fields, so no arithmetic on reals is involved.
-/

/-- A binary64 value, given by its bit pattern. -/
@[ext] structure F64 where
  bits : UInt64
  deriving DecidableEq, Repr

namespace F64

variable (value : F64)

def toBits : UInt64 := value.bits

def fromBits (bits : UInt64) : F64 := ⟨bits⟩

def negative : Bool := 2 ^ 63 ≤ value.bits.toNat

def magnitude : Nat := value.bits.toNat % 2 ^ 63

/-- The common magnitude of the two infinities; larger magnitudes are NaNs. -/
def infinityMagnitude : Nat := 0x7ff * 2 ^ 52

def isNan : Bool := infinityMagnitude < value.magnitude

/-- The comparison `value == 0.0`, which both signed zeros satisfy. -/
def isZero : Bool := value.magnitude = 0

def isInfinite : Bool := value.magnitude = infinityMagnitude

/-- The NaN that newly computed values get. -/
def nan : F64 := fromBits 0x7ff8000000000000

/-- The rank of a value: NaNs are equal and greatest, and the two zeros are equal. -/
def rank : Int :=
  if value.isNan then 2 ^ 63
  else if value.negative then -(value.magnitude : Int)
  else value.magnitude

theorem magnitude_lt : value.magnitude < 2 ^ 63 :=
  Nat.mod_lt _ (by decide)

theorem toNat_eq :
    value.bits.toNat = (if value.negative then 2 ^ 63 else 0) + value.magnitude := by
  have hlt : value.bits.toNat < 2 ^ 64 := value.bits.toNat_lt
  unfold negative magnitude
  grind

theorem rank_of_isNan {value : F64} (hnan : value.isNan = true) : value.rank = 2 ^ 63 := by
  unfold rank
  rw [if_pos hnan]

theorem rank_le_of_not_isNan {value : F64} (hnan : ¬value.isNan = true) :
    value.rank ≤ infinityMagnitude := by
  have hle : value.magnitude ≤ infinityMagnitude := by simpa [isNan] using hnan
  unfold rank
  grind

end F64
