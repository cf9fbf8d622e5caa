import BriskDB.Document.NumberOrder

/-! # What BSON numbers denote

Each of the four numeric formats has its own meaning: two's complement integers, binary64
bit patterns and Decimal128 patterns in binary integer decimal form. The canonical form of
a number denotes what the number denotes, so equality and order of canonical forms are
equality and order of the denoted numbers.
-/

namespace BriskDB.Document

open CanonicalNumber

/-- Denoted numbers in their order: not a number, negative infinity, the rational numbers,
positive infinity. -/
abbrev NumberValue := WithBot (WithBot (WithTop ℚ))

namespace NumberValue

def nan : NumberValue := ⊥

def negativeInfinity : NumberValue := ((⊥ : WithBot (WithTop ℚ)) : NumberValue)

def rational (q : ℚ) : NumberValue := (((q : WithTop ℚ) : WithBot (WithTop ℚ)) : NumberValue)

def positiveInfinity : NumberValue := (((⊤ : WithTop ℚ) : WithBot (WithTop ℚ)) : NumberValue)

theorem rational_lt {p q : ℚ} : rational p < rational q ↔ p < q := by
  simp [rational]

theorem nan_lt_negativeInfinity : nan < negativeInfinity := WithBot.bot_lt_coe _

theorem negativeInfinity_lt_rational (q : ℚ) : negativeInfinity < rational q :=
  WithBot.coe_lt_coe.mpr (WithBot.bot_lt_coe _)

theorem rational_lt_positiveInfinity (q : ℚ) : rational q < positiveInfinity :=
  WithBot.coe_lt_coe.mpr (WithBot.coe_lt_coe.mpr (WithTop.coe_lt_top q))

end NumberValue

open NumberValue

def binary64Value (value : F64) : NumberValue :=
  let exponent : Nat := value.magnitude / 2 ^ 52
  let fraction : ℚ := (value.magnitude % 2 ^ 52 : Nat) / 2 ^ 52
  let sign : ℚ := if value.negative then -1 else 1
  if exponent = 2047 then
    if fraction ≠ 0 then nan
    else if value.negative then negativeInfinity else positiveInfinity
  else if exponent = 0 then rational (sign * fraction * 2 ^ (-1022 : Int))
  else rational (sign * (1 + fraction) * 2 ^ ((exponent : Int) - 1023))

/-- The value of a Decimal128 pattern. -/
def decimal128Value (bits : BitVec 128) : NumberValue :=
  let sign : ℚ := if bits.getLsbD 127 then -1 else 1
  let number (exponent coefficient : Nat) : NumberValue :=
    rational (sign * (if coefficient < 10 ^ 34 then coefficient else 0 : Nat) *
      10 ^ ((exponent : Int) - 6176))
  if bits.extractLsb' 123 4 = 0b1111#4 then
    if bits.getLsbD 122 then nan
    else if bits.getLsbD 127 then negativeInfinity else positiveInfinity
  else if bits.extractLsb' 125 2 = 0b11#2 then
    number (bits.extractLsb' 111 14).toNat (8 * 2 ^ 110 + (bits.extractLsb' 0 111).toNat)
  else number (bits.extractLsb' 113 14).toNat (bits.extractLsb' 0 113).toNat

inductive BsonNumber
  | int32 (value : Int32)
  | int64 (value : Int64)
  | double (value : F64)
  | decimal128 (bid : Vector UInt8 16)

def BsonNumber.canonical : BsonNumber → CanonicalNumber
  | .int32 value => .fromInt32 value
  | .int64 value => .fromInt64 value
  | .double value => .fromF64 value
  | .decimal128 bid => .fromDecimalBid bid.toList

def BsonNumber.denotes : BsonNumber → NumberValue
  | .int32 value => rational value.toInt
  | .int64 value => rational value.toInt
  | .double value => binary64Value value
  | .decimal128 bid => decimal128Value (BitVec.ofNat 128 (Bytes.toLe bid.toList))

def CanonicalNumber.denotes : CanonicalNumber → NumberValue
  | .nan => NumberValue.nan
  | .negativeInfinity => NumberValue.negativeInfinity
  | .finite value => rational value.value
  | .positiveInfinity => NumberValue.positiveInfinity

def signFactor (negative : Bool) : ℚ := if negative then -1 else 1

theorem denotes_finite (negative : Bool) (coefficient : Nat) (exponentTwo exponentFive : Int) :
    (finite negative coefficient exponentTwo exponentFive).denotes =
      rational (signFactor negative * coefficient * 2 ^ exponentTwo * 5 ^ exponentFive) := by
  by_cases hne : coefficient = 0
  · rw [hne, finite_zero]
    refine congrArg rational ?_
    rw [CanonicalFinite.value_of_zero rfl]
    simp
  · obtain ⟨value, twos, fives, heq, hnegative, _, hproduct, htwo, hfive⟩ :=
      finite_spec negative exponentTwo exponentFive hne
    have hmagnitude : value.magnitude =
        coefficient * (2 : ℚ) ^ exponentTwo * (5 : ℚ) ^ exponentFive := by
      rw [CanonicalFinite.magnitude, htwo, hfive, zpow_add₀ (by norm_num),
        zpow_add₀ (by norm_num), hproduct]
      push_cast
      simp only [zpow_natCast]
      ring
    rw [heq]
    refine congrArg rational ?_
    simp [*, CanonicalFinite.value, signFactor]

theorem signFactor_mul_natAbs (n : Int) : signFactor (decide (n < 0)) * (n.natAbs : ℚ) = n := by
  have habs : (n.natAbs : ℚ) = |(n : ℚ)| := by rw [Nat.cast_natAbs, Int.cast_abs]
  rw [habs, signFactor]
  by_cases hneg : n < 0
  · simp [*, abs_of_neg]
  · have hcast : (0 : ℚ) ≤ n := by exact_mod_cast not_lt.mp hneg
    simp [*]

theorem denotes_fromInt32 (value : Int32) : (fromInt32 value).denotes = rational value.toInt := by
  rw [fromInt32, denotes_finite, zpow_zero, zpow_zero, mul_one, mul_one,
    signFactor_mul_natAbs]

theorem denotes_fromInt64 (value : Int64) : (fromInt64 value).denotes = rational value.toInt := by
  rw [fromInt64, denotes_finite, zpow_zero, zpow_zero, mul_one, mul_one,
    signFactor_mul_natAbs]

theorem f64_fields (value : F64) :
    (value.toBits.toNat / 2 ^ 63 ≠ 0 ↔ value.negative = true) ∧
      value.toBits.toNat / 2 ^ 52 % 2 ^ 11 = value.magnitude / 2 ^ 52 ∧
      value.toBits.toNat % 2 ^ 52 = value.magnitude % 2 ^ 52 := by
  have hbits : value.bits.toNat < 2 ^ 64 := value.bits.toNat_lt
  have hnegative : value.negative = true ↔ 2 ^ 63 ≤ value.bits.toNat := decide_eq_true_iff
  rw [hnegative]
  unfold F64.toBits F64.magnitude
  omega

theorem f64_special (value : F64) :
    (value.isNan = true ↔ value.magnitude / 2 ^ 52 = 2047 ∧ value.magnitude % 2 ^ 52 ≠ 0) ∧
      (value.isInfinite = true ↔
        value.magnitude / 2 ^ 52 = 2047 ∧ value.magnitude % 2 ^ 52 = 0) := by
  have hmagnitude := value.magnitude_lt
  have hnan : value.isNan = true ↔ 0x7ff * 2 ^ 52 < value.magnitude := decide_eq_true_iff
  have hinfinite : value.isInfinite = true ↔ value.magnitude = 0x7ff * 2 ^ 52 :=
    decide_eq_true_iff
  rw [hnan, hinfinite]
  omega

theorem fraction_eq_zero {n : Nat} : ((n : ℚ) / 2 ^ 52 = 0) ↔ n = 0 := by
  rw [div_eq_zero_iff]
  simp

theorem significand_value (sign : ℚ) (significand : Nat) (exponent : Int) :
    sign * ((significand : ℚ) / 2 ^ 52) * 2 ^ exponent =
      sign * significand * 2 ^ (exponent - 52) * 5 ^ (0 : Int) := by
  rw [zpow_sub₀ (by norm_num), zpow_zero, mul_one]
  norm_num
  ring

theorem denotes_fromF64 (value : F64) : (fromF64 value).denotes = binary64Value value := by
  obtain ⟨hnegative, hexponent, hfraction⟩ := f64_fields value
  obtain ⟨hnan, hinfinite⟩ := f64_special value
  have hlt : value.magnitude % 2 ^ 52 < 2 ^ 52 := Nat.mod_lt _ (by decide)
  have hsign : signFactor (decide (value.toBits.toNat / 2 ^ 63 ≠ 0)) =
      if value.negative then -1 else 1 := by
    rw [signFactor]
    simp only [decide_eq_true_eq, hnegative]
  unfold fromF64 binary64Value
  simp only [hnan, hinfinite, hexponent, hfraction, ne_eq, fraction_eq_zero]
  generalize value.magnitude / 2 ^ 52 = exponent
  generalize value.magnitude % 2 ^ 52 = fraction at hlt
  by_cases hspecial : exponent = 2047
  · -- The largest exponent is kept for infinities and for what is not a number.
    by_cases hzero : fraction = 0
    · cases value.negative <;> simp [hspecial, hzero, denotes]
    · simp [hspecial, hzero, denotes]
  · simp only [hspecial, false_and, if_false]
    by_cases hsubnormal : exponent = 0
    · by_cases hzero : fraction = 0
      · simp [hsubnormal, hzero, denotes_finite]
      · simp only [hsubnormal, hzero, and_false, if_false, if_true]
        rw [denotes_finite, hsign, significand_value]
    · have hor : 2 ^ 52 ||| fraction = 2 ^ 52 + fraction :=
        (Nat.two_pow_add_eq_or_of_lt hlt 1).symm
      have hone : (1 : ℚ) + (fraction : ℚ) / 2 ^ 52 = ((2 ^ 52 + fraction : Nat) : ℚ) / 2 ^ 52 := by
        push_cast
        ring
      simp only [hsubnormal, false_and, if_false]
      rw [denotes_finite, hsign, hor, hone, significand_value]

theorem decimal_fields {raw : Nat} (hraw : raw < 2 ^ 128) :
    let bits := BitVec.ofNat 128 raw
    (raw / 2 ^ 127 ≠ 0 ↔ bits.getLsbD 127 = true) ∧
      (raw / 2 ^ 122 % 2 ≠ 0 ↔ bits.getLsbD 122 = true) ∧
      ∀ first width, (bits.extractLsb' first width).toNat = raw / 2 ^ first % 2 ^ width := by
  intro bits
  have htoNat : bits.toNat = raw := Nat.mod_eq_of_lt hraw
  have hbit : ∀ i, bits.getLsbD i = decide (raw / 2 ^ i % 2 = 1) := by
    intro i
    rw [BitVec.getLsbD, htoNat, Nat.testBit_eq_decide_div_mod_eq]
  refine ⟨?_, ?_, ?_⟩
  · rw [hbit, decide_eq_true_iff]
    omega
  · rw [hbit, decide_eq_true_iff]
    omega
  · simp [*, Nat.shiftRight_eq_div_pow]

theorem bitVec_eq_iff {width n : Nat} {x : BitVec width} (hn : n < 2 ^ width) :
    x = BitVec.ofNat width n ↔ x.toNat = n := by
  rw [← BitVec.toNat_inj, BitVec.toNat_ofNat, Nat.mod_eq_of_lt hn]

theorem denotes_decimal (negative : Bool) (exponent coefficient : Nat) :
    (finite negative (if coefficient > maxDecimal128Coefficient then 0 else coefficient)
      (exponent - decimal128ExponentBias) (exponent - decimal128ExponentBias)).denotes =
      rational (signFactor negative * (if coefficient < 10 ^ 34 then coefficient else 0 : Nat) *
        10 ^ ((exponent : Int) - 6176)) := by
  have hcoefficient : (if coefficient > maxDecimal128Coefficient then 0 else coefficient) =
      if coefficient < 10 ^ 34 then coefficient else 0 := by
    unfold maxDecimal128Coefficient
    split <;> split <;> omega
  have hten : (10 : ℚ) ^ ((exponent : Int) - 6176) =
      2 ^ ((exponent : Int) - 6176) * 5 ^ ((exponent : Int) - 6176) := by
    rw [← mul_zpow]
    norm_num
  simp [*, denotes_finite, decimal128ExponentBias, mul_assoc]

theorem denotes_fromDecimalBid (bid : Vector UInt8 16) :
    (fromDecimalBid bid.toList).denotes =
      decimal128Value (BitVec.ofNat 128 (Bytes.toLe bid.toList)) := by
  have hraw : Bytes.toLe bid.toList < 2 ^ 128 := by
    have hlt := Bytes.toLe_lt bid.toList
    rw [Vector.length_toList] at hlt
    exact hlt
  unfold fromDecimalBid decimal128Value
  generalize Bytes.toLe bid.toList = raw at hraw
  obtain ⟨hnegative, hquiet, hfield⟩ := decimal_fields hraw
  have hsign : signFactor (decide (raw / 2 ^ 127 ≠ 0)) =
      if (BitVec.ofNat 128 raw).getLsbD 127 then -1 else 1 := by
    rw [signFactor]
    simp only [decide_eq_true_eq, hnegative]
  have hspecial := @bitVec_eq_iff 4 0b1111 ((BitVec.ofNat 128 raw).extractLsb' 123 4) (by decide)
  have hsteering := @bitVec_eq_iff 2 0b11 ((BitVec.ofNat 128 raw).extractLsb' 125 2) (by decide)
  rw [hfield] at hspecial hsteering
  simp only [hspecial, hsteering, hfield, ← hsign]
  by_cases hinfinite : raw / 2 ^ 123 % 2 ^ 4 = 0b1111
  · simp only [hinfinite, if_true, hquiet, ne_eq, decide_eq_true_eq] at hnegative ⊢
    cases (BitVec.ofNat 128 raw).getLsbD 122 <;> cases hbit : (BitVec.ofNat 128 raw).getLsbD 127 <;>
      simp_all [denotes]
  · simp only [hinfinite, if_false]
    by_cases hlarge : raw / 2 ^ 125 % 2 ^ 2 = 0b11
    · have hor : 2 ^ 113 ||| raw % 2 ^ 111 = 8 * 2 ^ 110 + raw % 2 ^ 111 :=
        (Nat.two_pow_add_eq_or_of_lt
          (lt_trans (Nat.mod_lt _ (by decide)) (by decide : 2 ^ 111 < 2 ^ 113)) 1).symm
      simp only [hlarge, if_true, hor, Nat.pow_zero, Nat.div_one]
      exact denotes_decimal _ _ _
    · simp only [hlarge, if_false, Nat.pow_zero, Nat.div_one]
      exact denotes_decimal _ _ _

theorem denotes_canonical (number : BsonNumber) : number.canonical.denotes = number.denotes := by
  cases number with
  | int32 value => exact denotes_fromInt32 value
  | int64 value => exact denotes_fromInt64 value
  | double value => exact denotes_fromF64 value
  | decimal128 bid => exact denotes_fromDecimalBid bid

theorem canonical_inRange (number : BsonNumber) : number.canonical.InRange := by
  cases number with
  | int32 value => exact fromInt32_inRange value
  | int64 value => exact fromInt64_inRange value
  | double value => exact fromF64_inRange value
  | decimal128 bid => exact fromDecimalBid_inRange bid.toList

theorem denotes_lt_of_rank_lt {x y : CanonicalNumber} (h : x.rank < y.rank) :
    x.denotes < y.denotes := by
  have hnegative := nan_lt_negativeInfinity
  have hbelow := negativeInfinity_lt_rational
  have habove := rational_lt_positiveInfinity
  cases x with
  | nan =>
    cases y with
    | nan => exact absurd h (lt_irrefl _)
    | negativeInfinity => exact hnegative
    | finite right => exact hnegative.trans (hbelow right.value)
    | positiveInfinity => exact (hnegative.trans (hbelow 0)).trans (habove 0)
  | negativeInfinity =>
    cases y with
    | nan => exact absurd h (by decide)
    | negativeInfinity => exact absurd h (lt_irrefl _)
    | finite right => exact hbelow right.value
    | positiveInfinity => exact (hbelow 0).trans (habove 0)
  | finite left =>
    cases y with
    | positiveInfinity => exact habove left.value
    | nan => exact absurd h (Nat.not_lt_zero _)
    | negativeInfinity => exact absurd h (Nat.not_lt.mpr (Nat.le_succ 1))
    | finite right => exact absurd h (lt_irrefl 2)
  | positiveInfinity =>
    cases y with
    | nan | negativeInfinity => exact absurd h (by decide)
    | finite right => exact absurd h (Nat.not_lt.mpr (Nat.le_succ 2))
    | positiveInfinity => exact absurd h (lt_irrefl _)

theorem cmp_rational (p q : ℚ) : cmp (rational p) (rational q) = compare p q := by
  rcases lt_trichotomy p q with hlt | rfl | hgt
  · rw [compare_lt_iff_lt.mpr hlt]
    exact (cmp_eq_lt_iff _ _).mpr (rational_lt.mpr hlt)
  · simp
  · rw [compare_gt_iff_gt.mpr hgt]
    exact (cmp_eq_gt_iff _ _).mpr (rational_lt.mpr hgt)

/-- Canonical numbers are compared like the numbers they denote. -/
theorem cmp_eq_cmp_denotes (x y : CanonicalNumber) : x.cmp y = cmp x.denotes y.denotes := by
  unfold CanonicalNumber.cmp
  rcases lt_trichotomy x.rank y.rank with hlt | heq | hgt
  · rw [Nat.compare_eq_lt.mpr hlt, (cmp_eq_lt_iff _ _).mpr (denotes_lt_of_rank_lt hlt)]
    rfl
  · rw [heq, Nat.compare_eq_eq.mpr rfl, Ordering.eq_then]
    -- Only finite numbers of one kind can differ.
    cases x <;> cases y <;> simp only [rank] at heq <;>
      simp only [denotes, cmp_self_eq_eq, cmp_rational, CanonicalFinite.cmp_eq] <;>
      omega
  · rw [Nat.compare_eq_gt.mpr hgt, (cmp_eq_gt_iff _ _).mpr (denotes_lt_of_rank_lt hgt)]
    rfl

theorem denotes_injective : Function.Injective denotes := by
  intro x y h
  have hcmp := cmp_eq_cmp_denotes x y
  rw [h, cmp_self_eq_eq] at hcmp
  exact cmp_eq_eq.mp hcmp

/-- Canonicalisation of numbers is exact: every number of the four formats has a canonical
form within the asserted ranges that denotes what the number denotes; canonical numbers are
equal exactly when they denote the same, and are compared by what they denote. -/
theorem canonicalNumber_exact :
    (∀ number : BsonNumber,
      number.canonical.InRange ∧ number.canonical.denotes = number.denotes) ∧
    (∀ x y : CanonicalNumber, x = y ↔ x.denotes = y.denotes) ∧
    ∀ x y : CanonicalNumber, x.cmp y = cmp x.denotes y.denotes :=
  ⟨fun number => ⟨canonical_inRange number, denotes_canonical number⟩,
    fun _ _ => denotes_injective.eq_iff.symm, cmp_eq_cmp_denotes⟩

end BriskDB.Document
