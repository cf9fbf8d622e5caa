import BriskDB.Lib.Bytes
import BriskDB.Lib.Compare
import BriskDB.Lib.Float64

/-! # Exact identities of BSON numbers

Integers, binary doubles and Decimal128 values are compared by numeric value. A
finite number is kept as `coefficient * 2 ^ exponentTwo * 5 ^ exponentFive` with a
coefficient coprime to ten, which makes the representation unique.
-/

namespace BriskDB.Document

def minCanonicalExponentTwo : Int := -6176
def maxCanonicalExponentTwo : Int := 6223
def minCanonicalExponentFive : Int := -6176
def maxCanonicalExponentFive : Int := 6159

def maxDecimal128Coefficient : Nat := 9999999999999999999999999999999999

def decimal128ExponentBias : Int := 6176

/-- The unique exact identity of a finite BSON number. -/
structure CanonicalFinite where
  negative : Bool
  coefficient : Nat
  exponentTwo : Int
  exponentFive : Int
  canonical : coefficient = 0 ∧ negative = false ∧ exponentTwo = 0 ∧ exponentFive = 0 ∨
    coefficient % 2 ≠ 0 ∧ coefficient % 5 ≠ 0
  deriving DecidableEq

def alignedMagnitude (value : CanonicalFinite) (commonTwo commonFive : Int) : Nat :=
  let deltaTwo := (value.exponentTwo - commonTwo).toNat
  let deltaFive := (value.exponentFive - commonFive).toNat
  let magnitude := value.coefficient <<< deltaTwo
  if deltaFive ≠ 0 then magnitude * 5 ^ deltaFive else magnitude

def CanonicalFinite.magnitudeCmp (left right : CanonicalFinite) : Ordering :=
  let commonTwo := min left.exponentTwo right.exponentTwo
  let commonFive := min left.exponentFive right.exponentFive
  compare (alignedMagnitude left commonTwo commonFive)
    (alignedMagnitude right commonTwo commonFive)

def CanonicalFinite.cmp (left right : CanonicalFinite) : Ordering :=
  if left = right then .eq
  else
    match decide (left.coefficient = 0), decide (right.coefficient = 0) with
    | true, true => .eq
    | true, false => if right.negative then .gt else .lt
    | false, true => if left.negative then .lt else .gt
    | false, false =>
      match left.negative, right.negative with
      | true, false => .lt
      | false, true => .gt
      | false, false => left.magnitudeCmp right
      | true, true => (left.magnitudeCmp right).swap

inductive CanonicalNumber
  | nan
  | negativeInfinity
  | finite (value : CanonicalFinite)
  | positiveInfinity
  deriving DecidableEq

def CanonicalNumber.rank : CanonicalNumber → Nat
  | .nan => 0
  | .negativeInfinity => 1
  | .finite _ => 2
  | .positiveInfinity => 3

def CanonicalNumber.cmp (left right : CanonicalNumber) : Ordering :=
  (compare left.rank right.rank).then
    (match left, right with
      | .finite left, .finite right => left.cmp right
      | _, _ => .eq)

/-- The loop that divides a nonzero coefficient by a factor while it can. -/
def removeFactor (factor coefficient : Nat) (exponent : Int) : Nat × Int :=
  if 1 < factor ∧ 0 < coefficient ∧ coefficient % factor = 0 then
    removeFactor factor (coefficient / factor) (exponent + 1)
  else (coefficient, exponent)
termination_by coefficient
decreasing_by
  · simp [*, Nat.div_lt_self]

variable {factor coefficient : Nat}

theorem removeFactor_spec (exponent : Int) (hfactor : 1 < factor) (hcoefficient : 0 < coefficient) :
    ∃ power : Nat,
      coefficient = (removeFactor factor coefficient exponent).1 * factor ^ power ∧
      (removeFactor factor coefficient exponent).2 = exponent + power ∧
      (removeFactor factor coefficient exponent).1 % factor ≠ 0 := by
  fun_induction removeFactor factor coefficient exponent with
  | case1 coefficient exponent hloop ih =>
    have hdvd := Nat.dvd_of_mod_eq_zero hloop.2.2
    obtain ⟨power, hproduct, hexponent, hmod⟩ :=
      ih (Nat.div_pos (Nat.le_of_dvd hcoefficient hdvd) (by omega))
    refine ⟨power + 1, ?_, by omega, hmod⟩
    rw [Nat.pow_succ, ← Nat.mul_assoc, ← hproduct, Nat.div_mul_cancel hdvd]
  | case2 coefficient exponent hloop =>
    refine ⟨0, by simp, by simp, ?_⟩
    grind

theorem mod_ne_zero_of_mul {n : Nat}
    (h : (coefficient * n) % factor ≠ 0) : coefficient % factor ≠ 0 := by
  intro hmod
  exact h (Nat.mod_eq_zero_of_dvd ((Nat.dvd_of_mod_eq_zero hmod).mul_right n))

theorem pos_of_mod_ne_zero {n : Nat} (h : n % factor ≠ 0) : 0 < n := by
  rw [Nat.pos_iff_ne_zero]
  rintro rfl
  exact h (Nat.zero_mod factor)

/-- Build the canonical form of a finite number. -/
def finite (negative : Bool) (coefficient : Nat) (exponentTwo exponentFive : Int) :
    CanonicalNumber :=
  if hzero : coefficient = 0 then
    .finite ⟨false, 0, 0, 0, .inl ⟨rfl, rfl, rfl, rfl⟩⟩
  else
    let two := removeFactor 2 coefficient exponentTwo
    let five := removeFactor 5 two.1 exponentFive
    .finite
      { negative
        coefficient := five.1
        exponentTwo := two.2
        exponentFive := five.2
        canonical := .inr (by
          obtain ⟨_, _, _, hodd⟩ :=
            removeFactor_spec exponentTwo (by decide : 1 < 2) (Nat.pos_of_ne_zero hzero)
          obtain ⟨_, hproduct', _, hmod⟩ :=
            removeFactor_spec exponentFive (by decide : 1 < 5) (pos_of_mod_ne_zero hodd)
          refine ⟨?_, hmod⟩
          rw [hproduct'] at hodd
          exact mod_ne_zero_of_mul hodd) }

theorem finite_zero (negative : Bool) (exponentTwo exponentFive : Int) :
    finite negative 0 exponentTwo exponentFive =
      .finite ⟨false, 0, 0, 0, .inl ⟨rfl, rfl, rfl, rfl⟩⟩ := rfl

/-- The canonical form moves the factors of two and five into the exponents. -/
theorem finite_spec (negative : Bool) (exponentTwo exponentFive : Int) (hne : coefficient ≠ 0) :
    ∃ (value : CanonicalFinite) (twos fives : Nat),
      finite negative coefficient exponentTwo exponentFive = .finite value ∧
      value.negative = negative ∧ 0 < value.coefficient ∧
      coefficient = value.coefficient * 5 ^ fives * 2 ^ twos ∧
      value.exponentTwo = exponentTwo + twos ∧ value.exponentFive = exponentFive + fives := by
  obtain ⟨twos, htwos, hexponentTwo, hodd⟩ :=
    removeFactor_spec exponentTwo (by decide : 1 < 2) (Nat.pos_of_ne_zero hne)
  obtain ⟨fives, hfives, hexponentFive, hmod⟩ :=
    removeFactor_spec exponentFive (by decide : 1 < 5) (pos_of_mod_ne_zero hodd)
  unfold finite
  rw [dif_neg hne]
  refine ⟨_, twos, fives, rfl, rfl, pos_of_mod_ne_zero hmod, ?_, hexponentTwo, hexponentFive⟩
  grind

def CanonicalNumber.fromInt32 (value : Int32) : CanonicalNumber :=
  Document.finite (decide (value.toInt < 0)) value.toInt.natAbs 0 0

def CanonicalNumber.fromInt64 (value : Int64) : CanonicalNumber :=
  Document.finite (decide (value.toInt < 0)) value.toInt.natAbs 0 0

def CanonicalNumber.fromF64 (value : F64) : CanonicalNumber :=
  if value.isNan then .nan
  else if value.isInfinite ∧ value.negative then .negativeInfinity
  else if value.isInfinite then .positiveInfinity
  else
    let bits := value.toBits.toNat
    let negative : Bool := bits / 2 ^ 63 ≠ 0
    let exponentBits : Nat := bits / 2 ^ 52 % 2 ^ 11
    let fraction : Nat := bits % 2 ^ 52
    if exponentBits = 0 ∧ fraction = 0 then Document.finite false 0 0 0
    else if exponentBits = 0 then Document.finite negative fraction (-1022 - 52) 0
    else Document.finite negative (2 ^ 52 ||| fraction) ((exponentBits : Int) - 1023 - 52) 0

def CanonicalNumber.fromDecimalBid (bid : List UInt8) : CanonicalNumber :=
  let raw := Bytes.toLe bid
  let negative : Bool := raw / 2 ^ 127 ≠ 0
  if raw / 2 ^ 123 % 2 ^ 4 = 0x0f then
    if raw / 2 ^ 122 % 2 ≠ 0 then .nan
    else if negative then .negativeInfinity
    else .positiveInfinity
  else
    let parts : Nat × Nat :=
      if raw / 2 ^ 125 % 2 ^ 2 = 0b11 then
        (raw / 2 ^ 111 % 2 ^ 14, 2 ^ 113 ||| raw % 2 ^ 111)
      else (raw / 2 ^ 113 % 2 ^ 14, raw % 2 ^ 113)
    let coefficient := if parts.2 > maxDecimal128Coefficient then 0 else parts.2
    let exponent := (parts.1 : Int) - decimal128ExponentBias
    Document.finite negative coefficient exponent exponent

def CanonicalFinite.InRange (value : CanonicalFinite) : Prop :=
  minCanonicalExponentTwo ≤ value.exponentTwo ∧ value.exponentTwo ≤ maxCanonicalExponentTwo ∧
    minCanonicalExponentFive ≤ value.exponentFive ∧
    value.exponentFive ≤ maxCanonicalExponentFive ∧ value.coefficient < 2 ^ 128

def CanonicalNumber.InRange : CanonicalNumber → Prop
  | .finite value => value.InRange
  | _ => True

theorem power_le_of_mul {rest power bound : Nat} (hfactor : 1 < factor) (hrest : 0 < rest)
    (hlt : rest * factor ^ power < factor ^ (bound + 1)) : power ≤ bound := by
  by_contra hgt
  have hle : factor ^ (bound + 1) ≤ factor ^ power :=
    Nat.pow_le_pow_right (by omega) (by omega)
  have hmul : factor ^ power ≤ rest * factor ^ power := Nat.le_mul_of_pos_left _ hrest
  omega

/-- The assertions of `finite` hold when the exponents leave room for the powers removed. -/
theorem finite_inRange {negative : Bool} {exponentTwo exponentFive : Int}
    (maxTwos maxFives : Nat) (htwos : coefficient < 2 ^ (maxTwos + 1))
    (hfives : coefficient < 5 ^ (maxFives + 1)) (hcoefficient : coefficient < 2 ^ 128)
    (htwo : coefficient ≠ 0 → minCanonicalExponentTwo ≤ exponentTwo ∧
      exponentTwo + maxTwos ≤ maxCanonicalExponentTwo)
    (hfive : coefficient ≠ 0 → minCanonicalExponentFive ≤ exponentFive ∧
      exponentFive + maxFives ≤ maxCanonicalExponentFive) :
    (finite negative coefficient exponentTwo exponentFive).InRange := by
  by_cases hne : coefficient = 0
  · rw [hne, finite_zero]
    exact ⟨by decide, by decide, by decide, by decide, by decide⟩
  · obtain ⟨value, twos, fives, heq, _, hpos, hproduct, hexponentTwo, hexponentFive⟩ :=
      finite_spec negative exponentTwo exponentFive hne
    obtain ⟨htwoMin, htwoMax⟩ := htwo hne
    obtain ⟨hfiveMin, hfiveMax⟩ := hfive hne
    have hpowTwo : 0 < 2 ^ twos := Nat.two_pow_pos twos
    have hpowFive : 0 < 5 ^ fives := Nat.pow_pos (by decide)
    have hle : value.coefficient * 5 ^ fives ≤ coefficient := by
      rw [hproduct]
      exact Nat.le_mul_of_pos_right _ hpowTwo
    have hle' : value.coefficient ≤ value.coefficient * 5 ^ fives :=
      Nat.le_mul_of_pos_right _ hpowFive
    have htwosLe : twos ≤ maxTwos :=
      power_le_of_mul (by decide) (Nat.mul_pos hpos hpowFive) (hproduct ▸ htwos)
    have hfivesLe : fives ≤ maxFives :=
      power_le_of_mul (by decide) hpos (lt_of_le_of_lt hle hfives)
    rw [heq]
    refine ⟨?_, ?_, ?_, ?_, ?_⟩ <;> omega

theorem CanonicalNumber.fromInt64_inRange (value : Int64) : (fromInt64 value).InRange := by
  have hle := value.le_toInt
  have hlt := value.toInt_lt
  have hbound : value.toInt.natAbs < 2 ^ 64 := by omega
  exact finite_inRange 63 27 hbound (by omega) (by omega) (fun _ => by decide)
    (fun _ => by decide)

theorem CanonicalNumber.fromInt32_inRange (value : Int32) : (fromInt32 value).InRange := by
  have hle := value.le_toInt
  have hlt := value.toInt_lt
  have hbound : value.toInt.natAbs < 2 ^ 64 := by omega
  exact finite_inRange 63 27 hbound (by omega) (by omega) (fun _ => by decide)
    (fun _ => by decide)

theorem CanonicalNumber.fromF64_inRange (value : F64) : (fromF64 value).InRange := by
  have hfraction : value.toBits.toNat % 2 ^ 52 < 2 ^ 52 := Nat.mod_lt _ (by decide)
  have hexponent : value.toBits.toNat / 2 ^ 52 % 2 ^ 11 < 2 ^ 11 := Nat.mod_lt _ (by decide)
  have hsignificand : 2 ^ 52 ||| value.toBits.toNat % 2 ^ 52 < 2 ^ 53 :=
    Nat.or_lt_two_pow (by decide) (by omega)
  unfold fromF64
  split
  · trivial
  · split
    · trivial
    · split
      · trivial
      · dsimp only
        split
        · exact finite_inRange 0 0 (by decide) (by decide) (by decide) nofun nofun
        · split
          · exact finite_inRange 51 22 hfraction (by omega) (by omega)
              (fun _ => by decide) (fun _ => by decide)
          · refine finite_inRange 52 22 hsignificand (by omega) (by omega)
              (fun _ => ⟨?_, ?_⟩) (fun _ => by decide) <;>
            · simp only [minCanonicalExponentTwo, maxCanonicalExponentTwo]
              omega

theorem CanonicalNumber.fromDecimalBid_inRange (bid : List UInt8) :
    (fromDecimalBid bid).InRange := by
  have hmax : maxDecimal128Coefficient < 2 ^ 113 := by decide
  unfold fromDecimalBid
  dsimp only
  split
  · split
    · trivial
    · split <;> trivial
  · split
    · -- the steering form always exceeds the largest coefficient and denotes zero
      next hsteering =>
        have hge : 2 ^ 113 ≤ 2 ^ 113 ||| Bytes.toLe bid % 2 ^ 111 := Nat.left_le_or
        rw [if_pos (by omega)]
        exact finite_inRange 0 0 (by decide) (by decide) (by decide) nofun nofun
    next hnormal =>
      have hbiased : Bytes.toLe bid / 2 ^ 113 % 2 ^ 14 < 3 * 2 ^ 12 := by omega
      have hcoefficient : (if Bytes.toLe bid % 2 ^ 113 > maxDecimal128Coefficient then 0
          else Bytes.toLe bid % 2 ^ 113) ≤ maxDecimal128Coefficient := by
        split <;> omega
      have htwos : maxDecimal128Coefficient < 2 ^ (112 + 1) := by decide
      have hfives : maxDecimal128Coefficient < 5 ^ (48 + 1) := by decide
      dsimp only
      refine finite_inRange 112 48 (by omega) (by omega) (by omega)
        (fun _ => ⟨?_, ?_⟩) (fun _ => ⟨?_, ?_⟩) <;>
      · simp only [minCanonicalExponentTwo, maxCanonicalExponentTwo,
          minCanonicalExponentFive, maxCanonicalExponentFive, decimal128ExponentBias]
        omega

end BriskDB.Document
