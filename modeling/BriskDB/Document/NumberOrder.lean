import BriskDB.Document.Number
import BriskDB.Lib.Digits
import BriskDB.Lib.OrderCode
import BriskDB.Lib.SignBit

/-! # The order of BSON numbers

Canonical finite numbers are ordered by the rational number they denote, and two
of them denote the same number only when they are the same. The scientific
decimal notation used by ordered sort bytes decides that order.
-/

namespace BriskDB.Document

namespace CanonicalFinite

def magnitude (x : CanonicalFinite) : ℚ :=
  x.coefficient * (2 : ℚ) ^ x.exponentTwo * (5 : ℚ) ^ x.exponentFive

def value (x : CanonicalFinite) : ℚ := if x.negative then -x.magnitude else x.magnitude

variable {x y : CanonicalFinite}

theorem ext_fields (hnegative : x.negative = y.negative)
    (hcoefficient : x.coefficient = y.coefficient) (htwo : x.exponentTwo = y.exponentTwo)
    (hfive : x.exponentFive = y.exponentFive) : x = y := by
  cases x
  cases y
  simp_all

theorem magnitude_pos (hne : x.coefficient ≠ 0) : 0 < x.magnitude := by
  have hpos : (0 : ℚ) < x.coefficient := by exact_mod_cast Nat.pos_of_ne_zero hne
  unfold magnitude
  positivity

theorem fields_of_zero (hzero : x.coefficient = 0) :
    x.negative = false ∧ x.exponentTwo = 0 ∧ x.exponentFive = 0 := by
  rcases x.canonical with h | h
  · exact h.2
  · omega

theorem value_of_zero (hzero : x.coefficient = 0) : x.value = 0 := by
  simp [*, value, magnitude]

theorem coefficient_mod (hne : x.coefficient ≠ 0) :
    x.coefficient % 2 ≠ 0 ∧ x.coefficient % 5 ≠ 0 := by
  rcases x.canonical with h | h
  · exact absurd h.1 hne
  · exact h

theorem alignedMagnitude_eq (x : CanonicalFinite) (commonTwo commonFive : Int) :
    alignedMagnitude x commonTwo commonFive =
      x.coefficient * 2 ^ (x.exponentTwo - commonTwo).toNat *
        5 ^ (x.exponentFive - commonFive).toNat := by
  unfold alignedMagnitude
  simp only [Nat.shiftLeft_eq]
  split
  · rfl
  next hzero => rw [not_not.mp hzero, Nat.pow_zero, Nat.mul_one]

theorem cast_alignedMagnitude {commonTwo commonFive : Int}
    (htwo : commonTwo ≤ x.exponentTwo) (hfive : commonFive ≤ x.exponentFive) :
    (alignedMagnitude x commonTwo commonFive : ℚ) * ((2 : ℚ) ^ commonTwo * (5 : ℚ) ^ commonFive) =
      x.magnitude := by
  have hpowTwo : (2 : ℚ) ^ x.exponentTwo =
      2 ^ (x.exponentTwo - commonTwo).toNat * (2 : ℚ) ^ commonTwo := by
    rw [← zpow_natCast, ← zpow_add₀ (by norm_num), Int.toNat_of_nonneg (by omega)]
    congr 1
    omega
  have hpowFive : (5 : ℚ) ^ x.exponentFive =
      5 ^ (x.exponentFive - commonFive).toNat * (5 : ℚ) ^ commonFive := by
    rw [← zpow_natCast, ← zpow_add₀ (by norm_num), Int.toNat_of_nonneg (by omega)]
    congr 1
    omega
  rw [alignedMagnitude_eq, magnitude, hpowTwo, hpowFive]
  push_cast
  ring

theorem magnitudeCmp_eq (x y : CanonicalFinite) :
    x.magnitudeCmp y = compare x.magnitude y.magnitude := by
  unfold magnitudeCmp
  dsimp only
  rw [← cast_alignedMagnitude (Int.min_le_left x.exponentTwo y.exponentTwo)
      (Int.min_le_left x.exponentFive y.exponentFive),
    ← cast_alignedMagnitude (Int.min_le_right x.exponentTwo y.exponentTwo)
      (Int.min_le_right x.exponentFive y.exponentFive)]
  have hpos : (0 : ℚ) < (2 : ℚ) ^ min x.exponentTwo y.exponentTwo *
      (5 : ℚ) ^ min x.exponentFive y.exponentFive := by positivity
  symm
  apply Compare.compare_congr <;> rw [mul_lt_mul_iff_left₀ hpos, Nat.cast_lt]

/-- The comparison of the source is the comparison of the denoted numbers. -/
theorem cmp_eq (x y : CanonicalFinite) : x.cmp y = compare x.value y.value := by
  unfold cmp
  split
  next heq => simp [*]
  · by_cases hx : x.coefficient = 0 <;> by_cases hy : y.coefficient = 0
    · simp [*, value_of_zero]
    · have hpos := magnitude_pos hy
      simp only [hx, hy, decide_true, decide_false]
      rw [value_of_zero hx, value]
      split
      · exact (compare_gt_iff_gt.mpr (neg_neg_of_pos hpos)).symm
      · exact (compare_lt_iff_lt.mpr hpos).symm
    · have hpos := magnitude_pos hx
      simp only [hx, hy, decide_true, decide_false]
      rw [value_of_zero hy, value]
      split
      · exact (compare_lt_iff_lt.mpr (neg_neg_of_pos hpos)).symm
      · exact (compare_gt_iff_gt.mpr hpos).symm
    · have hposX := magnitude_pos hx
      have hposY := magnitude_pos hy
      simp only [hx, hy, decide_false]
      unfold value
      cases x.negative <;> cases y.negative <;> simp
      · exact magnitudeCmp_eq x y
      · exact (compare_gt_iff_gt.mpr (by linarith)).symm
      · exact (compare_lt_iff_lt.mpr (by linarith)).symm
      · rw [magnitudeCmp_eq]
        exact (Compare.compare_strictAnti (fun _ _ h => neg_lt_neg h) _ _).symm

/-- A larger exponent would leave a factor in the other coefficient. -/
theorem exponent_le_of_aligned {factor a b : Nat} {e f : Int} (hb : b % factor ≠ 0)
    (heq : a * factor ^ (e - min e f).toNat = b * factor ^ (f - min e f).toNat) : e ≤ f := by
  by_contra hlt
  have hzero : (f - min e f).toNat = 0 := by omega
  obtain ⟨k, hk⟩ : ∃ k, (e - min e f).toNat = k + 1 := ⟨(e - min e f).toNat - 1, by omega⟩
  rw [hzero, hk, Nat.pow_zero, Nat.mul_one] at heq
  apply hb
  rw [← heq, Nat.pow_succ, ← Nat.mul_assoc]
  exact Nat.mul_mod_left _ _

theorem mul_pow_mod_ne_zero {p q c : Nat} (hp : p.Prime) (hq : ¬p ∣ q) (hc : c % p ≠ 0)
    (k : Nat) : c * q ^ k % p ≠ 0 := by
  intro hmod
  rcases hp.dvd_mul.mp (Nat.dvd_of_mod_eq_zero hmod) with h | h
  · exact hc (Nat.mod_eq_zero_of_dvd h)
  · exact hq (hp.dvd_of_dvd_pow h)

theorem exponents_of_aligned (hy : y.coefficient ≠ 0)
    (heq : x.coefficient * 2 ^ (x.exponentTwo - min x.exponentTwo y.exponentTwo).toNat *
        5 ^ (x.exponentFive - min x.exponentFive y.exponentFive).toNat =
      y.coefficient * 2 ^ (y.exponentTwo - min x.exponentTwo y.exponentTwo).toNat *
        5 ^ (y.exponentFive - min x.exponentFive y.exponentFive).toNat) :
    x.exponentTwo ≤ y.exponentTwo ∧ x.exponentFive ≤ y.exponentFive := by
  constructor
  · have hodd : ¬2 ∣ 5 := by decide
    rw [Nat.mul_right_comm, Nat.mul_right_comm y.coefficient] at heq
    exact exponent_le_of_aligned
      (mul_pow_mod_ne_zero Nat.prime_two hodd (coefficient_mod hy).1 _) heq
  · exact exponent_le_of_aligned
      (mul_pow_mod_ne_zero Nat.prime_five (by decide) (coefficient_mod hy).2 _) heq

theorem fields_of_magnitude_eq (hx : x.coefficient ≠ 0)
    (hy : y.coefficient ≠ 0) (heq : x.magnitude = y.magnitude) :
    x.coefficient = y.coefficient ∧ x.exponentTwo = y.exponentTwo ∧
      x.exponentFive = y.exponentFive := by
  have hcmp : x.magnitudeCmp y = .eq := by
    rw [magnitudeCmp_eq, compare_eq_iff_eq]
    exact heq
  have haligned := compare_eq_iff_eq.mp hcmp
  rw [alignedMagnitude_eq, alignedMagnitude_eq] at haligned
  obtain ⟨htwo, hfive⟩ := exponents_of_aligned hy haligned
  have haligned' := haligned.symm
  rw [Int.min_comm x.exponentTwo, Int.min_comm x.exponentFive] at haligned'
  obtain ⟨htwo', hfive'⟩ := exponents_of_aligned hx haligned'
  grind

/-- Two canonical finite numbers denote the same number only when they are equal. -/
theorem value_injective : Function.Injective value := by
  intro x y heq
  by_cases hx : x.coefficient = 0 <;> by_cases hy : y.coefficient = 0
  · obtain ⟨hnegX, htwoX, hfiveX⟩ := fields_of_zero hx
    obtain ⟨hnegY, htwoY, hfiveY⟩ := fields_of_zero hy
    exact ext_fields (hnegX.trans hnegY.symm) (hx.trans hy.symm) (htwoX.trans htwoY.symm)
      (hfiveX.trans hfiveY.symm)
  · grind [magnitude_pos, value_of_zero, value]
  · grind [magnitude_pos, value_of_zero, value]
  · have hposX := magnitude_pos hx
    have hposY := magnitude_pos hy
    unfold value at heq
    cases hnegX : x.negative <;> cases hnegY : y.negative <;>
      simp only [hnegX, hnegY, Bool.false_eq_true, ↓reduceIte] at heq
    · obtain ⟨hcoefficient, htwo, hfive⟩ := fields_of_magnitude_eq hx hy heq
      exact ext_fields (hnegX.trans hnegY.symm) hcoefficient htwo hfive
    · linarith
    · linarith
    · obtain ⟨hcoefficient, htwo, hfive⟩ := fields_of_magnitude_eq hx hy (neg_injective heq)
      exact ext_fields (hnegX.trans hnegY.symm) hcoefficient htwo hfive

theorem cmp_eq_eq : x.cmp y = .eq ↔ x = y := by
  rw [cmp_eq, compare_eq_iff_eq, value_injective.eq_iff]

variable (x)

def commonExponent : Int := min x.exponentTwo x.exponentFive

def decimalInteger : Nat :=
  alignedMagnitude x x.commonExponent x.commonExponent

def decimalDigits : List Nat := (Nat.digits 10 x.decimalInteger).reverse

def scientificExponent : Int :=
  x.commonExponent + x.decimalDigits.length - 1

theorem decimalInteger_eq :
    x.decimalInteger = x.coefficient * 2 ^ (x.exponentTwo - x.commonExponent).toNat *
      5 ^ (x.exponentFive - x.commonExponent).toNat :=
  alignedMagnitude_eq x _ _

variable {x}

theorem decimalInteger_ne_zero (hne : x.coefficient ≠ 0) : x.decimalInteger ≠ 0 := by
  rw [decimalInteger_eq]
  positivity

theorem decimalInteger_mod_ten (hne : x.coefficient ≠ 0) : x.decimalInteger % 10 ≠ 0 := by
  obtain ⟨htwo, hfive⟩ := coefficient_mod hne
  intro hmod
  rw [decimalInteger_eq] at hmod
  rcases Int.le_total x.exponentTwo x.exponentFive with hle | hle
  · have hzero : (x.exponentTwo - x.commonExponent).toNat = 0 := by
      unfold commonExponent
      omega
    rw [hzero, Nat.pow_zero, Nat.mul_one] at hmod
    have hodd : ¬2 ∣ 5 := by decide
    have hmodTwo := mul_pow_mod_ne_zero Nat.prime_two hodd htwo
      (x.exponentFive - x.commonExponent).toNat
    omega
  · have hzero : (x.exponentFive - x.commonExponent).toNat = 0 := by
      unfold commonExponent
      omega
    rw [hzero, Nat.pow_zero, Nat.mul_one] at hmod
    have hnot : ¬5 ∣ 2 := by decide
    have hmodFive := mul_pow_mod_ne_zero Nat.prime_five hnot hfive
      (x.exponentTwo - x.commonExponent).toNat
    omega

theorem magnitude_eq_decimal (x : CanonicalFinite) :
    x.magnitude = x.decimalInteger * (10 : ℚ) ^ x.commonExponent := by
  have haligned : (x.decimalInteger : ℚ) *
      ((2 : ℚ) ^ x.commonExponent * (5 : ℚ) ^ x.commonExponent) = x.magnitude :=
    cast_alignedMagnitude (Int.min_le_left _ _) (Int.min_le_right _ _)
  rw [← haligned, ← mul_zpow]
  norm_num

theorem decimalDigits_lt {d : Nat} (hd : d ∈ x.decimalDigits) : d < 10 :=
  Nat.digits_lt_base (by decide) (List.mem_reverse.mp hd)

theorem decimalDigits_trimmed (hne : x.coefficient ≠ 0) : Digits.Trimmed x.decimalDigits := by
  intro d hd
  have hmod := decimalInteger_mod_ten hne
  unfold decimalDigits at hd
  rw [List.getLast?_reverse, Nat.digits_def' (by decide)
    (Nat.pos_of_ne_zero (decimalInteger_ne_zero hne))] at hd
  obtain rfl : x.decimalInteger % 10 = d := Option.some.inj hd
  exact hmod

theorem magnitude_eq_scientific (x : CanonicalFinite) :
    x.magnitude = Digits.fraction 10 x.decimalDigits * (10 : ℚ) ^ (x.scientificExponent + 1) := by
  have hexponent : x.scientificExponent + 1 = x.commonExponent +
    (x.decimalDigits.length : Int) := by
    unfold scientificExponent
    omega
  rw [magnitude_eq_decimal, hexponent, zpow_add₀ (by norm_num), zpow_natCast, decimalDigits]
  have hfraction := Digits.fraction_reverse_digits (b := 10) (by decide) x.decimalInteger
  rw [hfraction, List.length_reverse]
  push_cast
  field_simp

theorem fraction_decimalDigits (hne : x.coefficient ≠ 0) :
    1 / ((10 : ℕ) : ℚ) ≤ Digits.fraction 10 x.decimalDigits ∧
      Digits.fraction 10 x.decimalDigits < 1 := by
  refine ⟨?_, Digits.fraction_lt_one (by decide) (fun d hd => decimalDigits_lt hd)⟩
  have hlength := Nat.base_pow_length_digits_le' 8 x.decimalInteger (decimalInteger_ne_zero hne)
  have hcast : ((10 : ℕ) : ℚ) ^ (Nat.digits 10 x.decimalInteger).length ≤
      ((10 : ℕ) : ℚ) * x.decimalInteger := by exact_mod_cast hlength
  rw [decimalDigits, Digits.fraction_reverse_digits (by decide),
    div_le_div_iff₀ (by positivity) (by positivity)]
  linarith

theorem compare_magnitude (hx : x.coefficient ≠ 0) (hy : y.coefficient ≠ 0) :
    compare x.magnitude y.magnitude =
      (compare x.scientificExponent y.scientificExponent).then
        (compare x.decimalDigits y.decimalDigits) := by
  have hscientific := Digits.compare_scientific (b := 10) (s := x.scientificExponent + 1)
    (t := y.scientificExponent + 1) (by decide) (fraction_decimalDigits hx)
    (fraction_decimalDigits hy)
  rw [magnitude_eq_scientific x, magnitude_eq_scientific y]
  rw [Nat.cast_ofNat] at hscientific
  rw [hscientific, Digits.compare_fraction (by decide) (fun d hd => decimalDigits_lt hd)
    (fun d hd => decimalDigits_lt hd) (decimalDigits_trimmed hx) (decimalDigits_trimmed hy)]
  congr 1
  apply Compare.compare_congr <;> omega

end CanonicalFinite

theorem CanonicalNumber.cmp_eq_eq {x y : CanonicalNumber} : x.cmp y = .eq ↔ x = y := by
  unfold cmp
  rw [Ordering.then_eq_eq, Nat.compare_eq_eq]
  cases x <;> cases y <;>
    simp [CanonicalNumber.rank, CanonicalFinite.cmp_eq_eq]

end BriskDB.Document
