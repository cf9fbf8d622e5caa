import BriskDB.Lib.Compare

/-! # Digit strings and scientific notation

A positive number in base `b` is a fraction `0.d₁d₂…` with a nonzero first digit,
scaled by a power of the base. Comparing exponents first and digit strings
second is comparing the numbers, provided the strings carry no trailing zeros.
-/

namespace Digits

open List

variable {b : ℕ}

/-- The fraction `0.d₁d₂…` in base `b`. -/
def fraction (b : ℕ) : List ℕ → ℚ
  | [] => 0
  | d :: digits => (d + fraction b digits) / b

/-- A digit string whose last digit, if there is one, is not zero. -/
def Trimmed (digits : List ℕ) : Prop := ∀ d ∈ digits.getLast?, d ≠ 0

variable {d : ℕ} {digits : List ℕ}

theorem Trimmed.tail (h : Trimmed (d :: digits)) : Trimmed digits := by
  intro last hlast
  cases digits with
  | nil => cases hlast
  | cons d' digits => exact h last (by rwa [getLast?_cons_cons])

theorem fraction_nonneg (digits : List ℕ) : 0 ≤ fraction b digits := by
  induction digits with
  | nil => exact le_refl 0
  | cons d digits ih =>
    rw [fraction]
    positivity

section

variable (hb : 1 < b)
include hb

theorem fraction_lt_one (hdigits : ∀ d ∈ digits, d < b) : fraction b digits < 1 := by
  induction digits with
  | nil => exact zero_lt_one
  | cons d digits ih =>
    have hlt := ih (forall_mem_cons.mp hdigits).2
    have hd : (d : ℚ) + 1 ≤ b := by exact_mod_cast hdigits d mem_cons_self
    have hbpos : (0 : ℚ) < b := by exact_mod_cast Nat.lt_trans Nat.zero_lt_one hb
    rw [fraction, div_lt_one hbpos]
    linarith

theorem fraction_pos (hne : digits ≠ []) (htrimmed : Trimmed digits) : 0 < fraction b digits := by
  have hbpos : (0 : ℚ) < b := by exact_mod_cast Nat.lt_trans Nat.zero_lt_one hb
  induction digits with
  | nil => contradiction
  | cons d digits ih =>
    rw [fraction]
    apply div_pos _ hbpos
    cases digits with
    | nil =>
      have hd : d ≠ 0 := htrimmed d rfl
      rw [fraction, add_zero]
      exact_mod_cast Nat.pos_of_ne_zero hd
    | cons d' digits =>
      have hpos := ih (cons_ne_nil _ _) htrimmed.tail
      positivity

theorem compare_add_div {x y : ℚ} {e : ℕ} (hx : 0 ≤ x ∧ x < 1) (hy : 0 ≤ y ∧ y < 1) :
    compare ((d + x) / b) ((e + y) / b) = (compare d e).then (compare x y) := by
  have hbpos : (0 : ℚ) < b := by exact_mod_cast Nat.lt_trans Nat.zero_lt_one hb
  rcases lt_trichotomy d e with h | h | h
  · have hde : (d : ℚ) + 1 ≤ e := by exact_mod_cast h
    rw [compare_lt_iff_lt.mpr h, Ordering.lt_then, compare_lt_iff_lt]
    exact div_lt_div_of_pos_right (by linarith) hbpos
  · subst h
    rw [compare_eq_iff_eq.mpr rfl, Ordering.eq_then]
    apply Compare.compare_congr <;> rw [div_lt_div_iff_of_pos_right hbpos, add_lt_add_iff_left]
  · have hed : (e : ℚ) + 1 ≤ d := by exact_mod_cast h
    rw [compare_gt_iff_gt.mpr h, Ordering.gt_then, compare_gt_iff_gt]
    exact div_lt_div_of_pos_right (by linarith) hbpos

theorem compare_fraction {x y : List ℕ} (hx : ∀ d ∈ x, d < b) (hy : ∀ d ∈ y, d < b)
    (htx : Trimmed x) (hty : Trimmed y) : compare x y = compare (fraction b x) (fraction b y) := by
  induction x generalizing y with
  | nil =>
    cases y with
    | nil => exact (compare_eq_iff_eq.mpr rfl).symm
    | cons e y => exact (compare_lt_iff_lt.mpr (fraction_pos hb (cons_ne_nil _ _) hty)).symm
  | cons d x ih =>
    cases y with
    | nil => exact (compare_gt_iff_gt.mpr (fraction_pos hb (cons_ne_nil _ _) htx)).symm
    | cons e y =>
      have hx' : ∀ d' ∈ x, d' < b := (forall_mem_cons.mp hx).2
      have hy' : ∀ d' ∈ y, d' < b := (forall_mem_cons.mp hy).2
      rw [List.compare_cons_cons, ih hx' hy' htx.tail hty.tail, fraction, fraction,
        compare_add_div hb ⟨fraction_nonneg x, fraction_lt_one hb hx'⟩
          ⟨fraction_nonneg y, fraction_lt_one hb hy'⟩]

theorem fraction_append_singleton (digits : List ℕ) (d : ℕ) :
    fraction b (digits ++ [d]) = fraction b digits + d / b ^ (digits.length + 1) := by
  have hbne : (b : ℚ) ≠ 0 := by exact_mod_cast (Nat.lt_trans Nat.zero_lt_one hb).ne'
  induction digits with
  | nil => simp [fraction]
  | cons d' digits ih =>
    grind [fraction]

theorem fraction_reverse_digits (n : ℕ) :
    fraction b (Nat.digits b n).reverse = n / b ^ (Nat.digits b n).length := by
  have hbne : (b : ℚ) ≠ 0 := by exact_mod_cast (Nat.lt_trans Nat.zero_lt_one hb).ne'
  suffices h : ∀ digits : List ℕ,
      fraction b digits.reverse = Nat.ofDigits b digits / b ^ digits.length by
    rw [h, Nat.ofDigits_digits]
  intro digits
  induction digits with
  | nil => simp [fraction]
  | cons d digits ih =>
    rw [reverse_cons, fraction_append_singleton hb, ih, length_reverse,
      Nat.ofDigits_cons, length_cons]
    grind

theorem compare_scientific {f g : ℚ} {s t : ℤ} (hf : 1 / (b : ℚ) ≤ f ∧ f < 1)
    (hg : 1 / (b : ℚ) ≤ g ∧ g < 1) :
    compare (f * (b : ℚ) ^ s) (g * (b : ℚ) ^ t) = (compare s t).then (compare f g) := by
  have hbpos : (0 : ℚ) < b := by exact_mod_cast Nat.lt_trans Nat.zero_lt_one hb
  have hbone : (1 : ℚ) < b := by exact_mod_cast hb
  -- a smaller exponent loses against the least fraction of a larger one
  have hseparate : ∀ {f g : ℚ} {s t : ℤ}, f < 1 → 1 / (b : ℚ) ≤ g → s < t →
      f * (b : ℚ) ^ s < g * (b : ℚ) ^ t := by
    intro f g s t hf hg hst
    calc f * (b : ℚ) ^ s < 1 * (b : ℚ) ^ s :=
          mul_lt_mul_of_pos_right hf (zpow_pos hbpos s)
      _ ≤ 1 / (b : ℚ) * (b : ℚ) ^ t := by
          rw [one_mul, one_div, ← zpow_neg_one, ← zpow_add₀ hbpos.ne']
          exact zpow_le_zpow_right₀ hbone.le (by omega)
      _ ≤ g * (b : ℚ) ^ t := mul_le_mul_of_nonneg_right hg (zpow_pos hbpos t).le
  rcases lt_trichotomy s t with h | h | h
  · grind [Ordering.lt_then, compare_lt_iff_lt]
  · subst h
    rw [compare_eq_iff_eq.mpr rfl, Ordering.eq_then]
    grind [zpow_pos, Compare.compare_congr, mul_lt_mul_iff_left₀]
  · grind [Ordering.gt_then, compare_gt_iff_gt]

end

end Digits
