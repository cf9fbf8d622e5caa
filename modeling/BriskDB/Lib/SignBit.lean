import Mathlib

/-! # Flipping the sign bit

A two's-complement number whose top bit is flipped becomes the unsigned number
that is larger by half the range, so flipping the bit turns the signed order
into the unsigned one.
-/

namespace SignBit

theorem xor_two_pow {n k : Nat} (hn : n < 2 ^ (k + 1)) :
    n ^^^ 2 ^ k = if n < 2 ^ k then n + 2 ^ k else n - 2 ^ k := by
  have hpos : 0 < 2 ^ k := Nat.two_pow_pos k
  have hdiv : (n ^^^ 2 ^ k) / 2 ^ k = n / 2 ^ k ^^^ 1 := by
    rw [Nat.xor_div_two_pow, Nat.div_self hpos]
  have hmod : (n ^^^ 2 ^ k) % 2 ^ k = n % 2 ^ k := by
    rw [Nat.xor_mod_two_pow, Nat.mod_self, Nat.xor_zero]
  have hsplit := Nat.div_add_mod (n ^^^ 2 ^ k) (2 ^ k)
  rw [hdiv, hmod] at hsplit
  rw [← hsplit]
  rw [Nat.pow_succ] at hn
  split
  next hlow =>
    rw [Nat.div_eq_of_lt hlow, Nat.mod_eq_of_lt hlow, Nat.zero_xor]
    omega
  next hhigh =>
    have hone : n / 2 ^ k = 1 := by apply Nat.div_eq_of_lt_le <;> omega
    rw [hone, Nat.mod_eq_sub_mod (by omega), Nat.mod_eq_of_lt (by omega), Nat.xor_self]
    omega

theorem and_two_pow_eq_zero {n k : Nat} (hn : n < 2 ^ (k + 1)) : n &&& 2 ^ k = 0 ↔ n < 2 ^ k := by
  have hpos : 0 < 2 ^ k := Nat.two_pow_pos k
  rw [Nat.and_two_pow, Nat.testBit_eq_decide_div_mod_eq]
  rw [Nat.pow_succ] at hn
  by_cases hlow : n < 2 ^ k
  · simp [Nat.div_eq_of_lt hlow, hlow]
  · have hone : n / 2 ^ k = 1 := by
      apply Nat.div_eq_of_lt_le <;> omega
    simp [hone, hlow]

theorem toNat_xor64 (x : UInt64) :
    (x ^^^ (1 : UInt64) <<< 63).toNat =
      if x.toNat < 2 ^ 63 then x.toNat + 2 ^ 63 else x.toNat - 2 ^ 63 := by
  rw [UInt64.toNat_xor]
  exact xor_two_pow x.toNat_lt

theorem toNat_xor32 (x : UInt32) :
    (x ^^^ (1 : UInt32) <<< 31).toNat =
      if x.toNat < 2 ^ 31 then x.toNat + 2 ^ 31 else x.toNat - 2 ^ 31 := by
  rw [UInt32.toNat_xor]
  exact xor_two_pow x.toNat_lt

theorem and64_eq_zero (x : UInt64) : x &&& (1 : UInt64) <<< 63 = 0 ↔ x.toNat < 2 ^ 63 := by
  rw [← UInt64.toNat_inj, UInt64.toNat_and]
  exact and_two_pow_eq_zero x.toNat_lt

@[simp] theorem xor64_xor64 (x : UInt64) :
    x ^^^ (1 : UInt64) <<< 63 ^^^ (1 : UInt64) <<< 63 = x := by
  simp

@[simp] theorem xor32_xor32 (x : UInt32) :
    x ^^^ (1 : UInt32) <<< 31 ^^^ (1 : UInt32) <<< 31 = x := by
  simp

theorem toNat_flip64 (x : Int64) :
    ((x.toUInt64 ^^^ (1 : UInt64) <<< 63).toNat : Int) = x.toInt + 2 ^ 63 := by
  have hnat : x.toUInt64.toNat = x.toBitVec.toNat := rfl
  have hint : x.toInt = x.toBitVec.toInt := rfl
  have hlt : x.toBitVec.toNat < 2 ^ 64 := x.toBitVec.isLt
  rw [toNat_xor64, hint, BitVec.toInt_eq_toNat_cond, hnat]
  split <;> split <;> omega

theorem toNat_flip32 (x : Int32) :
    ((x.toUInt32 ^^^ (1 : UInt32) <<< 31).toNat : Int) = x.toInt + 2 ^ 31 := by
  have hnat : x.toUInt32.toNat = x.toBitVec.toNat := rfl
  have hint : x.toInt = x.toBitVec.toInt := rfl
  have hlt : x.toBitVec.toNat < 2 ^ 32 := x.toBitVec.isLt
  rw [toNat_xor32, hint, BitVec.toInt_eq_toNat_cond, hnat]
  split <;> split <;> omega

end SignBit
