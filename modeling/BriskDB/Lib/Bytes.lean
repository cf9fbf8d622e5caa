import Mathlib

/-! # Fixed-width byte codes of natural numbers

Numbers below `256 ^ width` are written with `width` bytes, most or least
significant byte first. Both codes are inverted by reading the bytes back, and
the most-significant-first code sorts like the numbers themselves.
-/

namespace Bytes

open List

/-- The `width` low-order bytes of a number, most significant first. -/
def ofBe : Nat → Nat → List UInt8
  | 0, _ => []
  | width + 1, n => ofBe width (n / 256) ++ [UInt8.ofNat n]

/-- The `width` low-order bytes of a number, least significant first. -/
def ofLe : Nat → Nat → List UInt8
  | 0, _ => []
  | width + 1, n => UInt8.ofNat n :: ofLe width (n / 256)

def toBe (bytes : List UInt8) : Nat :=
  bytes.foldl (fun n byte => n * 256 + byte.toNat) 0

def toLe : List UInt8 → Nat
  | [] => 0
  | byte :: bytes => byte.toNat + 256 * toLe bytes

@[simp] theorem ofBe_length (width n : Nat) : (ofBe width n).length = width := by
  induction width generalizing n with
  | zero => rfl
  | succ width ih => simp [ofBe, ih]

@[simp] theorem ofLe_length (width n : Nat) : (ofLe width n).length = width := by
  induction width generalizing n with
  | zero => rfl
  | succ width ih => simp [ofLe, ih]

theorem toNat_ofNat_eq_mod (n : Nat) : (UInt8.ofNat n).toNat = n % 256 := rfl

variable (bytes : List UInt8)

theorem toBe_append_singleton (byte : UInt8) :
    toBe (bytes ++ [byte]) = toBe bytes * 256 + byte.toNat := by
  simp [toBe]

theorem toBe_ofBe (width n : Nat) : toBe (ofBe width n) = n % 256 ^ width := by
  induction width generalizing n with
  | zero => simp [ofBe, toBe, Nat.mod_one]
  | succ width ih =>
    rw [ofBe, toBe_append_singleton, ih, toNat_ofNat_eq_mod, Nat.pow_succ,
      Nat.mul_comm (256 ^ width) 256, Nat.mod_mul]
    omega

theorem toLe_ofLe (width n : Nat) : toLe (ofLe width n) = n % 256 ^ width := by
  induction width generalizing n with
  | zero => simp [ofLe, toLe, Nat.mod_one]
  | succ width ih =>
    rw [ofLe, toLe, ih, toNat_ofNat_eq_mod, Nat.pow_succ, Nat.mul_comm (256 ^ width) 256,
      Nat.mod_mul]

variable {width n : Nat}

theorem toLe_ofLe_of_lt (hn : n < 256 ^ width) : toLe (ofLe width n) = n := by
  rw [toLe_ofLe, Nat.mod_eq_of_lt hn]

theorem toBe_ofBe_of_lt (hn : n < 256 ^ width) : toBe (ofBe width n) = n := by
  rw [toBe_ofBe, Nat.mod_eq_of_lt hn]

theorem toLe_lt : toLe bytes < 256 ^ bytes.length := by
  induction bytes with
  | nil => simp [toLe]
  | cons byte bytes ih =>
    have hbyte : byte.toNat < 256 := byte.toNat_lt
    rw [toLe, length_cons, Nat.pow_succ]
    omega

theorem toBe_lt : toBe bytes < 256 ^ bytes.length := by
  induction bytes using List.reverseRecOn with
  | nil => simp [toBe]
  | append_singleton bytes byte ih =>
    have hbyte : byte.toNat < 256 := byte.toNat_lt
    rw [toBe_append_singleton, length_append, length_singleton, Nat.pow_succ]
    omega

theorem ofLe_toLe : ofLe bytes.length (toLe bytes) = bytes := by
  induction bytes with
  | nil => rfl
  | cons byte bytes ih =>
    have hbyte : byte.toNat < 256 := byte.toNat_lt
    have hdiv : (byte.toNat + 256 * toLe bytes) / 256 = toLe bytes := by omega
    simp [*, toLe, ofLe]

theorem ofLe_take (h : n ≤ bytes.length) : ofLe n (toLe (bytes.take n)) = bytes.take n := by
  grind [ofLe_toLe, length_take_of_le]

theorem ofBe_toBe : ofBe bytes.length (toBe bytes) = bytes := by
  induction bytes using List.reverseRecOn with
  | nil => rfl
  | append_singleton bytes byte ih =>
    have hbyte : byte.toNat < 256 := byte.toNat_lt
    have hdiv : (toBe bytes * 256 + byte.toNat) / 256 = toBe bytes := by omega
    have hlast : UInt8.ofNat (toBe bytes * 256 + byte.toNat) = byte := by
      apply UInt8.toNat_inj.mp
      rw [toNat_ofNat_eq_mod]
      omega
    rw [toBe_append_singleton, length_append, length_singleton, ofBe, hdiv, ih, hlast]

theorem toBe_cons (byte : UInt8) (bytes : List UInt8) :
    toBe (byte :: bytes) = byte.toNat * 256 ^ bytes.length + toBe bytes := by
  induction bytes using List.reverseRecOn with
  | nil => simp [toBe]
  | append_singleton bytes last ih =>
    rw [← cons_append, toBe_append_singleton, ih, toBe_append_singleton,
      length_append, length_singleton, Nat.pow_succ]
    ring

/-- The shortest bytes of a number: leading zeros are dropped. -/
def stripZeros : List UInt8 := bytes.dropWhile (· == 0)

theorem toBe_stripZeros : toBe (stripZeros bytes) = toBe bytes := by
  induction bytes with
  | nil => rfl
  | cons byte bytes ih =>
    unfold stripZeros at ih ⊢
    rw [dropWhile_cons]
    split
    next hzero =>
      obtain rfl := beq_iff_eq.mp hzero
      rw [ih, toBe_cons]
      simp
    · rfl

theorem head_stripZeros : (stripZeros bytes).head? ≠ some 0 := by
  induction bytes with
  | nil => nofun
  | cons byte bytes ih =>
    unfold stripZeros at ih ⊢
    rw [dropWhile_cons]
    grind

theorem length_stripZeros_le {bytes : List UInt8} (h : toBe bytes < 256 ^ width) :
    (stripZeros bytes).length ≤ width := by
  rw [← toBe_stripZeros] at h
  have hhead := head_stripZeros bytes
  cases hstripped : stripZeros bytes with
  | nil => exact Nat.zero_le width
  | cons byte rest =>
    rw [hstripped, toBe_cons] at h
    rw [hstripped] at hhead
    have hbyte : 1 ≤ byte.toNat := by
      rw [Nat.one_le_iff_ne_zero]
      intro hzero
      exact hhead (congrArg some (UInt8.toNat_inj.mp hzero))
    have hlt : 256 ^ rest.length < 256 ^ width :=
      lt_of_le_of_lt (le_trans (Nat.le_mul_of_pos_left _ hbyte) (Nat.le_add_right _ _)) h
    exact (Nat.pow_lt_pow_iff_right (by decide)).mp hlt

theorem compare_toNat (a b : UInt8) : compare a.toNat b.toNat = compare a b := by
  simp only [compare, compareOfLessAndEq, UInt8.lt_iff_toNat_lt, UInt8.toNat_inj]

/-- Comparing quotients first and remainders second is comparing the numbers. -/
theorem compare_div_then_mod (m n : Nat) :
    (compare (m / 256) (n / 256)).then (compare (m % 256) (n % 256)) = compare m n := by
  rcases lt_trichotomy (m / 256) (n / 256) with hlt | heq | hgt
  · rw [Nat.compare_eq_lt.mpr hlt, Ordering.lt_then, eq_comm, Nat.compare_eq_lt]
    omega
  · rw [Nat.compare_eq_eq.mpr heq, Ordering.eq_then]
    rcases lt_trichotomy (m % 256) (n % 256) with hlt | hmod | hgt
    · rw [Nat.compare_eq_lt.mpr hlt, eq_comm, Nat.compare_eq_lt]
      omega
    · rw [Nat.compare_eq_eq.mpr hmod, eq_comm, Nat.compare_eq_eq]
      omega
    · rw [Nat.compare_eq_gt.mpr hgt, eq_comm, Nat.compare_eq_gt]
      omega
  · rw [Nat.compare_eq_gt.mpr hgt, Ordering.gt_then, eq_comm, Nat.compare_eq_gt]
    omega

theorem compare_append_singleton {x y : List UInt8} (hlength : x.length = y.length) (a b : UInt8) :
    compare (x ++ [a]) (y ++ [b]) = (compare x y).then (compare a b) := by
  induction x generalizing y with
  | nil =>
    cases y with
    | nil => simp
    | cons => simp at hlength
  | cons c x ih =>
    cases y with
    | nil => simp at hlength
    | cons d y =>
      rw [List.cons_append, List.cons_append, List.compare_cons_cons, List.compare_cons_cons,
        ih (Nat.succ.inj hlength), Ordering.then_assoc]

theorem compare_ofBe {m : Nat} (hm : m < 256 ^ width) (hn : n < 256 ^ width) :
    compare (ofBe width m) (ofBe width n) = compare m n := by
  induction width generalizing m n with
  | zero =>
    grind
  | succ width ih =>
    rw [Nat.pow_succ] at hm hn
    have hm' : m / 256 < 256 ^ width := by omega
    have hn' : n / 256 < 256 ^ width := by omega
    rw [ofBe, ofBe, compare_append_singleton (by simp), ih hm' hn', ← compare_toNat,
      toNat_ofNat_eq_mod, toNat_ofNat_eq_mod, compare_div_then_mod]

end Bytes
