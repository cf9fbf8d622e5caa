import BriskDB.Lib.Bytes
import BriskDB.Lib.Compare
import BriskDB.Lib.OrderCode
import BriskDB.Lib.SignBit

/-! # Order-deciding byte words

Words over bytes that decide the order of numbers and byte strings: fixed-width
big-endian numbers, sign-flipped integers, and byte strings in which zero is
escaped and two zeros close the word. Complementing every byte reverses what a
word decides.
-/

namespace ByteCode

open OrderCode Bytes

theorem decides_ofBe {α : Type*} [LinearOrder α] {width m n : Nat} {a b : α}
    (hm : m < 256 ^ width) (hn : n < 256 ^ width) (hlt : a < b ↔ m < n) (hgt : b < a ↔ n < m) :
    Decides (compare a b) (ofBe width m) (ofBe width n) := by
  rw [Compare.compare_congr hlt hgt, ← compare_ofBe hm hn]
  exact Decides.of_length_eq (by simp)

theorem decides_int64 (a b : Int64) :
    Decides (compare a.toInt b.toInt) (ofBe 8 (a.toUInt64 ^^^ (1 : UInt64) <<< 63).toNat)
      (ofBe 8 (b.toUInt64 ^^^ (1 : UInt64) <<< 63).toNat) := by
  have ha := SignBit.toNat_flip64 a
  have hb := SignBit.toNat_flip64 b
  exact decides_ofBe (UInt64.toNat_lt _) (UInt64.toNat_lt _) (by omega) (by omega)

theorem decides_int32 (a b : Int32) :
    Decides (compare a.toInt b.toInt) (ofBe 4 (a.toUInt32 ^^^ (1 : UInt32) <<< 31).toNat)
      (ofBe 4 (b.toUInt32 ^^^ (1 : UInt32) <<< 31).toNat) := by
  have ha := SignBit.toNat_flip32 a
  have hb := SignBit.toNat_flip32 b
  exact decides_ofBe (UInt32.toNat_lt _) (UInt32.toNat_lt _) (by omega) (by omega)

theorem decides_uint64 (a b : UInt64) :
    Decides (compare a.toNat b.toNat) (ofBe 8 a.toNat) (ofBe 8 b.toNat) :=
  decides_ofBe a.toNat_lt b.toNat_lt Iff.rfl Iff.rfl

theorem decides_uint32 (a b : UInt32) :
    Decides (compare a.toNat b.toNat) (ofBe 4 a.toNat) (ofBe 4 b.toNat) :=
  decides_ofBe a.toNat_lt b.toNat_lt Iff.rfl Iff.rfl

theorem decides_escape (x y : List UInt8) :
    Decides (compare x y) (escape 0 255 x) (escape 0 255 y) := by
  refine Decides.escape ?_ (by decide) x y
  intro byte hbyte
  rw [← compare_toNat, Nat.compare_eq_lt]
  exact Nat.pos_of_ne_zero fun h => hbyte (UInt8.toNat_inj.mp h)

def complement (word : List UInt8) : List UInt8 := word.map (~~~·)

theorem compare_complement (a b : UInt8) : compare (~~~a) (~~~b) = (compare a b).swap := by
  rw [← compare_toNat, ← compare_toNat, UInt8.toNat_not, UInt8.toNat_not,
    Nat.compare_swap]
  have ha : a.toNat < 256 := a.toNat_lt
  have hb : b.toNat < 256 := b.toNat_lt
  apply Compare.compare_congr <;> simp only [UInt8.size] <;> omega

theorem decides_complement {o : Ordering} {x y : List UInt8} (h : Decides o x y) :
    Decides o.swap (complement x) (complement y) :=
  h.map_swap compare_complement

end ByteCode
