import Mathlib

/-! # Text as bytes

A string is a validated sequence of UTF-8 bytes. The two directions are total
on strings and partial on bytes, and they are inverse to each other.
-/

namespace Utf8

open List

def bytes (text : String) : List UInt8 := text.toByteArray.data.toList

def decode (bytes : List UInt8) : Option String :=
  if hvalid : (ByteArray.mk bytes.toArray).validateUTF8 = true then
    some (String.ofByteArray _ (ByteArray.validateUTF8_eq_true_iff.mp hvalid))
  else none

theorem bytes_injective {left right : String} (h : bytes left = bytes right) : left = right := by
  apply String.toByteArray_inj.mp
  unfold bytes at h
  cases hleft : left.toByteArray with
  | mk leftData =>
    cases hright : right.toByteArray with
    | mk rightData =>
      rw [hleft, hright] at h
      exact congrArg ByteArray.mk (Array.toList_inj.mp h)

theorem decode_bytes (text : String) : decode (bytes text) = some text := by
  have harray : ByteArray.mk (bytes text).toArray = text.toByteArray := by simp [bytes]
  have hvalid : (ByteArray.mk (bytes text).toArray).validateUTF8 = true := by
    rw [harray]
    exact ByteArray.validateUTF8_eq_true_iff.mpr text.isValidUTF8
  unfold decode
  rw [dif_pos hvalid]
  exact congrArg some (String.toByteArray_inj.mp harray)

theorem bytes_ofList {chars : List Char} (h : ∀ c ∈ chars, c.utf8Size = 1) :
    bytes (String.ofList chars) = chars.map fun c => c.val.toUInt8 := by
  have hencode : bytes (String.ofList chars) = chars.flatMap String.utf8EncodeChar := by
    simp [bytes, List.utf8Encode, data_toByteArray]
  rw [hencode]
  calc chars.flatMap String.utf8EncodeChar
      = chars.flatMap fun c => [c.val.toUInt8] := flatMap_congr fun c hc =>
          String.utf8EncodeChar_eq_singleton (h c hc)
    _ = chars.map fun c => c.val.toUInt8 := by rw [map_eq_flatMap]

theorem utf8Size_of_isDigit {c : Char} (h : c.isDigit = true) : c.utf8Size = 1 := by
  unfold Char.isDigit at h
  rw [Bool.and_eq_true, decide_eq_true_eq, decide_eq_true_eq] at h
  grind [Char.utf8Size]

theorem bytes_toString (n : Nat) :
    bytes (toString n) = (Nat.toDigits 10 n).map fun c => c.val.toUInt8 := by
  have hrepr : toString n = String.ofList (Nat.toDigits 10 n) := Nat.repr_eq_ofList_toDigits
  rw [hrepr, bytes_ofList]
  intro c hc
  exact utf8Size_of_isDigit (Nat.isDigit_of_mem_toDigits (by decide) (by decide) hc)

theorem length_bytes_toString_le {n width : Nat} (hwidth : 0 < width) (h : n < 10 ^ width) :
    (bytes (toString n)).length ≤ width := by
  rw [bytes_toString, length_map]
  exact Nat.toDigits_length 10 n width hwidth h

theorem zero_notMem_bytes_toString (n : Nat) : 0 ∉ bytes (toString n) := by
  rw [bytes_toString, mem_map]
  rintro ⟨c, hc, hzero⟩
  have hdigit := Nat.isDigit_of_mem_toDigits (by decide) (by decide) hc
  unfold Char.isDigit at hdigit
  rw [Bool.and_eq_true, decide_eq_true_eq, decide_eq_true_eq] at hdigit
  have hnat := congrArg UInt8.toNat hzero
  have hlow : 48 ≤ c.val.toNat := hdigit.1
  have hhigh : c.val.toNat ≤ 57 := hdigit.2
  grind [UInt32.toNat_toUInt8]

end Utf8
