import Mathlib

/-!
# The order of byte strings

Bytes are compared as unsigned numbers and byte strings lexicographically. The
instance is scoped, because only developments that sort by byte strings need it.
-/

namespace ByteOrder

scoped instance instLinearOrderByte : LinearOrder UInt8 where
  le_refl := UInt8.le_refl
  le_trans _ _ _ := UInt8.le_trans
  le_antisymm _ _ := UInt8.le_antisymm
  le_total := UInt8.le_total
  lt_iff_le_not_ge a b := by
    grind
  toDecidableLE := inferInstance
  compare_eq_compareOfLessAndEq _ _ := rfl

end ByteOrder
