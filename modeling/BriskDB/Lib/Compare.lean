import Mathlib

/-! # Three-way comparison

Transfer of `compare` between linear orders along strictly monotone relations.
-/

namespace Compare

variable {α β : Type*} [LinearOrder α] [LinearOrder β]

theorem compare_congr {a b : α} {c d : β} (hlt : a < b ↔ c < d) (hgt : b < a ↔ d < c) :
    compare a b = compare c d := by
  rcases lt_trichotomy a b with h | h | h
  · rw [compare_lt_iff_lt.mpr h, compare_lt_iff_lt.mpr (hlt.mp h)]
  · grind
  · rw [compare_gt_iff_gt.mpr h, compare_gt_iff_gt.mpr (hgt.mp h)]

theorem compare_strictAnti {f : α → β} (hf : StrictAnti f) (a b : α) :
    compare (f a) (f b) = (compare a b).swap := by
  rw [Std.OrientedOrd.eq_swap (a := a), Ordering.swap_swap]
  exact compare_congr hf.lt_iff_gt hf.lt_iff_gt

end Compare
