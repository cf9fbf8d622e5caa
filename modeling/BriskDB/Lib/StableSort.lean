import Mathlib

/-! # Stable sorting of places

A list is sorted by permuting the places of its members. Places are ordered by their
keys and ties by the places themselves, so a permutation that is sorted in this order is
the stable sort, and there is only one. `Runs` is the invariant of a bottom-up merge
sort: blocks of one width, each a sorted permutation of the places it started with.
-/

namespace StableSort

open List

universe u

variable {α : Type u}

section Order

variable (key : Nat → α) (le : α → α → Bool)

/-- By key, and by place among equal keys. -/
def placeLe (i j : Nat) : Bool := List.zipIdxLE le (key i, i) (key j, j)

variable {key le}

theorem zipIdxLE_antisymm {x y : α × Nat} (hxy : List.zipIdxLE le x y = true)
    (hyx : List.zipIdxLE le y x = true) : x.2 = y.2 := by
  unfold List.zipIdxLE at hxy hyx
  grind

theorem merge_placeLe {left right : List Nat} (h : ∀ i ∈ left, ∀ j ∈ right, i < j) :
    left.merge right (fun i j => le (key i) (key j)) = left.merge right (placeLe key le) := by
  induction left generalizing right with
  | nil => simp
  | cons i left ihLeft =>
    induction right with
    | nil => simp
    | cons j right ihRight =>
      have hlt := h i mem_cons_self j mem_cons_self
      have hsame : placeLe key le i j = le (key i) (key j) := by
        cases hle : le (key i) (key j) <;> simp [placeLe, List.zipIdxLE, hle, hlt.le]
      grind [cons_merge_cons]

end Order

/-- The only sorted permutation of the places reads off the stable sort. -/
theorem map_eq_mergeSort {le : α → α → Bool} {values : List α} {default : α} {places : List Nat}
    (trans : ∀ a b c, le a b = true → le b c = true → le a c = true)
    (total : ∀ a b, (le a b || le b a) = true) (hperm : places.Perm (List.range values.length))
    (hsorted : places.Pairwise (placeLe (values.getD · default) le · ·)) :
    places.map (values.getD · default) = values.mergeSort le := by
  have htagged : (List.range values.length).map (fun i => (values.getD i default, i)) =
      values.zipIdx := by
    apply ext_getElem
    · simp
    · grind
  have hplaces : places.map (fun i => (values.getD i default, i)) =
      values.zipIdx.mergeSort (List.zipIdxLE le) := by
    refine List.Perm.eq_of_pairwise ?_ (pairwise_map.mpr hsorted)
      (pairwise_mergeSort (zipIdxLE_trans trans) (zipIdxLE_total total) _) ?_
    · intro x y hx hy hxy hyx
      -- members of the tagged list are determined by their tags
      have htag := zipIdxLE_antisymm hxy hyx
      obtain ⟨i, -, rfl⟩ := mem_map.mp hx
      rw [mem_mergeSort, ← htagged] at hy
      grind
    · exact ((hperm.map _).trans (.of_eq htagged)).trans (mergeSort_perm _ _).symm
  rw [← mergeSort_zipIdx, ← hplaces, map_map]
  rfl

section Runs

variable {key : Nat → α} {le : α → α → Bool} {width start : Nat}

variable (key le) in
/-- Places from `start` on, in sorted blocks of one width; the last block may be
shorter. -/
inductive Runs (width : Nat) : Nat → List Nat → Prop
  | nil (start : Nat) : Runs width start []
  | cons {start : Nat} {block rest : List Nat}
      (hperm : block.Perm (List.range' start block.length))
      (hsorted : block.Pairwise (placeLe key le · ·)) (hle : block.length ≤ width)
      (hfull : rest ≠ [] → block.length = width)
      (hrest : Runs width (start + block.length) rest) : Runs width start (block ++ rest)

theorem Runs.one (start count : Nat) : Runs key le 1 start (List.range' start count) := by
  induction count generalizing start with
  | zero => exact .nil start
  | succ count ih =>
    rw [range'_succ, ← singleton_append]
    exact .cons (.refl _) (pairwise_singleton _ _) le_rfl (fun _ => rfl) (ih (start + 1))

variable {places : List Nat}

theorem Runs.head (h : Runs key le width start places) :
    (places.take width).Perm (List.range' start (places.take width).length) ∧
      (places.take width).Pairwise (placeLe key le · ·) ∧
      Runs key le width (start + width) (places.drop width) := by
  cases h with
  | nil => exact ⟨by simp, by simp, by simpa using Runs.nil _⟩
  | @cons _ block rest hperm hsorted hle hfull hrest =>
    by_cases hempty : rest = []
    · rw [hempty, append_nil, take_of_length_le hle, drop_of_length_le hle]
      exact ⟨hperm, hsorted, .nil _⟩
    · have hwidth := hfull hempty
      rw [take_left' hwidth, drop_left' hwidth, ← hwidth]
      exact ⟨hperm, hsorted, hwidth ▸ hrest⟩

theorem Runs.sorted (h : Runs key le width 0 places) (hlength : places.length ≤ width) :
    places.Perm (List.range places.length) ∧ places.Pairwise (placeLe key le · ·) := by
  obtain ⟨hperm, hsorted, -⟩ := h.head
  grind [take_of_length_le]

theorem Runs.of_sorted (hperm : places.Perm (List.range places.length))
    (hsorted : places.Pairwise (placeLe key le · ·)) : Runs key le places.length 0 places := by
  have hruns : Runs key le places.length 0 (places ++ []) :=
    .cons (range_eq_range' ▸ hperm) hsorted le_rfl (absurd rfl) (.nil _)
  rwa [append_nil] at hruns

/-- Merging the first two blocks by keys gives the first block of double width. -/
theorem Runs.merge {rest : List Nat}
    (trans : ∀ a b c, le a b = true → le b c = true → le a c = true)
    (total : ∀ a b, (le a b || le b a) = true) (h : Runs key le width start places)
    (hrest : Runs key le (width * 2) (start + width * 2) rest)
    (hfull : rest ≠ [] → width * 2 ≤ places.length) :
    Runs key le (width * 2) start
      ((places.take width).merge ((places.drop width).take width)
        (fun i j => le (key i) (key j)) ++ rest) := by
  obtain ⟨hperm, hsorted, htail⟩ := h.head
  obtain ⟨hperm', hsorted', -⟩ := htail.head
  generalize hleft : places.take width = left at *
  generalize hright : (places.drop width).take width = right at *
  have hleftLen : left.length = min width places.length := by rw [← hleft, length_take]
  have hrightLen : right.length = min width (places.length - width) := by
    rw [← hright, length_take, length_drop]
  have hlt : ∀ i ∈ left, ∀ j ∈ right, i < j := by
    intro i hi j hj
    have hi' := mem_range'_1.mp (hperm.mem_iff.mp hi)
    have hj' := mem_range'_1.mp (hperm'.mem_iff.mp hj)
    omega
  rw [merge_placeLe hlt]
  have hlength : (left.merge right (placeLe key le)).length = left.length + right.length :=
    length_merge _ _ _
  have hwhole : (left.merge right (placeLe key le)).Perm
      (List.range' start (left.length + right.length)) := by
    refine (merge_perm_append _).trans ((hperm.append hperm').trans (.of_eq ?_))
    by_cases hempty : right.length = 0
    · simp [hempty]
    · have hstart : start + width = start + 1 * left.length := by omega
      rw [hstart, range'_append]
  have hplaceTrans : ∀ i j k, placeLe key le i j = true → placeLe key le j k = true →
      placeLe key le i k = true := fun i j k => zipIdxLE_trans trans _ _ _
  have hplaceTotal : ∀ i j, (placeLe key le i j || placeLe key le j i) = true :=
    fun i j => zipIdxLE_total total _ _
  refine .cons (by rw [hlength]; exact hwhole) ?_ (by omega) (fun hne => ?_) ?_
  · exact pairwise_merge hplaceTrans hplaceTotal _ _ hsorted hsorted'
  · have := hfull hne
    omega
  · by_cases hne : rest = []
    · rw [hne]
      exact .nil _
    · have := hfull hne
      have hstart : start + (left.merge right (placeLe key le)).length = start + width * 2 := by
        omega
      rw [hstart]
      exact hrest

end Runs

end StableSort
