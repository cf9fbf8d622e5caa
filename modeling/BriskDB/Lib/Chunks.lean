import Mathlib

/-! # Pieces of a list

Fixed-size chunks of a list, and the pieces that end with a marked element. The
pieces of a list concatenate to the list.
-/

namespace Chunks

open List

variable {α : Type*}

/-- Consecutive pieces of `size` elements, the last one possibly shorter. -/
def chunks (size : Nat) (list : List α) : List (List α) :=
  if 0 < size ∧ list ≠ [] then list.take size :: chunks size (list.drop size) else []
termination_by list.length
decreasing_by
  next hpiece =>
    have := length_pos_iff.mpr hpiece.2
    rw [length_drop]
    omega

theorem flatten_chunks {size : Nat} (hsize : 0 < size) (list : List α) :
    (chunks size list).flatten = list := by
  fun_induction chunks size list with
  | case1 list hpiece ih => simp [*]
  | case2 list hpiece =>
    grind

/-- Pieces of a list that end right after each marked element. -/
def splitInclusive (marked : α → Bool) : List α → List (List α)
  | [] => []
  | a :: list =>
    if marked a then [a] :: splitInclusive marked list
    else
      match splitInclusive marked list with
      | [] => [[a]]
      | piece :: pieces => (a :: piece) :: pieces

theorem ne_nil_of_mem_splitInclusive {marked : α → Bool} {list piece : List α}
    (h : piece ∈ splitInclusive marked list) : piece ≠ [] := by
  induction list generalizing piece with
  | nil => cases h
  | cons a list ih =>
    rw [splitInclusive] at h
    split at h
    · grind
    · split at h
      · grind
      next first pieces hpieces =>
        grind

theorem flatMap_splitInclusive (marked : α → Bool) (trailer list : List α) :
    (splitInclusive marked list).flatMap
        (fun piece => piece ++ if piece.getLast?.any marked then trailer else []) =
      list.flatMap fun a => if marked a then a :: trailer else [a] := by
  induction list with
  | nil => rfl
  | cons a list ih =>
    rw [splitInclusive, flatMap_cons, ← ih]
    by_cases ha : marked a = true
    · simp [ha]
    · rw [if_neg ha, if_neg ha]
      cases hpieces : splitInclusive marked list with
      | nil => simp [ha]
      | cons piece pieces =>
        -- the element joins the first piece, whose last element is unchanged
        obtain ⟨b, rest, rfl⟩ := exists_cons_of_ne_nil
          (ne_nil_of_mem_splitInclusive (hpieces ▸ mem_cons_self))
        simp [getLast?_cons_cons]

end Chunks
