import BriskDB.Document.SortKeyOrder
import BriskDB.Document.ValueLaws

/-! # Sort keys are totally ordered

A sort key is read as the list of the words of its components. The comparison of keys is
the lexicographic comparison of these lists, for keys of any size and of any specification.
-/

namespace BriskDB.Document

/-- Every sort key as a list of words whose lexicographic order is the key order. -/
def DocumentSortKey.words (key : DocumentSortKey) : List (List UInt8) :=
  key.components.map (componentWord BsonValue.orderWord)

theorem componentCmp_eq_compare (left right : Bool × Atom) :
    componentCmp left right = compare (componentWord BsonValue.orderWord left)
      (componentWord BsonValue.orderWord right) := by
  refine (decides_componentWord (decides_atomWord ?_ ?_)).compare_eq.symm
  · exact orderedCode_head unboundedBlob
  · intro l r _ _
    exact decides_orderedCode (fun l r _ _ => decides_unboundedBlob l r) l r l.allBinary_true
      r.allBinary_true

theorem DocumentSortKey.cmp_eq_compare_words (left right : DocumentSortKey) :
    left.cmp right = compare left.words right.words := by
  unfold DocumentSortKey.cmp DocumentSortKey.words
  rw [compareComponents_eq]
  generalize left.components = left
  generalize right.components = right
  induction left generalizing right with
  | nil => cases right <;> rfl
  | cons component left ih =>
    cases right with
    | nil => rfl
    | cons component' right =>
      simp [*, List.compareLex_cons_cons, componentCmp_eq_compare]

instance : Std.TransCmp DocumentSortKey.cmp where
  eq_swap := by
    intro left right
    rw [DocumentSortKey.cmp_eq_compare_words, DocumentSortKey.cmp_eq_compare_words]
    exact Std.OrientedCmp.eq_swap
  isLE_trans := by
    intro left middle right
    simp only [DocumentSortKey.cmp_eq_compare_words]
    exact Std.TransCmp.isLE_trans

end BriskDB.Document
