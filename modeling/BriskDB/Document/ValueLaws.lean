import BriskDB.Document.OrderedCode

/-! # Laws of the BSON value order

The comparison of values is a total order whose equality is the semantic
equality, and equal values feed identical data to a hasher. The order laws are
those of lexicographic words, transferred along an order code; equality and
hashing are those of identities.
-/

namespace BriskDB.Document

open OrderCode ByteCode

theorem stringCmp_eq {x y : String} : stringCmp x y = .eq ↔ x = y := by
  unfold stringCmp
  rw [Std.compare_eq_iff_eq]
  exact ⟨Utf8.bytes_injective, congrArg Utf8.bytes⟩

theorem binaryCmp_eq {x y : UInt8 × List UInt8} : binaryCmp x y = .eq ↔ x = y := by
  unfold binaryCmp
  grind

theorem BsonTimestamp.cmp_eq {x y : BsonTimestamp} : x.cmp y = .eq ↔ x = y := by
  unfold cmp
  rw [Ordering.then_eq_eq, Nat.compare_eq_eq, Nat.compare_eq_eq, UInt32.toNat_inj,
    UInt32.toNat_inj]
  cases x
  cases y
  simp

theorem BsonRegex.cmp_eq {x y : BsonRegex} : x.cmp y = .eq ↔ x = y := by
  unfold cmp
  rw [Ordering.then_eq_eq, stringCmp_eq, stringCmp_eq]
  cases x
  cases y
  simp

theorem documentCmp_eq {left : List (String × BsonValue)} (ih : ∀ entry ∈ left, ∀ right : BsonValue,
      entry.2.cmp right = .eq ↔ entry.2.identity = right.identity)
    (right : List (String × BsonValue)) :
    documentCmp left right = .eq ↔ documentIdentity left = documentIdentity right := by
  induction left generalizing right with
  | nil => cases right <;> simp [documentCmp, documentIdentity]
  | cons entry left ihLeft =>
    cases right with
    | nil => simp [documentCmp, documentIdentity]
    | cons entry' right =>
      have hvalue := ih entry List.mem_cons_self entry'.2
      have htail := ihLeft (List.forall_mem_cons.mp ih).2 right
      rw [documentCmp, Ordering.then_eq_eq, Ordering.then_eq_eq, Ordering.then_eq_eq,
        Nat.compare_eq_eq, stringCmp_eq, hvalue, htail, ← BsonValue.identity_rank,
        ← BsonValue.identity_rank, documentIdentity, documentIdentity, List.cons.injEq,
        Prod.mk.injEq]
      grind

theorem arrayCmp_eq {left : List BsonValue} (ih : ∀ value ∈ left, ∀ right : BsonValue,
      value.cmp right = .eq ↔ value.identity = right.identity) (right : List BsonValue) :
    arrayCmp left right = .eq ↔ arrayIdentity left = arrayIdentity right := by
  induction left generalizing right with
  | nil => cases right <;> simp [arrayCmp, arrayIdentity]
  | cons value left ihLeft =>
    cases right with
    | nil => simp [arrayCmp, arrayIdentity]
    | cons value' right =>
      have hvalue := ih value List.mem_cons_self value'
      have htail := ihLeft (List.forall_mem_cons.mp ih).2 right
      simp [*, arrayCmp, arrayIdentity]

namespace BsonValue

theorem cmp_eq_of_sameFamily {left right : BsonValue} (hrank : left.typeRank = right.typeRank)
    (hfamily : SameFamily left right) (hscalar : left.IsScalar) :
    left.cmp right = .eq ↔ left.identity = right.identity := by
  have hcompare : compare left.typeRank right.typeRank = .eq := Nat.compare_eq_eq.mpr hrank
  unfold BsonValue.cmp
  simp only [hcompare, ne_eq, not_true_eq_false, ↓reduceIte]
  cases hfamily with
  | numbers hl hr =>
    simp [*, identity_of_canonicalNumber, CanonicalNumber.cmp_eq_eq]
  | binaries hl hr =>
    rw [identity_of_binaryParts hl, identity_of_binaryParts hr]
    simp only [canonicalNumber_of_binaryParts hl, canonicalNumber_of_binaryParts hr, hl, hr,
      Identity.binary.injEq]
    rw [binaryCmp_eq, Prod.ext_iff]
  | strings | javaScripts => simp [canonicalNumber, binaryParts, identity, stringCmp_eq]
  | documents | arrays | scopedJavaScripts => exact hscalar.elim
  | objectIds l r =>
    simp only [canonicalNumber, binaryParts, identity, Std.compare_eq_iff_eq,
      Identity.objectId.injEq]
    cases l
    cases r
    simp
  | booleans l r => simp [canonicalNumber, binaryParts, identity]
  | dateTimes l r =>
    simp only [canonicalNumber, binaryParts, identity, compare_eq_iff_eq,
      Identity.dateTime.injEq, Int64.toInt_inj]
    cases l
    cases r
    simp
  | timestamps l r => simp [canonicalNumber, binaryParts, identity, BsonTimestamp.cmp_eq]
  | regularExpressions l r => simp [canonicalNumber, binaryParts, identity, BsonRegex.cmp_eq]
  | nulls | minKeys | maxKeys => simp [canonicalNumber, binaryParts]

theorem cmp_eq_of_typeRank_ne {left right : BsonValue} (hrank : left.typeRank ≠ right.typeRank) :
    left.cmp right = .eq ↔ left.identity = right.identity := by
  have hcompare : compare left.typeRank right.typeRank ≠ .eq := mt Nat.compare_eq_eq.mp hrank
  unfold BsonValue.cmp
  simp only [ne_eq, hcompare, not_false_eq_true, ↓reduceIte, false_iff]
  grind [identity_rank]

/-- The comparison is `Equal` exactly on values with one identity. -/
theorem cmp_eq_iff_identity (left right : BsonValue) :
    left.cmp right = .eq ↔ left.identity = right.identity := by
  refine familyInduct cmp_eq_of_typeRank_ne cmp_eq_of_sameFamily ?_ ?_ ?_ left right
  · intro l r ih
    simp [BsonValue.cmp, typeRank, canonicalNumber, binaryParts, identity, documentCmp_eq ih r]
  · intro l r ih
    simp [BsonValue.cmp, typeRank, canonicalNumber, binaryParts, identity, arrayCmp_eq ih r]
  · intro c d l r ih
    simp [BsonValue.cmp, typeRank, canonicalNumber, binaryParts, identity, stringCmp_eq,
      documentCmp_eq ih r, Ordering.then_eq_eq]

end BsonValue

/-- A number as that many ones, closed by a zero. -/
def unaryCode (n : Nat) : List UInt8 := List.replicate n 1 ++ [0]

theorem decides_unaryCode (m n : Nat) : Decides (compare m n) (unaryCode m) (unaryCode n) := by
  induction m generalizing n with
  | zero =>
    cases n with
    | zero => exact .same _
    | succ n => exact .head_lt (by decide) _ _
  | succ m ih =>
    cases n with
    | zero => exact .head_gt (by decide) _ _
    | succ n =>
      have hsucc : compare (m + 1) (n + 1) = compare m n :=
        Compare.compare_congr Nat.add_lt_add_iff_right Nat.add_lt_add_iff_right
      rw [hsucc]
      exact (ih n).prepend [1]

/-- A word for binary payloads of arbitrary length. -/
def unboundedBlob (parts : UInt8 × List UInt8) : List UInt8 :=
  unaryCode (binaryEncodedLen parts.1 parts.2) ++ (parts.1 :: escape 0 255 parts.2)

theorem decides_unboundedBlob (l r : UInt8 × List UInt8) :
    Decides (binaryCmp l r) (unboundedBlob l) (unboundedBlob r) :=
  (decides_unaryCode _ _).append (.cons l.1 r.1 (decides_escape l.2 r.2))

mutual

theorem BsonValue.allBinary_true : ∀ value : BsonValue, value.AllBinary fun _ => True
  | .document entries => documentAllBinary_true entries
  | .array values => arrayAllBinary_true values
  | .javaScript _ (some scope) => documentAllBinary_true scope
  | .javaScript _ none => trivial
  | .double _ | .string _ | .binary _ | .uuid _ | .objectId _ | .boolean _ | .dateTime _ | .null
  | .regularExpression _ | .int32 _ | .timestamp _ | .int64 _ | .decimal128 _ | .minKey
  | .maxKey => trivial

theorem documentAllBinary_true :
    ∀ entries : List (String × BsonValue), documentAllBinary (fun _ => True) entries
  | [] => trivial
  | (_, value) :: entries => ⟨value.allBinary_true, documentAllBinary_true entries⟩

theorem arrayAllBinary_true : ∀ values : List BsonValue, arrayAllBinary (fun _ => True) values
  | [] => trivial
  | value :: values => ⟨value.allBinary_true, arrayAllBinary_true values⟩

end

def BsonValue.orderWord (value : BsonValue) : List UInt8 := value.orderedCode unboundedBlob

theorem BsonValue.cmp_eq_compare_orderWord (left right : BsonValue) :
    left.cmp right = compare left.orderWord right.orderWord :=
  (decides_orderedCode (fun l r _ _ => decides_unboundedBlob l r) left right
    left.allBinary_true right.allBinary_true).compare_eq.symm

/-- The comparison is a total order, its equality is the semantic equality, that
equality is an equivalence, and equal values hash identically. -/
theorem bsonValue_order_laws :
    (∀ a : BsonValue, a.cmp a = .eq) ∧
    (∀ a b : BsonValue, b.cmp a = (a.cmp b).swap) ∧
    (∀ a b : BsonValue, a.cmp b ≠ .gt → b.cmp a ≠ .gt → a.eq b = true) ∧
    (∀ a b c : BsonValue, a.cmp b ≠ .gt → b.cmp c ≠ .gt → a.cmp c ≠ .gt) ∧
    (∀ a b : BsonValue, a.cmp b = .eq ↔ a.eq b = true) ∧
    (∀ a : BsonValue, a.eq a = true) ∧
    (∀ a b : BsonValue, a.eq b = true → b.eq a = true) ∧
    (∀ a b c : BsonValue, a.eq b = true → b.eq c = true → a.eq c = true) ∧
    (∀ a b : BsonValue, a.eq b = true → a.hash = b.hash) := by
  have heq : ∀ a b : BsonValue, a.cmp b = .eq ↔ a.eq b = true := by
    intro a b
    rw [BsonValue.cmp_eq_iff_identity, BsonValue.eq_iff_identity]
  have hswap : ∀ a b : BsonValue, b.cmp a = (a.cmp b).swap := by
    intro a b
    rw [BsonValue.cmp_eq_compare_orderWord, BsonValue.cmp_eq_compare_orderWord]
    exact Std.OrientedOrd.eq_swap
  refine ⟨?_, hswap, ?_, ?_, heq, ?_, ?_, ?_, ?_⟩
  · intro a
    exact (a.cmp_eq_iff_identity a).mpr rfl
  · intro a b hab hba
    rw [hswap a b] at hba
    rw [← heq]
    cases hcmp : a.cmp b with
    | eq => rfl
    | lt => rw [hcmp] at hba; exact absurd rfl hba
    | gt => exact absurd hcmp hab
  · intro a b c hab hbc
    rw [BsonValue.cmp_eq_compare_orderWord] at hab hbc ⊢
    exact Ordering.isLE_iff_ne_gt.mp (Std.TransCmp.isLE_trans
      (Ordering.isLE_iff_ne_gt.mpr hab) (Ordering.isLE_iff_ne_gt.mpr hbc))
  · intro a
    exact (a.eq_iff_identity a).mpr rfl
  · intro a b hab
    exact (b.eq_iff_identity a).mpr ((a.eq_iff_identity b).mp hab).symm
  · intro a b c hab hbc
    exact (a.eq_iff_identity c).mpr
      (((a.eq_iff_identity b).mp hab).trans ((b.eq_iff_identity c).mp hbc))
  · intro a b hab
    rw [a.hash_eq_identity, b.hash_eq_identity, (a.eq_iff_identity b).mp hab]

theorem bsonValue_order_laws_mixed_numbers :
    (BsonValue.int32 1).hash = (BsonValue.double ⟨0x3ff0000000000000⟩).hash ∧
    (BsonValue.document [("a", .int32 1)]).cmp (.document [("a", .int64 3)]) ≠ .gt := by
  obtain ⟨_, _, _, htrans, _, _, _, _, hhash⟩ := bsonValue_order_laws
  refine ⟨hhash _ _ (by decide +kernel), ?_⟩
  exact htrans _ (.document [("a", .double ⟨0x4000000000000000⟩)]) _ (by decide +kernel)
    (by decide +kernel)

end BriskDB.Document
