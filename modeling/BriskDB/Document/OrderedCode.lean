import BriskDB.Document.Identity
import BriskDB.Document.NumberOrder
import BriskDB.Lib.ByteCode

/-! # An order code of BSON values

Words over bytes that decide the order of the values they encode. The words are
those of ordered sort keys, except that the word of a binary payload is left
open: any word that decides the order of binary payloads will do.
-/

namespace BriskDB.Document

open OrderCode ByteCode Bytes List

/-- Scientific exponent and decimal digits of a positive number. -/
def scientificCode (x : CanonicalFinite) : List UInt8 :=
  ofBe 4 ((Int32.ofInt x.scientificExponent).toUInt32 ^^^ (1 : UInt32) <<< 31).toNat ++
    escape 0 255 (x.decimalDigits.map fun digit => UInt8.ofNat (48 + digit))

def numberCode : CanonicalNumber → List UInt8
  | .nan => [0]
  | .negativeInfinity => [1]
  | .positiveInfinity => [5]
  | .finite x =>
    if x.coefficient = 0 then [3]
    else if x.negative then 2 :: complement (scientificCode x)
    else 4 :: scientificCode x

theorem compare_digitBytes {x y : List Nat} (hx : ∀ d ∈ x, d < 10) (hy : ∀ d ∈ y, d < 10) :
    compare (x.map fun d => UInt8.ofNat (48 + d)) (y.map fun d => UInt8.ofNat (48 + d)) =
      compare x y := by
  induction x generalizing y with
  | nil => cases y <;> rfl
  | cons d x ih =>
    cases y with
    | nil => rfl
    | cons e y =>
      have hd := hx d mem_cons_self
      have he := hy e mem_cons_self
      have hhead : compare (UInt8.ofNat (48 + d)) (UInt8.ofNat (48 + e)) = compare d e := by
        rw [← compare_toNat, toNat_ofNat_eq_mod, toNat_ofNat_eq_mod]
        apply Compare.compare_congr <;> omega
      rw [List.map_cons, List.map_cons, List.compare_cons_cons, List.compare_cons_cons, hhead,
        ih (forall_mem_cons.mp hx).2
          (forall_mem_cons.mp hy).2]

namespace CanonicalFinite

theorem ten_pow_mul_lt {a b c d : Nat} (h : a + b + c < d) : 10 ^ a * 10 ^ b * 10 ^ c < 10 ^ d := by
  rw [← Nat.pow_add, ← Nat.pow_add]
  exact Nat.pow_lt_pow_right (by decide) h

/-- Exponents in range keep the expansion far below a 32-bit exponent. -/
theorem decimalDigits_length_le {x : CanonicalFinite} (hrange : x.InRange) :
    x.decimalDigits.length ≤ 40000 := by
  obtain ⟨htwoMin, htwoMax, hfiveMin, hfiveMax, hcoefficient⟩ := hrange
  simp only [minCanonicalExponentTwo, maxCanonicalExponentTwo, minCanonicalExponentFive,
    maxCanonicalExponentFive] at htwoMin htwoMax hfiveMin hfiveMax
  have htwo : (x.exponentTwo - x.commonExponent).toNat ≤ 12399 := by
    unfold commonExponent
    omega
  have hfive : (x.exponentFive - x.commonExponent).toNat ≤ 12335 := by
    unfold commonExponent
    omega
  have hten : ∀ {base k bound : Nat}, base ≤ 10 → 0 < base → k ≤ bound → base ^ k ≤ 10 ^ bound :=
    fun hbase hpos hk =>
      (Nat.pow_le_pow_left hbase _).trans (Nat.pow_le_pow_right (by decide) hk)
  unfold decimalDigits
  rw [length_reverse, Nat.digits_length_le_iff (by decide), decimalInteger_eq]
  calc x.coefficient * 2 ^ (x.exponentTwo - x.commonExponent).toNat *
        5 ^ (x.exponentFive - x.commonExponent).toNat
      ≤ 10 ^ 128 * 10 ^ 12399 * 10 ^ 12335 := by
        refine Nat.mul_le_mul (Nat.mul_le_mul ?_ (hten (by decide) (by decide) htwo))
          (hten (by decide) (by decide) hfive)
        exact hcoefficient.le.trans (hten (by decide) (by decide) le_rfl)
    _ < 10 ^ 40000 := ten_pow_mul_lt (by decide)

theorem toInt_scientificExponent {x : CanonicalFinite} (hrange : x.InRange) :
    (Int32.ofInt x.scientificExponent).toInt = x.scientificExponent := by
  have hlength := decimalDigits_length_le hrange
  obtain ⟨htwoMin, htwoMax, hfiveMin, hfiveMax, _⟩ := hrange
  simp only [minCanonicalExponentTwo, maxCanonicalExponentTwo, minCanonicalExponentFive,
    maxCanonicalExponentFive] at htwoMin htwoMax hfiveMin hfiveMax
  apply Int32.toInt_ofInt_of_le
  · unfold scientificExponent commonExponent
    omega
  · unfold scientificExponent commonExponent
    omega

theorem decides_scientificCode {x y : CanonicalFinite} (hx : x.coefficient ≠ 0)
    (hy : y.coefficient ≠ 0) (hxRange : x.InRange) (hyRange : y.InRange) :
    Decides (compare x.magnitude y.magnitude) (scientificCode x) (scientificCode y) := by
  rw [compare_magnitude hx hy]
  refine .append ?_ ?_
  · grind [decides_int32, toInt_scientificExponent]
  · rw [← compare_digitBytes (fun d hd => decimalDigits_lt hd) (fun d hd => decimalDigits_lt hd)]
    exact decides_escape _ _

end CanonicalFinite

variable {x : CanonicalFinite} {value : BsonValue} {m n : Nat}

theorem numberCode_zero (h : x.coefficient = 0) : numberCode (.finite x) = [3] ∧ x.value = 0 :=
  ⟨if_pos h, x.value_of_zero h⟩

theorem numberCode_negative (h : x.coefficient ≠ 0) (hnegative : x.negative = true) :
    numberCode (.finite x) = 2 :: complement (scientificCode x) ∧ x.value = -x.magnitude := by
  unfold numberCode CanonicalFinite.value
  simp [h, hnegative]

theorem numberCode_positive (h : x.coefficient ≠ 0) (hpositive : ¬x.negative = true) :
    numberCode (.finite x) = 4 :: scientificCode x ∧ x.value = x.magnitude := by
  unfold numberCode CanonicalFinite.value
  simp [h, hpositive]

theorem decides_finiteCode {y : CanonicalFinite} (hx : x.InRange) (hy : y.InRange) :
    Decides (x.cmp y) (numberCode (.finite x)) (numberCode (.finite y)) := by
  rw [CanonicalFinite.cmp_eq]
  by_cases hxZero : x.coefficient = 0 <;> by_cases hyZero : y.coefficient = 0
  · obtain ⟨hxCode, hxValue⟩ := numberCode_zero hxZero
    obtain ⟨hyCode, hyValue⟩ := numberCode_zero hyZero
    rw [hxCode, hyCode, hxValue, hyValue, compare_eq_iff_eq.mpr rfl]
    exact .same [3]
  · obtain ⟨hxCode, hxValue⟩ := numberCode_zero hxZero
    have hpos := CanonicalFinite.magnitude_pos hyZero
    rw [hxCode, hxValue]
    by_cases hyNegative : y.negative = true
    · obtain ⟨hyCode, hyValue⟩ := numberCode_negative hyZero hyNegative
      rw [hyCode, hyValue, compare_gt_iff_gt.mpr (neg_neg_of_pos hpos)]
      exact .head_gt (by decide) _ _
    · obtain ⟨hyCode, hyValue⟩ := numberCode_positive hyZero hyNegative
      rw [hyCode, hyValue, compare_lt_iff_lt.mpr hpos]
      exact .head_lt (by decide) _ _
  · obtain ⟨hyCode, hyValue⟩ := numberCode_zero hyZero
    have hpos := CanonicalFinite.magnitude_pos hxZero
    rw [hyCode, hyValue]
    by_cases hxNegative : x.negative = true
    · obtain ⟨hxCode, hxValue⟩ := numberCode_negative hxZero hxNegative
      rw [hxCode, hxValue, compare_lt_iff_lt.mpr (neg_neg_of_pos hpos)]
      exact .head_lt (by decide) _ _
    · obtain ⟨hxCode, hxValue⟩ := numberCode_positive hxZero hxNegative
      rw [hxCode, hxValue, compare_gt_iff_gt.mpr hpos]
      exact .head_gt (by decide) _ _
  · have hdecides := CanonicalFinite.decides_scientificCode hxZero hyZero hx hy
    have hxPos := CanonicalFinite.magnitude_pos hxZero
    have hyPos := CanonicalFinite.magnitude_pos hyZero
    by_cases hxNegative : x.negative = true <;> by_cases hyNegative : y.negative = true
    · obtain ⟨hxCode, hxValue⟩ := numberCode_negative hxZero hxNegative
      obtain ⟨hyCode, hyValue⟩ := numberCode_negative hyZero hyNegative
      rw [hxCode, hyCode, hxValue, hyValue,
        Compare.compare_strictAnti (fun _ _ h => neg_lt_neg h) x.magnitude y.magnitude]
      exact (decides_complement hdecides).prepend [2]
    · obtain ⟨hxCode, hxValue⟩ := numberCode_negative hxZero hxNegative
      obtain ⟨hyCode, hyValue⟩ := numberCode_positive hyZero hyNegative
      rw [hxCode, hyCode, hxValue, hyValue, compare_lt_iff_lt.mpr (by linarith)]
      exact .head_lt (by decide) _ _
    · obtain ⟨hxCode, hxValue⟩ := numberCode_positive hxZero hxNegative
      obtain ⟨hyCode, hyValue⟩ := numberCode_negative hyZero hyNegative
      rw [hxCode, hyCode, hxValue, hyValue, compare_gt_iff_gt.mpr (by linarith)]
      exact .head_gt (by decide) _ _
    · obtain ⟨hxCode, hxValue⟩ := numberCode_positive hxZero hxNegative
      obtain ⟨hyCode, hyValue⟩ := numberCode_positive hyZero hyNegative
      rw [hxCode, hyCode, hxValue, hyValue]
      exact hdecides.prepend [4]

/-- The first byte of a finite number lies strictly between those of the
infinities. -/
theorem numberCode_finite_head (x : CanonicalFinite) :
    ∃ head tail, numberCode (.finite x) = head :: tail ∧ compare 1 head = .lt ∧
      compare head 5 = .lt := by
  by_cases hzero : x.coefficient = 0
  · exact ⟨3, [], (numberCode_zero hzero).1, by decide, by decide⟩
  · by_cases hnegative : x.negative = true
    · exact ⟨2, _, (numberCode_negative hzero hnegative).1, by decide, by decide⟩
    · exact ⟨4, _, (numberCode_positive hzero hnegative).1, by decide, by decide⟩

theorem decides_numberCode {x y : CanonicalNumber} (hx : x.InRange) (hy : y.InRange) :
    Decides (x.cmp y) (numberCode x) (numberCode y) := by
  cases x with
  | nan =>
    cases y with
    | nan => exact .same _
    | negativeInfinity | positiveInfinity => exact .head_lt (by decide) _ _
    | finite y =>
      obtain ⟨head, tail, hcode, hlt, _⟩ := numberCode_finite_head y
      rw [hcode]
      exact .head_lt (Std.TransCmp.lt_trans (by decide) hlt) _ _
  | negativeInfinity =>
    cases y with
    | nan => exact .head_gt (by decide) _ _
    | negativeInfinity => exact .same _
    | positiveInfinity => exact .head_lt (by decide) _ _
    | finite y =>
      obtain ⟨head, tail, hcode, hlt, _⟩ := numberCode_finite_head y
      rw [hcode]
      exact .head_lt hlt _ _
  | positiveInfinity =>
    cases y with
    | nan | negativeInfinity => exact .head_gt (by decide) _ _
    | positiveInfinity => exact .same _
    | finite y =>
      obtain ⟨head, tail, hcode, _, hlt⟩ := numberCode_finite_head y
      rw [hcode]
      exact .head_gt (Std.OrientedCmp.gt_of_lt hlt) _ _
  | finite x =>
    cases y with
    | nan =>
      obtain ⟨head, tail, hcode, hlt, _⟩ := numberCode_finite_head x
      rw [hcode]
      exact .head_gt (Std.OrientedCmp.gt_of_lt (Std.TransCmp.lt_trans (by decide) hlt)) _ _
    | negativeInfinity =>
      obtain ⟨head, tail, hcode, hlt, _⟩ := numberCode_finite_head x
      rw [hcode]
      exact .head_gt (Std.OrientedCmp.gt_of_lt hlt) _ _
    | positiveInfinity =>
      obtain ⟨head, tail, hcode, _, hlt⟩ := numberCode_finite_head x
      rw [hcode]
      exact .head_lt hlt _ _
    | finite y => exact decides_finiteCode hx hy

/-- The first byte of a value's word; the byte 2 is left for an empty array. -/
def rankByte (rank : Nat) : UInt8 := if rank = 0 then 1 else UInt8.ofNat (rank + 2)

mutual

def BsonValue.orderedCode (blob : UInt8 × List UInt8 → List UInt8) (value : BsonValue) :
    List UInt8 :=
  rankByte value.typeRank ::
    (match value.canonicalNumber with
      | some number => numberCode number
      | none =>
        match value.binaryParts with
        | some parts => blob parts
        | none =>
          match value with
          | .string value => escape 0 255 (Utf8.bytes value)
          | .document entries => documentCode blob entries
          | .array values => arrayCode blob values
          | .objectId value => value.bytes
          | .boolean value => [if value then 1 else 0]
          | .dateTime value =>
            ofBe 8 (value.timestampMillis.toUInt64 ^^^ (1 : UInt64) <<< 63).toNat
          | .timestamp value => ofBe 4 value.time.toNat ++ ofBe 4 value.increment.toNat
          | .regularExpression value =>
            escape 0 255 (Utf8.bytes value.pattern) ++ escape 0 255 (Utf8.bytes value.options)
          | .javaScript code none => escape 0 255 (Utf8.bytes code)
          | .javaScript code (some scope) =>
            escape 0 255 (Utf8.bytes code) ++ documentCode blob scope
          | _ => [])

def documentCode (blob : UInt8 × List UInt8 → List UInt8) : List (String × BsonValue) → List UInt8
  | [] => [0]
  | (name, value) :: entries =>
    UInt8.ofNat (value.typeRank + 1) ::
      (escape 0 255 (Utf8.bytes name) ++ (value.orderedCode blob ++ documentCode blob entries))

def arrayCode (blob : UInt8 × List UInt8 → List UInt8) : List BsonValue → List UInt8
  | [] => [0]
  | value :: values => value.orderedCode blob ++ arrayCode blob values

end

mutual

def BsonValue.AllBinary (p : UInt8 × List UInt8 → Prop) : BsonValue → Prop
  | .binary value => p (value.subtype, value.bytes)
  | .uuid value => p value.encodedParts
  | .document entries => documentAllBinary p entries
  | .array values => arrayAllBinary p values
  | .javaScript _ (some scope) => documentAllBinary p scope
  | _ => True

def documentAllBinary (p : UInt8 × List UInt8 → Prop) : List (String × BsonValue) → Prop
  | [] => True
  | (_, value) :: entries => value.AllBinary p ∧ documentAllBinary p entries

def arrayAllBinary (p : UInt8 × List UInt8 → Prop) : List BsonValue → Prop
  | [] => True
  | value :: values => value.AllBinary p ∧ arrayAllBinary p values

end

theorem allBinary_binaryParts {p : UInt8 × List UInt8 → Prop}
    {parts : UInt8 × List UInt8} (hall : value.AllBinary p)
    (hparts : value.binaryParts = some parts) : p parts := by
  cases value with
  | javaScript _ _ => cases hparts
  | _ => cases hparts <;> exact hall

theorem canonicalNumber_inRange {number : CanonicalNumber}
    (h : value.canonicalNumber = some number) : number.InRange := by
  cases value <;> cases h
  · exact CanonicalNumber.fromF64_inRange _
  · exact CanonicalNumber.fromInt32_inRange _
  · exact CanonicalNumber.fromInt64_inRange _
  · exact CanonicalNumber.fromDecimalBid_inRange _

theorem typeRank_le (value : BsonValue) : value.typeRank ≤ 14 := by
  rcases value with _ | _ | _ | _ | _ | _ | _ | _ | _ | _ | _ | ⟨_, _ | _⟩ | _ | _ | _ | _ | _ |
    _ <;>
    exact Nat.le_of_ble_eq_true rfl

theorem compare_ofNat (hm : m < 256) (hn : n < 256) :
    compare (UInt8.ofNat m) (UInt8.ofNat n) = compare m n := by
  rw [← compare_toNat, toNat_ofNat_eq_mod, toNat_ofNat_eq_mod,
    Nat.mod_eq_of_lt hm, Nat.mod_eq_of_lt hn]

theorem compare_rankByte (hm : m ≤ 14) (hn : n ≤ 14) :
    compare (rankByte m) (rankByte n) = compare m n := by
  have hbyte : ∀ k ≤ 14, rankByte k = UInt8.ofNat (if k = 0 then 1 else k + 2) := by
    intro k _
    unfold rankByte
    split <;> rfl
  rw [hbyte m hm, hbyte n hn, compare_ofNat (by split <;> omega) (by split <;> omega)]
  apply Compare.compare_congr <;> split <;> split <;> omega

section Decides

variable {blob : UInt8 × List UInt8 → List UInt8} {p : UInt8 × List UInt8 → Prop}

theorem decides_documentCode {left : List (String × BsonValue)}
    (ih : ∀ entry ∈ left, ∀ right : BsonValue, entry.2.AllBinary p → right.AllBinary p →
      Decides (entry.2.cmp right) (entry.2.orderedCode blob) (right.orderedCode blob))
    {right : List (String × BsonValue)} (hleft : documentAllBinary p left)
    (hright : documentAllBinary p right) :
    Decides (documentCmp left right) (documentCode blob left) (documentCode blob right) := by
  have hstop : ∀ value : BsonValue, compare 0 (UInt8.ofNat (value.typeRank + 1)) = .lt := by
    intro value
    have hle := typeRank_le value
    exact (compare_ofNat (m := 0) (by decide) (by omega)).trans
      (Nat.compare_eq_lt.mpr (by omega))
  induction left generalizing right with
  | nil =>
    cases right with
    | nil => exact .same _
    | cons entry right => exact .head_lt (hstop entry.2) _ _
  | cons entry left ihLeft =>
    cases right with
    | nil => exact .head_gt (Std.OrientedCmp.gt_of_lt (hstop entry.2)) _ _
    | cons entry' right =>
      have hrank := typeRank_le entry.2
      have hrank' := typeRank_le entry'.2
      have htail := ihLeft (forall_mem_cons.mp ih).2 hleft.2 hright.2
      have hvalue := ih entry mem_cons_self entry'.2 hleft.1 hright.1
      have hname := decides_escape (Utf8.bytes entry.1) (Utf8.bytes entry'.1)
      have hhead := Decides.cons (UInt8.ofNat (entry.2.typeRank + 1))
        (UInt8.ofNat (entry'.2.typeRank + 1)) (hname.append (hvalue.append htail))
      rw [compare_ofNat (by omega) (by omega), Compare.compare_congr
        (Nat.add_lt_add_iff_right) (Nat.add_lt_add_iff_right)] at hhead
      rw [documentCmp, documentCode, documentCode, Ordering.then_assoc, Ordering.then_assoc]
      exact hhead

variable (blob) in
theorem orderedCode_head (value : BsonValue) :
    ∃ tail, value.orderedCode blob = rankByte value.typeRank :: tail := by
  unfold BsonValue.orderedCode
  exact ⟨_, rfl⟩

theorem decides_arrayCode {left : List BsonValue}
    (ih : ∀ value ∈ left, ∀ right : BsonValue, value.AllBinary p → right.AllBinary p →
      Decides (value.cmp right) (value.orderedCode blob) (right.orderedCode blob))
    {right : List BsonValue} (hleft : arrayAllBinary p left) (hright : arrayAllBinary p right) :
    Decides (arrayCmp left right) (arrayCode blob left) (arrayCode blob right) := by
  have hstop : ∀ value : BsonValue, compare 0 (rankByte value.typeRank) = .lt := by
    intro value
    have hle := typeRank_le value
    unfold rankByte
    split
    · decide
    · exact (compare_ofNat (m := 0) (by decide) (by omega)).trans
        (Nat.compare_eq_lt.mpr (by omega))
  induction left generalizing right with
  | nil =>
    cases right with
    | nil => exact .same _
    | cons value right =>
      obtain ⟨tail, htail⟩ := orderedCode_head blob value
      rw [arrayCmp, arrayCode, arrayCode, htail]
      exact .head_lt (hstop value) _ _
  | cons value left ihLeft =>
    cases right with
    | nil =>
      obtain ⟨tail, htail⟩ := orderedCode_head blob value
      rw [arrayCmp, arrayCode, arrayCode, htail]
      exact .head_gt (Std.OrientedCmp.gt_of_lt (hstop value)) _ _
    | cons value' right =>
      exact (ih value mem_cons_self value' hleft.1 hright.1).append
        (ihLeft (forall_mem_cons.mp ih).2 hleft.2 hright.2)

theorem decides_of_sameFamily (hblob : ∀ l r, p l → p r → Decides (binaryCmp l r) (blob l) (blob r))
    {left right : BsonValue} (hrank : left.typeRank = right.typeRank)
    (hfamily : SameFamily left right) (hscalar : left.IsScalar) (hleft : left.AllBinary p)
    (hright : right.AllBinary p) :
    Decides (left.cmp right) (left.orderedCode blob) (right.orderedCode blob) := by
  have hcompare : compare left.typeRank right.typeRank = .eq := Nat.compare_eq_eq.mpr hrank
  unfold BsonValue.cmp BsonValue.orderedCode
  simp only [hcompare, ne_eq, not_true_eq_false, ↓reduceIte]
  rw [hrank]
  refine .prepend [rankByte right.typeRank] ?_
  cases hfamily with
  | numbers hl hr =>
    simp only [hl, hr]
    exact decides_numberCode (canonicalNumber_inRange hl) (canonicalNumber_inRange hr)
  | binaries hl hr =>
    grind [BsonValue.canonicalNumber_of_binaryParts, allBinary_binaryParts]
  | strings l r => exact decides_escape _ _
  | objectIds l r => exact .of_length_eq (l.length_eq.trans r.length_eq.symm)
  | booleans l r =>
    have hbool : compare l r =
        compare (if l then 1 else 0 : UInt8) (if r then 1 else 0 : UInt8) := by
      cases l <;> cases r <;> decide
    simp only [BsonValue.canonicalNumber, BsonValue.binaryParts, hbool]
    exact .single _ _
  | dateTimes l r => exact decides_int64 _ _
  | timestamps l r => exact (decides_uint32 _ _).append (decides_uint32 _ _)
  | regularExpressions l r => exact (decides_escape _ _).append (decides_escape _ _)
  | javaScripts l r =>
    simp only [BsonValue.canonicalNumber, BsonValue.binaryParts, Ordering.then_eq]
    exact decides_escape _ _
  | documents | arrays | scopedJavaScripts => exact hscalar.elim
  | nulls | minKeys | maxKeys => exact .same []

theorem decides_of_typeRank_ne {left right : BsonValue} (hrank : left.typeRank ≠ right.typeRank) :
    Decides (left.cmp right) (left.orderedCode blob) (right.orderedCode blob) := by
  have hcompare : compare left.typeRank right.typeRank ≠ .eq := mt Nat.compare_eq_eq.mp hrank
  unfold BsonValue.cmp BsonValue.orderedCode
  simp only [ne_eq, hcompare, not_false_eq_true, ↓reduceIte]
  refine .differ ?_ hcompare [] _ _
  exact compare_rankByte (typeRank_le left) (typeRank_le right)

/-- The words of values decide their order. -/
theorem decides_orderedCode (hblob : ∀ l r, p l → p r → Decides (binaryCmp l r) (blob l) (blob r))
    (left right : BsonValue) (hleft : left.AllBinary p) (hright : right.AllBinary p) :
    Decides (left.cmp right) (left.orderedCode blob) (right.orderedCode blob) := by
  induction left, right using BsonValue.familyInduct with
  | hrank hrank => exact decides_of_typeRank_ne hrank
  | hscalar hrank hfamily hscalar =>
    exact decides_of_sameFamily hblob hrank hfamily hscalar hleft hright
  | hdocument l r ih => exact (decides_documentCode ih hleft hright).prepend [rankByte 4]
  | harray l r ih => exact (decides_arrayCode ih hleft hright).prepend [rankByte 5]
  | hscope c d l r ih =>
    exact ((decides_escape _ _).append (decides_documentCode ih hleft hright)).prepend [rankByte 13]

end Decides

end BriskDB.Document
