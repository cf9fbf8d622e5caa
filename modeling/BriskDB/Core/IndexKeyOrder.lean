import BriskDB.Core.IndexKey
import BriskDB.Lib.ByteCode

/-! # The byte order of canonical index keys

The logical order of two compound keys walks their components from left to
right. The encoder's words decide that order component by component: options
and collation are shared, the NULL rank settles NULL against a value, and a
value's type tag and payload settle the rest, complemented as a whole for a
descending component.
-/

namespace BriskDB.IndexKey

open OrderCode

def IndexKeyValueRef.typeTag : IndexKeyValueRef → UInt8
  | .boolean _ => tagBoolean
  | .int64 _ => tagInt64
  | .uint64 _ => tagUInt64
  | .float64 _ => tagFloat64
  | .date _ => tagDate
  | .timestamp _ => tagTimestamp
  | .text _ => tagText
  | .binary _ => tagBinary
  | .null => 0
  | .decimal _ => 0
  | .invalidText _ => 0

def compareWithinType : IndexKeyValueRef → IndexKeyValueRef → Ordering
  | .boolean a, .boolean b => compare a b
  | .int64 a, .int64 b => compare a.toInt b.toInt
  | .uint64 a, .uint64 b => compare a.toNat b.toNat
  | .float64 a, .float64 b => compare a.rank b.rank
  | .text a, .text b => compare (Utf8.bytes a) (Utf8.bytes b)
  | .binary a, .binary b => compare a b
  | .date a, .date b => compare a.toInt b.toInt
  | .timestamp a, .timestamp b => compare a.toInt b.toInt
  | _, _ => .eq

def compareValues (a b : IndexKeyValueRef) : Ordering :=
  (compare a.typeTag b.typeTag).then (compareWithinType a b)

def IndexKeyOrder.apply : IndexKeyOrder → Ordering → Ordering
  | .ascending, o => o
  | .descending, o => o.swap

def IndexNullOrder.nullVersusValue : IndexNullOrder → Ordering
  | .first => .lt
  | .last => .gt

/-- Comparison of two components under the rules of the first; the direction reverses values only.
-/
def compareComponents (a b : IndexKeyPart) : Ordering :=
  match a.value.isNull, b.value.isNull with
  | true, true => .eq
  | true, false => a.nullOrder.nullVersusValue
  | false, true => a.nullOrder.nullVersusValue.swap
  | false, false => a.order.apply (compareValues a.value b.value)

def compareParts : List IndexKeyPart → List IndexKeyPart → Ordering
  | a :: left, b :: right => (compareComponents a b).then (compareParts left right)
  | [], [] => .eq
  | [], _ :: _ => .lt
  | _ :: _, [] => .gt

def SameRules (a b : IndexKeyPart) : Prop :=
  a.order = b.order ∧ a.nullOrder = b.nullOrder

instance (a b : IndexKeyPart) : Decidable (SameRules a b) := by
  unfold SameRules
  infer_instance

def payloadWord : IndexKeyValueRef → List UInt8
  | .boolean value => [if value then 1 else 0]
  | .int64 value => Bytes.ofBe 8 (value.toUInt64 ^^^ (1 : UInt64) <<< 63).toNat
  | .uint64 value => Bytes.ofBe 8 value.toNat
  | .float64 value => Bytes.ofBe 8 (orderedFloatBits value).toNat
  | .text value => escape variableTerminator variableEscape (Utf8.bytes value)
  | .binary value => escape variableTerminator variableEscape value
  | .date value => Bytes.ofBe 4 (value.toUInt32 ^^^ (1 : UInt32) <<< 31).toNat
  | .timestamp value => Bytes.ofBe 8 (value.toUInt64 ^^^ (1 : UInt64) <<< 63).toNat
  | .null => []
  | .decimal _ => []
  | .invalidText _ => []

theorem pushVariable_eq (bytes : List UInt8) (order : IndexKeyOrder) :
    pushVariable bytes order =
      (escape variableTerminator variableEscape bytes).map (orderedByte · order) := by
  induction bytes with
  | nil => rfl
  | cons byte bytes ih =>
    unfold pushVariable at ih ⊢
    rw [escape, List.flatMap_cons, List.append_assoc, ih]
    grind

variable {value : IndexKeyValueRef} {order : IndexKeyOrder} {bytes x y : List UInt8}
    {part : IndexKeyPart} {parts left right : List IndexKeyPart}

theorem encodePayload_eq
    (hnull : value.isNull = false) (h : encodePayload value order = .ok bytes) :
    bytes = (value.typeTag :: payloadWord value).map (orderedByte · order) := by
  cases value with
  | null | decimal | invalidText => contradiction
  | text | binary =>
    obtain rfl := Except.ok.inj h
    rw [pushVariable_eq]
    rfl
  | _ =>
    obtain rfl := Except.ok.inj h
    rfl

theorem encodePayload_null (hnull : value.isNull = true)
    (h : encodePayload value order = .ok bytes) : bytes = [] := by
  cases value with
  | null => exact (Except.ok.inj h).symm
  | _ => contradiction

theorem toNat_foldSign (bits : UInt64) :
    (if bits &&& ((1 : UInt64) <<< 63) = 0 then bits ^^^ ((1 : UInt64) <<< 63)
      else ~~~bits).toNat =
      if bits.toNat < 2 ^ 63 then bits.toNat + 2 ^ 63 else 2 ^ 64 - 1 - bits.toNat := by
  by_cases hlow : bits.toNat < 2 ^ 63
  · rw [if_pos ((SignBit.and64_eq_zero bits).mpr hlow), SignBit.toNat_xor64, if_pos hlow,
      if_pos hlow]
  · rw [if_neg (mt (SignBit.and64_eq_zero bits).mp hlow), UInt64.toNat_not, if_neg hlow]
    rfl

/-- The ordered bits of a float: NaNs share one pattern above the positive range. -/
theorem toNat_orderedFloatBits (value : F64) :
    ((orderedFloatBits value).toNat : Int) =
      if value.isNan then 2 ^ 63 + 0x7ff8000000000000
      else if value.rank < 0 then 2 ^ 63 - 1 + value.rank
      else 2 ^ 63 + value.rank := by
  have hmagnitude := value.magnitude_lt
  unfold orderedFloatBits
  rw [toNat_foldSign]
  by_cases hnan : value.isNan = true
  · rw [if_pos hnan, if_pos hnan]
    rfl
  · have hbits := value.toNat_eq
    have hrank : value.rank =
        if value.negative then -(value.magnitude : Int) else value.magnitude := by
      unfold F64.rank
      rw [if_neg hnan]
    rw [if_neg hnan, if_neg hnan, hrank]
    by_cases hzero : value.isZero = true
    · have hmag : value.magnitude = 0 := by simpa [F64.isZero] using hzero
      simp [*]
    · have hmag : value.magnitude ≠ 0 := by simpa [F64.isZero] using hzero
      rw [if_neg hzero]
      unfold F64.toBits
      grind

theorem decides_float (a b : F64) :
    Decides (compare a.rank b.rank) (Bytes.ofBe 8 (orderedFloatBits a).toNat)
      (Bytes.ofBe 8 (orderedFloatBits b).toNat) := by
  have ha := toNat_orderedFloatBits a
  have hb := toNat_orderedFloatBits b
  have hbound : ∀ value : F64, ¬value.isNan = true → value.rank ≤ 0x7ff0000000000000 := by
    intro value hnan
    exact le_trans (F64.rank_le_of_not_isNan hnan) (by decide)
  refine ByteCode.decides_ofBe (UInt64.toNat_lt _) (UInt64.toNat_lt _) ?_ ?_ <;>
  · by_cases hna : a.isNan = true <;> by_cases hnb : b.isNan = true
    · rw [if_pos hna] at ha
      rw [if_pos hnb] at hb
      rw [F64.rank_of_isNan hna, F64.rank_of_isNan hnb]
      omega
    · have := hbound b hnb
      rw [if_pos hna] at ha
      rw [if_neg hnb] at hb
      rw [F64.rank_of_isNan hna]
      split at hb <;> omega
    · have := hbound a hna
      rw [if_neg hna] at ha
      rw [if_pos hnb] at hb
      rw [F64.rank_of_isNan hnb]
      split at ha <;> omega
    · rw [if_neg hna] at ha
      rw [if_neg hnb] at hb
      omega

theorem decides_payloadWord {a b : IndexKeyValueRef} (htag : a.typeTag = b.typeTag) :
    Decides (compareWithinType a b) (payloadWord a) (payloadWord b) := by
  cases a <;> cases b
  any_goals (exact absurd htag (ne_of_beq_false rfl))
  case boolean.boolean a b =>
      have hbool : compare a b =
          compare (if a then 1 else 0 : UInt8) (if b then 1 else 0 : UInt8) := by
        cases a <;> cases b <;> decide
      rw [compareWithinType, hbool]
      exact .single _ _
  case int64.int64 a b => exact ByteCode.decides_int64 a b
  case uint64.uint64 a b => exact ByteCode.decides_uint64 a b
  case float64.float64 a b => exact decides_float a b
  case text.text a b => exact ByteCode.decides_escape _ _
  case binary.binary a b => exact ByteCode.decides_escape a b
  case date.date a b => exact ByteCode.decides_int32 a b
  case timestamp.timestamp a b => exact ByteCode.decides_int64 a b
  all_goals exact .same []

theorem decides_values (a b : IndexKeyValueRef) :
    Decides (compareValues a b) (a.typeTag :: payloadWord a) (b.typeTag :: payloadWord b) := by
  unfold compareValues
  by_cases htag : compare a.typeTag b.typeTag = .eq
  · have heq := Std.LawfulEqCmp.compare_eq_iff_eq.mp htag
    rw [htag, Ordering.eq_then, heq]
    exact (decides_payloadWord heq).prepend [_]
  · rw [then_of_ne_eq htag]
    exact .differ rfl htag [] _ _

theorem decides_ordered {o : Ordering} (h : Decides o x y) (order : IndexKeyOrder) :
    Decides (order.apply o) (x.map (orderedByte · order)) (y.map (orderedByte · order)) := by
  cases order with
  | ascending => exact h.map_mono (fun _ _ => rfl)
  | descending => exact ByteCode.decides_complement h

theorem encodePart_ok (h : encodePart part = .ok bytes) :
    ∃ payload, encodePayload part.value part.order = .ok payload ∧
      bytes = optionsByte part.order part.nullOrder :: collationBinary ::
        nullRank part.nullOrder part.value.isNull :: payload := by
  unfold encodePart at h
  cases hpayload : encodePayload part.value part.order with
  | error error =>
    rw [hpayload] at h
    contradiction
  | ok payload =>
    rw [hpayload] at h
    exact ⟨payload, rfl, (Except.ok.inj h).symm⟩

theorem decides_part {a b : IndexKeyPart} (hrules : SameRules a b)
    (ha : encodePart a = .ok x) (hb : encodePart b = .ok y) :
    Decides (compareComponents a b) x y := by
  obtain ⟨payloadA, hpayloadA, rfl⟩ := encodePart_ok ha
  obtain ⟨payloadB, hpayloadB, rfl⟩ := encodePart_ok hb
  obtain ⟨horder, hnullOrder⟩ := hrules
  rw [← horder] at hpayloadB ⊢
  rw [← hnullOrder]
  refine .prepend [_, _] ?_
  unfold compareComponents
  cases hnullA : a.value.isNull <;> cases hnullB : b.value.isNull
  · rw [encodePayload_eq hnullA hpayloadA, encodePayload_eq hnullB hpayloadB]
    exact (decides_ordered (decides_values a.value b.value) a.order).prepend [_]
  · cases a.nullOrder
    · exact .head_gt rfl _ _
    · exact .head_lt rfl _ _
  · cases a.nullOrder
    · exact .head_lt rfl _ _
    · exact .head_gt rfl _ _
  · rw [encodePayload_null hnullA hpayloadA, encodePayload_null hnullB hpayloadB]
    exact .same _

theorem encodeComponents_cons_ok (h : encodeComponents (part :: parts) = .ok bytes) :
    ∃ head tail, encodePart part = .ok head ∧ encodeComponents parts = .ok tail ∧
      bytes = head ++ tail := by
  unfold encodeComponents at h
  cases hhead : encodePart part with
  | error error =>
    rw [hhead] at h
    contradiction
  | ok head =>
    cases htail : encodeComponents parts with
    | error error =>
      rw [hhead, htail] at h
      contradiction
    | ok tail =>
      rw [hhead, htail] at h
      exact ⟨head, tail, rfl, rfl, (Except.ok.inj h).symm⟩

/-- The concatenated components decide the walk over both keys. -/
theorem decides_components (hrules : List.Forall₂ SameRules left right)
    (hleft : encodeComponents left = .ok x) (hright : encodeComponents right = .ok y) :
    Decides (compareParts left right) x y := by
  induction hrules generalizing x y with
  | nil =>
    obtain rfl := Except.ok.inj hleft
    obtain rfl := Except.ok.inj hright
    exact .same []
  | cons hhead _ ih =>
    obtain ⟨headX, tailX, hheadX, htailX, rfl⟩ := encodeComponents_cons_ok hleft
    obtain ⟨headY, tailY, hheadY, htailY, rfl⟩ := encodeComponents_cons_ok hright
    exact (decides_part hhead hheadX hheadY).append (ih htailX htailY)

theorem encode_ok {key : CanonicalIndexKey} (h : CanonicalIndexKey.encode parts = .ok key) :
    ∃ components, parts ≠ [] ∧ encodeComponents parts = .ok components ∧
      key.bytes = header ++ components ∧ key.componentCount = parts.length := by
  unfold CanonicalIndexKey.encode at h
  split at h
  · contradiction
  next hempty =>
    grind

theorem compareParts_eq_eq (hrules : List.Forall₂ SameRules left right) :
    compareParts left right = .eq ↔
      List.Forall₂ (fun a b => compareComponents a b = .eq) left right := by
  induction hrules with
  | nil => exact ⟨fun _ => .nil, fun _ => rfl⟩
  | cons _ _ ih => rw [compareParts, Ordering.then_eq_eq, List.forall₂_cons, ih]

/-- The encoder is an order embedding: bytes of two keys with the same component
rules compare like the components, and they are equal exactly when every
component compares equal. -/
theorem encode_compare {left right : List IndexKeyPart} {leftKey rightKey : CanonicalIndexKey}
    (hrules : List.Forall₂ SameRules left right)
    (hleft : CanonicalIndexKey.encode left = .ok leftKey)
    (hright : CanonicalIndexKey.encode right = .ok rightKey) :
    compare leftKey.bytes rightKey.bytes = compareParts left right ∧
      (leftKey.bytes = rightKey.bytes ↔
        List.Forall₂ (fun a b => compareComponents a b = .eq) left right) := by
  obtain ⟨x, _, hx, hleftBytes, _⟩ := encode_ok hleft
  obtain ⟨y, _, hy, hrightBytes, _⟩ := encode_ok hright
  have hdecides : Decides (compareParts left right) leftKey.bytes rightKey.bytes := by
    rw [hleftBytes, hrightBytes]
    exact (decides_components hrules hx hy).prepend header
  refine ⟨hdecides.compare_eq, ?_⟩
  rw [hdecides.eq_iff]
  exact compareParts_eq_eq hrules

theorem encode_compare_descending_text :
    ∃ leftKey rightKey,
      CanonicalIndexKey.encode [.descending (.text "a"), .ascending (.int64 5)] = .ok leftKey ∧
      CanonicalIndexKey.encode [.descending (.text "ab"), .ascending .null] = .ok rightKey ∧
      compare leftKey.bytes rightKey.bytes = .gt := by
  refine ⟨_, _, rfl, rfl, ?_⟩
  have h := @encode_compare [.descending (.text "a"), .ascending (.int64 5)]
    [.descending (.text "ab"), .ascending .null] _ _
    (.cons (by decide) (.cons (by decide) .nil)) rfl rfl
  rw [h.1]
  decide

end BriskDB.IndexKey
