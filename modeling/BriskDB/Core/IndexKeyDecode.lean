import BriskDB.Core.IndexKeyOrder

/-! # Decoding canonical index keys

The decoder reads back every component the encoder wrote, whatever follows it,
with floats replaced by their canonical representatives. Re-encoding the decoded
components restores the bytes, so validation accepts exactly the encoder's image.
-/

namespace BriskDB.IndexKey

open OrderCode Result List

def canonicalFloat (value : F64) : F64 :=
  if value.isNan then F64.fromBits canonicalNanBits
  else if value.isZero then F64.fromBits 0
  else value

/-- A value as the decoder returns it. -/
def IndexKeyValueRef.canonical : IndexKeyValueRef → IndexKeyValueRef
  | .float64 value => .float64 (canonicalFloat value)
  | value => value

def IndexKeyPart.canonical (part : IndexKeyPart) : IndexKeyPart :=
  { part with value := part.value.canonical }

variable (value : F64)

theorem orderedFloatBits_eq :
    orderedFloatBits value =
      if (canonicalFloat value).bits &&& ((1 : UInt64) <<< 63) = 0 then
        (canonicalFloat value).bits ^^^ ((1 : UInt64) <<< 63)
      else ~~~(canonicalFloat value).bits := by
  unfold orderedFloatBits canonicalFloat
  split
  · rfl
  · split <;> rfl

theorem canonicalFloat_idem : canonicalFloat (canonicalFloat value) = canonicalFloat value := by
  by_cases hnan : value.isNan = true
  · have h : canonicalFloat value = .fromBits canonicalNanBits := if_pos hnan
    rw [h]
    rfl
  · by_cases hzero : value.isZero = true
    · have h : canonicalFloat value = .fromBits 0 := by
        rw [canonicalFloat, if_neg hnan, if_pos hzero]
      rw [h]
      rfl
    · simp [*, canonicalFloat]

theorem orderedFloatBits_canonicalFloat :
    orderedFloatBits (canonicalFloat value) = orderedFloatBits value := by
  rw [orderedFloatBits_eq, orderedFloatBits_eq, canonicalFloat_idem]

theorem floatFromOrderedBits_orderedFloatBits :
    floatFromOrderedBits (orderedFloatBits value) = canonicalFloat value := by
  have hlt := (canonicalFloat value).bits.toNat_lt
  have hfold := toNat_foldSign (canonicalFloat value).bits
  rw [← orderedFloatBits_eq] at hfold
  unfold floatFromOrderedBits
  by_cases hlow : (canonicalFloat value).bits.toNat < 2 ^ 63
  · rw [if_pos hlow] at hfold
    rw [if_neg (by rw [SignBit.and64_eq_zero]; omega), orderedFloatBits_eq,
      if_pos ((SignBit.and64_eq_zero _).mpr hlow), SignBit.xor64_xor64]
    rfl
  · rw [if_neg hlow] at hfold
    rw [if_pos (by rw [SignBit.and64_eq_zero]; omega), orderedFloatBits_eq,
      if_neg (mt (SignBit.and64_eq_zero _).mp hlow), UInt64.not_not]
    rfl

theorem encodePart_canonical (part : IndexKeyPart) :
    encodePart part.canonical = encodePart part := by
  cases part with
  | mk value order nullOrder collation =>
    cases value with
    | float64 value =>
      simp only [IndexKeyPart.canonical, IndexKeyValueRef.canonical, encodePart,
        encodePayload, orderedFloatBits_canonicalFloat]
      rfl
    | _ => rfl

theorem encodeComponents_canonical (parts : List IndexKeyPart) :
    encodeComponents (parts.map .canonical) = encodeComponents parts := by
  induction parts with
  | nil => rfl
  | cons part parts ih =>
    rw [map_cons, encodeComponents, encodeComponents, encodePart_canonical, ih]

@[simp] theorem orderedByte_orderedByte (byte : UInt8) (order : IndexKeyOrder) :
    orderedByte (orderedByte byte order) order = byte := by
  cases order with
  | ascending => rfl
  | descending => exact UInt8.not_not

theorem nextOrdered_cons (byte : UInt8) (order : IndexKeyOrder) (field : String)
    (rest : List UInt8) :
    nextOrdered order field (orderedByte byte order :: rest) = .ok (byte, rest) := by
  simp only [nextOrdered, next, ok_bind, orderedByte_orderedByte]
  rfl

theorem fixedOrdered_pushFixed (width n : Nat) (order : IndexKeyOrder) (field : String)
    (rest : List UInt8) (hn : n < 256 ^ width) :
    fixedOrdered width order field (pushFixed (Bytes.ofBe width n) order ++ rest) =
      .ok (n, rest) := by
  have hlength : (pushFixed (Bytes.ofBe width n) order).length = width := by simp [pushFixed]
  unfold fixedOrdered
  rw [if_pos (by rw [length_append]; omega), take_left' hlength,
    drop_left' hlength, pushFixed, map_map]
  have hid : ((orderedByte · order) ∘ (orderedByte · order)) = id := by
    funext byte
    exact orderedByte_orderedByte byte order
  rw [hid, map_id, Bytes.toBe_ofBe_of_lt hn]

theorem variableOrdered_pushVariable (bytes : List UInt8) (order : IndexKeyOrder)
    (rest : List UInt8) :
    variableOrdered order (pushVariable bytes order ++ rest) = .ok (bytes, rest) := by
  rw [pushVariable_eq]
  induction bytes with
  | nil =>
    simp [escape, variableOrdered, orderedByte_orderedByte]
  | cons byte bytes ih =>
    by_cases hbyte : byte = variableTerminator
    · -- an escaped terminator of the payload
      have hmark : variableEscape ≠ variableTerminator := by decide
      simp only [escape, hbyte, ↓reduceIte, map_cons, cons_append, variableOrdered,
        orderedByte_orderedByte, ne_eq, not_true_eq_false, hmark, ih, ok_bind]
      rfl
    · simp only [escape, hbyte, ↓reduceIte, map_cons, cons_append]
      rw [variableOrdered.eq_def]
      simp [*]

theorem decodeValue_payload {value : IndexKeyValueRef} {order : IndexKeyOrder}
    {payload : List UInt8} (rest : List UInt8) (hnull : value.isNull = false)
    (h : encodePayload value order = .ok payload) :
    ∃ decoded body, payload = orderedByte value.typeTag order :: body ∧
      decodeValue value.typeTag order (body ++ rest) = .ok (decoded, rest) ∧
      decoded.asRef = value.canonical := by
  have hfixed64 : ∀ (bits : UInt64) (field : String),
      fixedOrdered 8 order field (pushFixed (Bytes.ofBe 8 bits.toNat) order ++ rest) =
        .ok (bits.toNat, rest) :=
    fun bits field => fixedOrdered_pushFixed 8 _ order field rest bits.toNat_lt
  cases value with
  | null | decimal | invalidText => contradiction
  | boolean value =>
    obtain rfl := Except.ok.inj h
    refine ⟨.boolean value, _, rfl, ?_, rfl⟩
    refine bind_eq_ok.mpr ⟨_, nextOrdered_cons _ order _ rest, ?_⟩
    cases value <;> rfl
  | int64 value =>
    obtain rfl := Except.ok.inj h
    refine ⟨.int64 value, _, rfl, ?_, rfl⟩
    refine bind_eq_ok.mpr ⟨_, hfixed64 _ _, ?_⟩
    simp only [UInt64.ofNat_toNat, SignBit.xor64_xor64, Int64.toInt64_toUInt64, pure_eq]
  | uint64 value =>
    obtain rfl := Except.ok.inj h
    refine ⟨.uint64 value, _, rfl, ?_, rfl⟩
    refine bind_eq_ok.mpr ⟨_, hfixed64 _ _, ?_⟩
    simp [pure_eq]
  | float64 value =>
    obtain rfl := Except.ok.inj h
    refine ⟨.float64 (canonicalFloat value), _, rfl, ?_, rfl⟩
    refine bind_eq_ok.mpr ⟨_, hfixed64 _ _, ?_⟩
    simp [floatFromOrderedBits_orderedFloatBits, pure_eq]
  | date value =>
    obtain rfl := Except.ok.inj h
    refine ⟨.date value, _, rfl, ?_, rfl⟩
    refine bind_eq_ok.mpr ⟨_, fixedOrdered_pushFixed 4 _ order _ rest (UInt32.toNat_lt _), ?_⟩
    simp only [UInt32.ofNat_toNat, SignBit.xor32_xor32, Int32.toInt32_toUInt32, pure_eq]
  | timestamp value =>
    obtain rfl := Except.ok.inj h
    refine ⟨.timestamp value, _, rfl, ?_, rfl⟩
    refine bind_eq_ok.mpr ⟨_, hfixed64 _ _, ?_⟩
    simp only [UInt64.ofNat_toNat, SignBit.xor64_xor64, Int64.toInt64_toUInt64, pure_eq]
  | text value =>
    obtain rfl := Except.ok.inj h
    refine ⟨.text value, _, rfl, ?_, rfl⟩
    refine bind_eq_ok.mpr ⟨_, variableOrdered_pushVariable _ order rest, ?_⟩
    simp [Utf8.decode_bytes]
  | binary value =>
    obtain rfl := Except.ok.inj h
    refine ⟨.binary value, _, rfl, ?_, rfl⟩
    exact bind_eq_ok.mpr ⟨_, variableOrdered_pushVariable _ order rest, rfl⟩

variable (order : IndexKeyOrder) (nullOrder : IndexNullOrder)

theorem optionsByte_valid :
    optionsBase ≤ optionsByte order nullOrder ∧
      optionsByte order nullOrder ≤ optionsBase ||| optionsDescending ||| optionsNullsLast := by
  cases order <;> cases nullOrder <;> decide

@[simp] theorem orderOfOptions_optionsByte :
    orderOfOptions (optionsByte order nullOrder) = order := by
  cases order <;> cases nullOrder <;> rfl

@[simp] theorem nullOrderOfOptions_optionsByte :
    nullOrderOfOptions (optionsByte order nullOrder) = nullOrder := by
  cases order <;> cases nullOrder <;> rfl

variable {part : IndexKeyPart} {bytes : List UInt8} {key : CanonicalIndexKey}

/-- A component is read back whatever bytes follow it. -/
theorem decodePart_encodePart (rest : List UInt8) (h : encodePart part = .ok bytes) :
    ∃ decoded, decodePart (bytes ++ rest) = .ok (decoded, rest) ∧
      decoded.asRef = part.canonical := by
  obtain ⟨payload, hpayload, rfl⟩ := encodePart_ok h
  have hranks : nullRank part.nullOrder false ≠ nullRank part.nullOrder true := by
    cases part.nullOrder <;> decide
  simp only [cons_append, decodePart, next, ok_bind, optionsByte_valid, and_self,
    not_true_eq_false, ↓reduceIte, orderOfOptions_optionsByte, nullOrderOfOptions_optionsByte,
    ne_eq]
  cases hnull : part.value.isNull with
  | true =>
    rw [encodePayload_null hnull hpayload, if_pos rfl]
    refine ⟨_, rfl, ?_⟩
    cases part with
    | mk value order nullOrder collation =>
      cases value with
      | null => rfl
      | _ => contradiction
  | false =>
    obtain ⟨decoded, body, rfl, hvalue, hdecoded⟩ := decodeValue_payload rest hnull hpayload
    rw [if_neg hranks, if_neg (not_not_intro rfl), cons_append, nextOrdered_cons,
      ok_bind, hvalue, ok_bind]
    exact ⟨_, rfl, congrArg (IndexKeyPart.mk · _ _ _) hdecoded⟩

theorem encodePart_ne_nil (h : encodePart part = .ok bytes) : bytes ≠ [] := by
  obtain ⟨payload, _, rfl⟩ := encodePart_ok h
  exact cons_ne_nil _ _

variable {parts : List IndexKeyPart}

theorem decodeComponents_encodeComponents (h : encodeComponents parts = .ok bytes) :
    ∃ decoded, decodeComponents bytes = .ok decoded ∧
      decoded.map DecodedIndexKeyPart.asRef = parts.map IndexKeyPart.canonical := by
  induction parts generalizing bytes with
  | nil =>
    obtain rfl := Except.ok.inj h
    exact ⟨[], by rw [decodeComponents, if_pos rfl], rfl⟩
  | cons part parts ih =>
    obtain ⟨head, tail, hhead, htail, rfl⟩ := encodeComponents_cons_ok h
    obtain ⟨decoded, hdecoded, href⟩ := decodePart_encodePart tail hhead
    obtain ⟨decodedTail, hdecodedTail, hrefTail⟩ := ih htail
    refine ⟨decoded :: decodedTail, ?_, by simp [*]⟩
    rw [decodeComponents, if_neg (append_ne_nil_of_left_ne_nil (encodePart_ne_nil hhead) _)]
    split
    next error herror =>
      grind
    next decoded' rest' hpart =>
      rw [hdecoded] at hpart
      cases hpart
      rw [hdecodedTail]
      rfl

theorem decodeHeader_header (components : List UInt8) :
    decodeHeader (header ++ components) = .ok indexKeyEncodingVersion := by
  unfold decodeHeader
  rw [if_neg (by simp [header, headerLen]), ← header_length, take_left, header,
    drop_left, Bytes.toBe_ofBe_of_lt (by decide)]
  rfl

theorem decodeParts_encode (h : CanonicalIndexKey.encode parts = .ok key) :
    ∃ decoded, decodeParts key.bytes = .ok decoded ∧
      decoded.map DecodedIndexKeyPart.asRef = parts.map IndexKeyPart.canonical := by
  obtain ⟨components, hne, hcomponents, hbytes, _⟩ := encode_ok h
  obtain ⟨decoded, hdecoded, href⟩ := decodeComponents_encodeComponents hcomponents
  have hdecodedNe : decoded ≠ [] := by
    rintro rfl
    exact hne (map_eq_nil_iff.mp href.symm)
  refine ⟨decoded, ?_, href⟩
  have hdrop : (header ++ components).drop headerLen = components := by
    rw [← header_length, drop_left]
  simp [*, decodeParts, decodeHeader_header]

theorem encode_of_encodeComponents
    {components : List UInt8} (hne : parts ≠ []) (h : encodeComponents parts = .ok components)
    (hbytes : key.bytes = header ++ components) (hcount : key.componentCount = parts.length) :
    CanonicalIndexKey.encode parts = .ok key := by
  unfold CanonicalIndexKey.encode
  rw [dif_neg hne]
  split
  next error herror =>
    grind
  next components' hcomponents =>
    obtain rfl := Except.ok.inj (h.symm.trans hcomponents)
    exact congrArg Except.ok (CanonicalIndexKey.ext hbytes.symm hcount.symm)

theorem encode_canonical (h : CanonicalIndexKey.encode parts = .ok key) :
    CanonicalIndexKey.encode (parts.map IndexKeyPart.canonical) = .ok key := by
  grind [encode_ok, encode_of_encodeComponents, encodeComponents_canonical]

theorem fromBytes_ok (h : CanonicalIndexKey.fromBytes bytes = .ok key) :
    key.bytes = bytes ∧ ∃ parts, CanonicalIndexKey.encode parts = .ok key := by
  obtain ⟨parts, _, h⟩ := bind_eq_ok.mp h
  obtain ⟨canonical, hcanonical, h⟩ := bind_eq_ok.mp h
  split at h
  · cases h
  next hsame =>
    cases h
    exact ⟨not_not.mp hsame, _, hcanonical⟩

theorem fromBytes_encode (h : CanonicalIndexKey.encode parts = .ok key) :
    CanonicalIndexKey.fromBytes key.bytes = .ok key := by
  obtain ⟨decoded, hdecoded, href⟩ := decodeParts_encode h
  simp [CanonicalIndexKey.fromBytes, hdecoded, ok_bind, href, encode_canonical h, pure_eq]

/-- Decoding inverts encoding up to canonical floats, and validation accepts
exactly the encoded byte strings and returns them unchanged. -/
theorem decode_inverts_encode :
    (∀ parts key, CanonicalIndexKey.encode parts = .ok key →
      (∃ validated, CanonicalIndexKey.fromBytes key.bytes = .ok validated ∧
        validated.bytes = key.bytes ∧ validated.componentCount = key.componentCount) ∧
      ∃ decoded, key.decode = .ok decoded ∧
        decoded.map DecodedIndexKeyPart.asRef = parts.map IndexKeyPart.canonical) ∧
    (∀ bytes, (∃ key, CanonicalIndexKey.fromBytes bytes = .ok key) ↔
      ∃ parts key, parts ≠ [] ∧ CanonicalIndexKey.encode parts = .ok key ∧ key.bytes = bytes) ∧
    ∀ bytes key, CanonicalIndexKey.fromBytes bytes = .ok key → key.bytes = bytes := by
  refine ⟨?_, ?_, ?_⟩
  · intro parts key h
    exact ⟨⟨key, fromBytes_encode h, rfl, rfl⟩, decodeParts_encode h⟩
  · intro bytes
    constructor
    · rintro ⟨key, h⟩
      obtain ⟨hbytes, parts, hparts⟩ := fromBytes_ok h
      grind [encode_ok]
    · rintro ⟨parts, key, _, hparts, rfl⟩
      exact ⟨key, fromBytes_encode hparts⟩
  · grind [fromBytes_ok]

theorem decode_inverts_encode_negative_zero :
    ∃ key decoded,
      CanonicalIndexKey.encode [.descending (.float64 ⟨0x8000000000000000⟩)] = .ok key ∧
      key.decode = .ok decoded ∧
      decoded.map DecodedIndexKeyPart.asRef = [.descending (.float64 ⟨0⟩)] := by
  obtain ⟨_, decoded, hdecoded, href⟩ :=
    decode_inverts_encode.1 [.descending (.float64 ⟨0x8000000000000000⟩)] _ rfl
  exact ⟨_, decoded, rfl, hdecoded, href⟩

end BriskDB.IndexKey
