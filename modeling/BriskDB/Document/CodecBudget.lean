import BriskDB.Document.CodecRoundTrip

/-! # Which accepted documents can be read back

An accepted document is decoded to itself exactly when it has no UUID, which comes
back as a binary value, and its walk fits the decoding budget. The encoder does not
ask for the second condition: an array of many small documents is accepted, and
the names alone exceed the budget that decodes it.
-/

namespace BriskDB.Document

open BsonWire Result List Option

mutual

def BsonValue.UuidFree : BsonValue → Prop
  | .uuid _ => False
  | .document entries => fieldsUuidFree entries
  | .array values => elementsUuidFree values
  | .javaScript _ (some scope) => fieldsUuidFree scope
  | _ => True

def fieldsUuidFree : List (String × BsonValue) → Prop
  | [] => True
  | (_, value) :: entries => value.UuidFree ∧ fieldsUuidFree entries

def elementsUuidFree : List BsonValue → Prop
  | [] => True
  | value :: values => value.UuidFree ∧ elementsUuidFree values

end

theorem storedFields_eq_iff {entries : List (String × BsonValue)}
    (ih : ∀ entry ∈ entries, entry.2.stored = entry.2 ↔ entry.2.UuidFree) :
    storedFields entries = entries ↔ fieldsUuidFree entries := by
  induction entries with
  | nil => simp [storedFields, fieldsUuidFree]
  | cons entry entries ihEntries =>
    obtain ⟨name, value⟩ := entry
    have hvalue := ih _ mem_cons_self
    have hrest := ihEntries (forall_mem_cons.mp ih).2
    simp [*, storedFields, fieldsUuidFree]

variable {values : List BsonValue} {remaining rest len reserved depth count : Nat}
    {sizes : DecodedSizes}

theorem storedElements_eq_iff (ih : ∀ value ∈ values, value.stored = value ↔ value.UuidFree) :
    storedElements values = values ↔ elementsUuidFree values := by
  induction values with
  | nil => simp [storedElements, elementsUuidFree]
  | cons value values ihValues =>
    have hvalue := ih _ mem_cons_self
    grind [storedElements, elementsUuidFree]

theorem BsonValue.stored_eq_iff (value : BsonValue) : value.stored = value ↔ value.UuidFree := by
  induction value using BsonValue.induct with
  | hscalar value hscalar =>
    cases value with
    | javaScript code scope =>
      cases scope with
      | none => simp [stored, UuidFree]
      | some scope => exact hscalar.elim
    | document | array => exact hscalar.elim
    | _ => simp [stored, UuidFree]
  | hdocument entries ih => rw [stored, BsonValue.document.injEq, storedFields_eq_iff ih, UuidFree]
  | harray values ih => rw [stored, BsonValue.array.injEq, storedElements_eq_iff ih, UuidFree]
  | hscope code scope ih => simp [stored, storedFields_eq_iff ih, UuidFree]

/-- Whatever crate reads and writes the format: an accepted document comes back unchanged
exactly when it has no UUID and its walk fits the decoding budget. -/
theorem decodeDocument_encodeDocument_iff [Crate] (sizes : DecodedSizes)
    {document : BsonDocument} {bytes : List UInt8} (hvalid : documentValid document)
    (hencode : encodeDocument document = .ok bytes) :
    decodeDocument sizes bytes = .ok document ↔
      fieldsUuidFree document ∧ FitsDecodeBudget sizes document := by
  have hfollows := @follows_decodeDocument _ sizes document bytes hvalid hencode
  have hstored := @storedFields_eq_iff document fun entry _ => entry.2.stored_eq_iff
  unfold FitsDecodeBudget
  cases hwalk : retainFields sizes document 0 0 bsonMaxDecodedBytes with
  | none =>
    rw [hwalk] at hfollows
    obtain ⟨error, herror, -⟩ := hfollows
    simp [herror]
  | some remaining =>
    rw [hwalk] at hfollows
    rw [show decodeDocument sizes bytes = .ok (storedFields document) from hfollows,
      Except.ok.injEq, hstored]
    simp

/-- A small document comes back from its bytes. -/
theorem decodeDocument_encodeDocument_one :
    letI := specified
    ∃ bytes, encodeDocument [("a", .int32 1)] = .ok bytes ∧
      decodeDocument ⟨56, 80, by decide, by decide⟩ bytes = .ok [("a", .int32 1)] := by
  let := specified
  have hencode : encodeDocument [("a", .int32 1)] =
      .ok [0x0c, 0, 0, 0, 0x10, 0x61, 0, 1, 0, 0, 0, 0] := by decide +kernel
  have hname : containsNul "a" = false := by decide +kernel
  have hvalid : documentValid [("a", .int32 1)] := ⟨hname, trivial, trivial⟩
  refine ⟨_, hencode, (decodeDocument_encodeDocument_iff _ hvalid hencode).mpr ⟨?_, ?_⟩⟩
  · exact ⟨trivial, trivial⟩
  · change (retainFields _ _ 0 0 bsonMaxDecodedBytes).isSome = true
    decide +kernel

def namelessDocument : BsonValue := .document [("", .null)]

def crowdedDocument (count : Nat) : BsonDocument :=
  [("a", .array (List.replicate count namelessDocument))]

theorem charge_eq_some {bytes : Nat} (h : charge bytes remaining = some rest) :
    bytes + rest = remaining := by
  unfold charge at h
  grind

theorem retainSlot_le {slotBytes : Nat} {held : Nat × Nat}
    (h : retainSlot slotBytes len reserved remaining = some held) : held.2 ≤ remaining := by
  unfold retainSlot at h
  split at h
  · cases h
    exact le_rfl
  · grind

/-- Equal elements are charged as often as they occur. -/
theorem retainElements_replicate_le {value : BsonValue} {cost : Nat}
    (hvalue : ∀ remaining rest, retainValue sizes value remaining = some rest →
      cost + rest ≤ remaining)
    (h : retainElements sizes (replicate count value) len reserved remaining = some rest) :
    count * cost + rest ≤ remaining := by
  induction count generalizing len reserved remaining with
  | zero =>
    cases h
    simp
  | succ count ih =>
    rw [replicate_succ, retainElements] at h
    obtain ⟨⟨slots, afterSlot⟩, hslot, h⟩ := bind_eq_some_iff.mp h
    obtain ⟨afterValue, hretain, h⟩ := bind_eq_some_iff.mp h
    have hslotLe := retainSlot_le hslot
    have hvalueLe := hvalue _ _ hretain
    have hrestLe := ih h
    rw [Nat.add_mul, Nat.one_mul]
    omega

/-- The first field of a document is charged for its name before anything else. -/
theorem retainFields_cons_le {name : String} {value : BsonValue} {cost : Nat}
    (hvalue : ∀ remaining rest, retainValue sizes value remaining = some rest →
      cost + rest ≤ remaining)
    (h : retainFields sizes [(name, value)] len reserved remaining = some rest) :
    decodedHashNameBytes + cost + rest ≤ remaining := by
  rw [retainFields] at h
  obtain ⟨afterIndex, hindex, h⟩ := bind_eq_some_iff.mp h
  obtain ⟨⟨slots, afterSlot⟩, hslot, h⟩ := bind_eq_some_iff.mp h
  obtain ⟨afterName, hname, h⟩ := bind_eq_some_iff.mp h
  obtain ⟨afterValue, hretain, h⟩ := bind_eq_some_iff.mp h
  have hindexLe := charge_eq_some hindex
  have hslotLe := retainSlot_le hslot
  have hnameLe := charge_eq_some hname
  have hvalueLe := hvalue _ _ hretain
  cases h
  grind

theorem addEncodedSize_ok {current additional : Nat}
    (h : current + additional ≤ bsonMaxDocumentBytes) (path : String) :
    addEncodedSize current additional .new path = .ok (current + additional) :=
  if_neg (not_lt.mpr h)

/-- The preflight of an array of equal elements whose indexes have at most six digits. -/
theorem encodedElementsLen_replicate {value : BsonValue} {depth valueLen : Nat} {path : String}
    (hvalue : ∀ path, encodedValueLen .new value depth path = .ok valueLen)
    {count index len : Nat} (hindex : index + count ≤ 10 ^ 6)
    (hlen : len + count * (6 + 2 + valueLen) ≤ bsonMaxDocumentBytes) :
    ∃ total, encodedElementsLen .new (List.replicate count value) depth path index len =
      .ok total ∧ total ≤ len + count * (6 + 2 + valueLen) := by
  induction count generalizing index len with
  | zero => exact ⟨len, rfl, by omega⟩
  | succ count ih =>
    have hdigits : textLen (toString index) ≤ 6 :=
      Utf8.length_bytes_toString_le (by decide) (by omega)
    rw [Nat.add_mul, Nat.one_mul] at hlen
    obtain ⟨total, htotal, hle⟩ := @ih (index + 1)
      (len + textLen (toString index) + 2 + valueLen) (by omega) (by omega)
    refine ⟨total, ?_, by grind⟩
    rw [replicate_succ, encodedElementsLen, addEncodedSize_ok (by omega), ok_bind,
      addEncodedSize_ok (by omega), ok_bind, hvalue, ok_bind,
      addEncodedSize_ok (by omega), ok_bind]
    exact htotal

theorem ensureDepth_ok (h : depth ≤ bsonMaxNestingDepth) (path : String) :
    ensureDepth depth .new path = .ok () :=
  if_neg (not_lt.mpr h)

theorem repeats_nil (options : BsonCodecOptions) (name : String) :
    repeats options [] name = false := by
  simp [repeats]

theorem encodedFieldsLen_single {name path : String} {value : BsonValue}
    (hname : containsNul name = false)
    (hvalue : encodedValueLen .new value depth (fieldPath path name) = .ok len)
    (hlen : 5 + textLen name + 2 + len ≤ bsonMaxDocumentBytes) :
    encodedFieldsLen .new [(name, value)] depth path [] 5 = .ok (5 + textLen name + 2 + len) := by
  simp only [encodedFieldsLen, repeats_nil, hname, Bool.false_eq_true, ↓reduceIte]
  rw [addEncodedSize_ok (by omega), ok_bind, addEncodedSize_ok (by omega), ok_bind,
    hvalue, ok_bind, addEncodedSize_ok hlen, ok_bind]

theorem containsNul_empty : containsNul "" = false := by decide +kernel

theorem containsNul_a : containsNul "a" = false := by decide +kernel

theorem encodedValueLen_nameless (path : String) :
    encodedValueLen .new namelessDocument 2 path = .ok 7 := by
  have hempty : textLen "" = 0 := by decide +kernel
  rw [namelessDocument, encodedValueLen, ensureDepth_ok (by decide), ok_bind,
    encodedFieldsLen_single containsNul_empty rfl (by rw [hempty]; decide), hempty]

theorem encodeDocument_crowded [Crate] (hcount : count ≤ 10 ^ 6) :
    ∃ bytes, encodeDocument (crowdedDocument count) = .ok bytes := by
  have ha : textLen "a" = 1 := by decide +kernel
  have hlimit : 5 + 10 ^ 6 * (6 + 2 + 7) + 8 ≤ bsonMaxDocumentBytes := by decide
  have hmul : count * (6 + 2 + 7) ≤ 10 ^ 6 * (6 + 2 + 7) := Nat.mul_le_mul_right _ hcount
  obtain ⟨total, htotal, htotalLe⟩ :=
    @encodedElementsLen_replicate namelessDocument 2 7 (fieldPath "$" "a")
      encodedValueLen_nameless count 0 5 (by omega) (by omega)
  have hvalueLen : encodedValueLen .new (.array (List.replicate count namelessDocument)) 1
      (fieldPath "$" "a") = .ok total := by
    rw [encodedValueLen, ensureDepth_ok (by decide), ok_bind, htotal]
  have hlen : encodedDocumentLen (crowdedDocument count) .new 1 "$" =
      .ok (5 + textLen "a" + 2 + total) := by
    rw [encodedDocumentLen, ensureDepth_ok (by decide), ok_bind, crowdedDocument,
      encodedFieldsLen_single containsNul_a hvalueLen (by omega)]
  have hregexes : ∀ entry ∈ crowdedDocument count, RegexesBuilt entry.2 := by
    refine forall_mem_singleton.mpr (.array ?_)
    intro value hvalue
    rw [eq_of_mem_replicate hvalue]
    exact .document (forall_mem_singleton.mpr (.scalar trivial (by simp)))
  exact ⟨_, (encodeDocumentWithOptions_of_len hregexes rfl hlen).1⟩

theorem crowdedDocument_valid (count : Nat) : documentValid (crowdedDocument count) := by
  have hnameless : namelessDocument.Valid := ⟨containsNul_empty, trivial, trivial⟩
  refine ⟨containsNul_a, arrayValid_iff.mpr ?_, trivial⟩
  simp [*]

/-- Every name is charged, so a document with enough of them does not fit the budget. -/
theorem not_fitsDecodeBudget (sizes : DecodedSizes)
    (hmany : bsonMaxDecodedBytes < decodedHashNameBytes * (1 + count)) :
    ¬ FitsDecodeBudget sizes (crowdedDocument count) := by
  intro hfits
  obtain ⟨rest, hrest⟩ := isSome_iff_exists.mp hfits
  have hnameless : ∀ remaining rest, retainValue sizes namelessDocument remaining = some rest →
      decodedHashNameBytes + rest ≤ remaining := by
    intro remaining rest h
    have hcharged := @retainFields_cons_le remaining rest 0 0 sizes "" .null 0
      (fun _ _ h => by cases h; omega) h
    omega
  have harray : ∀ remaining rest,
      retainValue sizes (.array (replicate count namelessDocument)) remaining = some rest →
        count * decodedHashNameBytes + rest ≤ remaining :=
    fun _ _ => retainElements_replicate_le hnameless
  have hcharged := retainFields_cons_le harray hrest
  rw [Nat.mul_add, Nat.mul_comm _ count] at hmany
  omega

/-- Enough small documents are accepted by the encoder and refused by the decoder. -/
theorem crowdedDocument_oversized [Crate] (sizes : DecodedSizes) (hcount : count ≤ 10 ^ 6)
    (hmany : bsonMaxDecodedBytes < decodedHashNameBytes * (1 + count)) :
    ∃ bytes, encodeDocument (crowdedDocument count) = .ok bytes ∧
      ∃ error, decodeDocument sizes bytes = .error error ∧ error.kind = .oversized := by
  obtain ⟨bytes, hencode⟩ := encodeDocument_crowded hcount
  have hfits := not_fitsDecodeBudget sizes hmany
  have hfollows := @follows_decodeDocument _ sizes _ bytes (crowdedDocument_valid count) hencode
  rw [FitsDecodeBudget, not_isSome_iff_eq_none] at hfits
  rw [hfits] at hfollows
  exact ⟨bytes, hencode, hfollows⟩

def sizes64 : DecodedSizes := ⟨56, 80, Nat.succ_pos (nat_lit 55), Nat.succ_pos (nat_lit 79)⟩

/-- Six hundred thousand one-field documents are accepted, in nine megabytes, and the
bytes can never be decoded again. -/
theorem crowdedDocument_not_decoded :
    letI := specified
    ∃ bytes, encodeDocument (crowdedDocument 600000) = .ok bytes ∧
      ∃ error, decodeDocument sizes64 bytes = .error error ∧ error.kind = .oversized :=
  @crowdedDocument_oversized _ specified sizes64 (by decide) (by decide)

end BriskDB.Document
