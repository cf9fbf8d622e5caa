import BriskDB.Document.CodecWire

/-! # The length pass agrees with the writer

Encoding runs twice over a document: once to add up the length and to check the
limits, once to write. Under any options the second pass succeeds whenever the first
does and writes the wire form, in exactly the bytes that were counted. Storage checks a
document by the first pass alone.
-/

namespace BriskDB.Document

open BsonWire Result List

def validatedDocumentLen (document : BsonDocument) : BsonResult Nat :=
  encodedDocumentLen document .new 1 "$"

/-- Every regular expression inside the value came from its constructor. -/
inductive RegexesBuilt : BsonValue → Prop
  | scalar {value : BsonValue} (hscalar : value.IsScalar)
      (hregex : ∀ regex, value = .regularExpression regex → regex.Built) : RegexesBuilt value
  | document {entries : List (String × BsonValue)}
      (hentries : ∀ entry ∈ entries, RegexesBuilt entry.2) : RegexesBuilt (.document entries)
  | array {values : List BsonValue} (hvalues : ∀ value ∈ values, RegexesBuilt value) :
      RegexesBuilt (.array values)
  | scope {code : String} {entries : List (String × BsonValue)}
      (hentries : ∀ entry ∈ entries, RegexesBuilt entry.2) :
      RegexesBuilt (.javaScript code (some entries))

theorem valid_of_scalar {value : BsonValue} (hscalar : value.IsScalar)
    (hregex : ∀ regex, value = .regularExpression regex → regex.Built) : value.Valid := by
  cases value with
  | regularExpression regex => exact hregex regex rfl
  | javaScript code scope =>
    cases scope with
    | none => trivial
    | some scope => exact hscalar.elim
  | document | array => exact hscalar.elim
  | _ => trivial

theorem regexesBuilt_of_valid {value : BsonValue} (h : value.Valid) : RegexesBuilt value := by
  induction value using BsonValue.induct with
  | hscalar value hscalar => exact .scalar hscalar fun regex heq => by subst heq; exact h
  | hdocument entries ih =>
    exact .document fun entry hentry => ih entry hentry (documentValid_iff.mp h entry hentry).2
  | harray values ih =>
    exact .array fun value hvalue => ih value hvalue (arrayValid_iff.mp h value hvalue)
  | hscope code scope ih =>
    exact .scope fun entry hentry => ih entry hentry (documentValid_iff.mp h entry hentry).2

theorem BsonRegex.Built.containsNul_eq {regex : BsonRegex} (h : regex.Built) :
    containsNul regex.pattern = false ∧ containsNul regex.options = false := by
  have hnew := h.new_eq
  unfold BsonRegex.new at hnew
  split at hnew
  · cases hnew
  next hnul =>
    split at hnew
    next hoptions =>
      refine ⟨Bool.eq_false_iff.mpr hnul, Bool.eq_false_iff.mpr ?_⟩
      intro hzero
      have hflag := all_eq_true.mp hoptions 0 (contains_iff_mem.mp hzero)
      exact absurd hflag (by decide)
    · cases hnew

section Guards

variable {options : BsonCodecOptions} {path : String}

theorem addEncodedSize_eq_ok {current additional total : Nat} :
    addEncodedSize current additional options path = .ok total ↔
      current + additional ≤ options.maxDocumentBytes ∧ total = current + additional := by
  unfold addEncodedSize
  split
  next hover =>
    simp [*]
  next hle =>
    grind

theorem ensurePayloadBound_of_le {len : Nat} (h : len ≤ options.maxDocumentBytes)
    (description : String) : ensurePayloadBound len options path description = .ok () :=
  if_neg (not_lt.mpr h)

theorem ensureLengthEncodedString_of_le {value : String}
    (h : 5 + textLen value ≤ options.maxDocumentBytes) (description : String) :
    ensureLengthEncodedString value options path description = .ok () := by
  unfold ensureLengthEncodedString
  rw [if_neg (by omega)]
  exact ensurePayloadBound_of_le (by omega) description

theorem encodeBinary_of_le {subtype : UInt8} {bytes : List UInt8}
    (h : (if subtype = 2 then 9 else 5) + bytes.length ≤ options.maxDocumentBytes) :
    encodeBinary subtype bytes options path = .ok (.binary subtype bytes) := by
  unfold encodeBinary
  grind

theorem le_of_ensureDepth {depth : Nat} (h : ensureDepth depth options path = .ok ()) :
    depth ≤ options.maxNestingDepth := by
  unfold ensureDepth at h
  split at h
  · cases h
  next hle => exact not_lt.mp hle

theorem cstringFrom_of_not {text : String} (h : containsNul text = false) (context : String) :
    cstringFrom text path context = .ok text := by
  rw [cstringFrom, h]
  rfl

end Guards

theorem payload_binary_length (subtype : UInt8) (bytes : List UInt8) :
    (RawBson.binary subtype bytes).payload.length =
      (if subtype = 2 then 9 else 5) + bytes.length := by
  rw [RawBson.payload]
  split
  · simp
    omega
  · simp
    omega

theorem writable_of_le {text : String} (h : 5 + textLen text ≤ bsonMaxDocumentBytes) :
    textLen text + 1 < 2 ^ 31 := by
  have hmax : bsonMaxDocumentBytes < 2 ^ 31 := by decide
  omega

theorem writable_of_binary_le {subtype : UInt8} {bytes : List UInt8}
    (h : (if subtype = 2 then 9 else 5) + bytes.length ≤ bsonMaxDocumentBytes) :
    bytes.length + 4 < 2 ^ 31 := by
  have hmax : bsonMaxDocumentBytes < 2 ^ 31 := by decide
  split at h <;> omega

theorem BsonUuid.encodedParts_framed (uuid : BsonUuid) :
    (if uuid.encodedParts.1 = 2 then 9 else 5) + uuid.encodedParts.2.length = 21 := by
  have hlength : uuid.encodedParts.2.length = 16 :=
    (uuid.representation.transform_length uuid.bytes).trans uuid.length_eq
  have hsubtype : uuid.encodedParts.1 ≠ 2 := by
    change uuid.representation.subtype ≠ 2
    cases uuid.representation <;> decide
  rw [if_neg hsubtype, hlength]

theorem frame_element_length (written : List UInt8) (key : String) (value : RawBson) :
    (frame (written ++ element key value)).length =
      (frame written).length + textLen key + 2 + value.payload.length := by
  simp only [frame_length, element, cstring, textLen, length_append, length_cons,
    length_nil]
  omega

section Writer

variable [Crate]

/-- A value that was counted is written in its wire form, in as many bytes; under the default
options it is storable. -/
def WritesCounted (options : BsonCodecOptions) (value : BsonValue) : Prop :=
  ∀ depth path len, encodedValueLen options value depth path = .ok len →
    len ≤ options.maxDocumentBytes →
    encodeRawValue options value depth path = .ok value.raw ∧ value.raw.payload.length = len ∧
      (options = .new → Storable depth value)

structure FieldsFit (depth : Nat) (names : List String) (entries : List (String × BsonValue)) :
    Prop where
  nodup : (entries.map Prod.fst).Nodup
  fresh : ∀ entry ∈ entries, entry.1 ∉ names
  noNul : ∀ entry ∈ entries, containsNul entry.1 = false
  values : ∀ entry ∈ entries, Storable depth entry.2

section Loops

variable {options : BsonCodecOptions} {depth : Nat} {path : String}

omit [Crate] in
theorem FieldsFit.cons {names : List String} {name : String} {value : BsonValue}
    {entries : List (String × BsonValue)} (h : FieldsFit depth (name :: names) entries)
    (hrepeats : ¬repeats .new names name = true) (hnul : containsNul name = false)
    (hvalue : Storable depth value) : FieldsFit depth names ((name, value) :: entries) := by
  refine ⟨nodup_cons.mpr ⟨?_, h.nodup⟩, forall_mem_cons.mpr ⟨?_, ?_⟩,
    forall_mem_cons.mpr ⟨hnul, h.noNul⟩, forall_mem_cons.mpr ⟨hvalue, h.values⟩⟩
  · intro hmem
    obtain ⟨other, hother, hname⟩ := mem_map.mp hmem
    exact h.fresh other hother (hname ▸ mem_cons_self)
  · exact fun hmem => hrepeats (decide_eq_true ⟨rfl, contains_iff_mem.mpr hmem⟩)
  · exact fun other hother hmem => h.fresh other hother (mem_cons_of_mem _ hmem)

/-- The length so far is the length of the document written so far. -/
theorem encodeRawFields_of_len {entries : List (String × BsonValue)}
    (ih : ∀ entry ∈ entries, WritesCounted options entry.2) {names : List String}
    (written : List UInt8) {len : Nat}
    (h : encodedFieldsLen options entries depth path names (frame written).length = .ok len) :
    ∃ body, body = written ++ (rawFields entries).flatMap (fun entry => element entry.1 entry.2) ∧
      encodeRawFields options entries depth path names (frame written) = .ok (frame body) ∧
      (frame body).length = len ∧ (options = .new → FieldsFit depth names entries) ∧
      ((frame written).length ≤ options.maxDocumentBytes → len ≤ options.maxDocumentBytes) := by
  induction entries generalizing names written with
  | nil =>
    cases h
    exact ⟨_, rfl, by simp [rawFields, encodeRawFields], by simp [rawFields],
      fun _ => ⟨nodup_nil, by simp, by simp, by simp⟩, id⟩
  | cons entry entries ihEntries =>
    obtain ⟨name, value⟩ := entry
    rw [encodedFieldsLen] at h
    obtain ⟨hrepeats, h⟩ := ite_throw_eq_ok.mp h
    obtain ⟨hnul, h⟩ := ite_throw_eq_ok.mp h
    rw [Bool.not_eq_true] at hnul
    obtain ⟨_, hname, h⟩ := bind_eq_ok.mp h
    obtain ⟨hnameLe, rfl⟩ := addEncodedSize_eq_ok.mp hname
    obtain ⟨_, hkey, h⟩ := bind_eq_ok.mp h
    obtain ⟨-, rfl⟩ := addEncodedSize_eq_ok.mp hkey
    obtain ⟨valueLen, hvalue, h⟩ := bind_eq_ok.mp h
    obtain ⟨_, htotal, h⟩ := bind_eq_ok.mp h
    obtain ⟨hle, rfl⟩ := addEncodedSize_eq_ok.mp htotal
    obtain ⟨hraw, rfl, hstorable⟩ := ih _ mem_cons_self depth _ _ hvalue (by omega)
    rw [← frame_element_length] at h hle
    obtain ⟨body, hbody, hwrites, hlength, hfit, hbound⟩ :=
      ihEntries (forall_mem_cons.mp ih).2 _ h
    refine ⟨body, ?_, ?_, hlength, ?_, fun _ => hbound hle⟩
    · rw [hbody, rawFields, flatMap_cons, append_assoc]
    · rw [encodeRawFields]
      dsimp only
      rw [if_neg hrepeats, ensurePayloadBound_of_le (by omega), ok_bind, cstringFrom_of_not hnul,
        ok_bind, hraw, ok_bind, Crate.append_frame, ensureDocumentSize, if_neg (not_lt.mpr hle),
        ok_bind]
      exact hwrites
    · rintro rfl
      exact (hfit rfl).cons hrepeats hnul (hstorable rfl)

theorem encodeRawElements_of_len {values : List BsonValue}
    (ih : ∀ value ∈ values, WritesCounted options value) {index : Nat}
    (written : List UInt8) {len : Nat}
    (h : encodedElementsLen options values depth path index (frame written).length = .ok len) :
    ∃ array, array.raw =
        frame (written ++ (rawElements index values).flatMap fun entry => element entry.1 entry.2) ∧
      encodeRawElements options values depth path index ⟨frame written, index⟩ = .ok array ∧
      array.raw.length = len ∧ (options = .new → ∀ value ∈ values, Storable depth value) := by
  induction values generalizing index written with
  | nil =>
    cases h
    exact ⟨_, by simp [rawElements], rfl, rfl, nofun⟩
  | cons value values ihValues =>
    rw [encodedElementsLen] at h
    obtain ⟨_, hname, h⟩ := bind_eq_ok.mp h
    obtain ⟨-, rfl⟩ := addEncodedSize_eq_ok.mp hname
    obtain ⟨_, hkey, h⟩ := bind_eq_ok.mp h
    obtain ⟨-, rfl⟩ := addEncodedSize_eq_ok.mp hkey
    obtain ⟨valueLen, hvalue, h⟩ := bind_eq_ok.mp h
    obtain ⟨_, htotal, h⟩ := bind_eq_ok.mp h
    obtain ⟨hle, rfl⟩ := addEncodedSize_eq_ok.mp htotal
    obtain ⟨hraw, rfl, hstorable⟩ := ih _ mem_cons_self depth _ _ hvalue (by omega)
    rw [← frame_element_length] at h hle
    obtain ⟨array, hbody, harray, hlength, hvalues⟩ := ihValues (forall_mem_cons.mp ih).2 _ h
    refine ⟨array, ?_, ?_, hlength, fun hnew => forall_mem_cons.mpr ⟨hstorable hnew, hvalues hnew⟩⟩
    · rw [hbody, rawElements, flatMap_cons, append_assoc]
    · rw [encodeRawElements, hraw, ok_bind, Crate.push_frame]
      dsimp only
      rw [ensureDocumentSize, if_neg (not_lt.mpr hle), ok_bind]
      exact harray

end Loops

theorem RegexesBuilt.writesCounted {value : BsonValue} (h : RegexesBuilt value)
    (options : BsonCodecOptions) : WritesCounted options value := by
  induction h with
  | @scalar value hscalar hregex =>
    intro depth path len hlen hle
    have hvalid : value.Valid := valid_of_scalar hscalar hregex
    cases value with
    | string text =>
      obtain ⟨hfits, rfl⟩ := addEncodedSize_eq_ok.mp hlen
      refine ⟨?_, by simp [BsonValue.raw, RawBson.payload, textLen, Nat.add_comm], ?_⟩
      · rw [encodeRawValue, ensureLengthEncodedString_of_le hfits]
        rfl
      · rintro rfl
        exact .scalar ⟨hscalar, hvalid, writable_of_le hfits⟩
    | binary value =>
      obtain ⟨hfits, rfl⟩ := addEncodedSize_eq_ok.mp hlen
      refine ⟨encodeBinary_of_le hfits, payload_binary_length _ _, ?_⟩
      rintro rfl
      exact .scalar ⟨hscalar, hvalid, writable_of_binary_le hfits⟩
    | uuid value =>
      cases hlen
      have hparts := value.encodedParts_framed
      refine ⟨encodeBinary_of_le (hparts.le.trans hle), (payload_binary_length _ _).trans hparts, ?_⟩
      rintro rfl
      exact .scalar ⟨hscalar, hvalid, writable_of_binary_le (hparts.le.trans hle)⟩
    | regularExpression regex =>
      obtain ⟨hpattern, hoptions⟩ := (hregex regex rfl).containsNul_eq
      rw [encodedValueLen] at hlen
      obtain ⟨_, hpatternLen, hlen⟩ := bind_eq_ok.mp hlen
      obtain ⟨hfitsPattern, rfl⟩ := addEncodedSize_eq_ok.mp hpatternLen
      obtain ⟨hfits, rfl⟩ := addEncodedSize_eq_ok.mp hlen
      refine ⟨?_, ?_, fun _ => .scalar ⟨hscalar, hvalid, hpattern, hoptions⟩⟩
      · rw [encodeRawValue, ensurePayloadBound_of_le (by omega), ok_bind,
          ensurePayloadBound_of_le (by omega), ok_bind, cstringFrom_of_not hpattern,
          ok_bind, cstringFrom_of_not hoptions]
        rfl
      · simp only [BsonValue.raw, RawBson.payload, cstring, textLen, length_append, length_cons,
          length_nil]
        omega
    | javaScript code scope =>
      cases scope with
      | some scope => exact hscalar.elim
      | none =>
        obtain ⟨hfits, rfl⟩ := addEncodedSize_eq_ok.mp hlen
        refine ⟨?_, by simp [BsonValue.raw, RawBson.payload, textLen, Nat.add_comm], ?_⟩
        · rw [encodeRawValue, ensureLengthEncodedString_of_le hfits]
          rfl
        · rintro rfl
          exact .scalar ⟨hscalar, hvalid, writable_of_le hfits⟩
    | document | array => exact hscalar.elim
    | objectId value | decimal128 value =>
      cases hlen
      exact ⟨rfl, value.length_eq, fun _ => .scalar ⟨hscalar, hvalid, trivial⟩⟩
    | _ =>
      cases hlen
      exact ⟨rfl, by simp [BsonValue.raw, RawBson.payload],
        fun _ => .scalar ⟨hscalar, hvalid, trivial⟩⟩
  | document _ ih =>
    intro depth path len hlen hle
    rw [encodedValueLen] at hlen
    obtain ⟨⟨⟩, hdepth, hlen⟩ := bind_eq_ok.mp hlen
    obtain ⟨body, rfl, hbody, rfl, hfit, -⟩ := encodeRawFields_of_len ih [] hlen
    refine ⟨?_, rfl, ?_⟩
    · rw [encodeRawValue, hdepth, ok_bind, Crate.new_eq, hbody]
      rfl
    · rintro rfl
      exact .document (le_of_ensureDepth hdepth) hle (hfit rfl).nodup (hfit rfl).noNul
        (hfit rfl).values
  | array _ ih =>
    intro depth path len hlen hle
    rw [encodedValueLen] at hlen
    obtain ⟨⟨⟩, hdepth, hlen⟩ := bind_eq_ok.mp hlen
    obtain ⟨array, hraw, harray, rfl, hvalues⟩ := encodeRawElements_of_len ih [] hlen
    rw [hraw] at hle
    refine ⟨?_, congrArg length hraw.symm, ?_⟩
    · rw [encodeRawValue, hdepth, ok_bind, Crate.new_eq, harray, ok_bind, hraw]
      rfl
    · rintro rfl
      exact .array (le_of_ensureDepth hdepth) hle (hvalues rfl)
  | @scope code _ _ ih =>
    intro depth path len hlen hle
    rw [encodedValueLen] at hlen
    obtain ⟨_, hcode, hlen⟩ := bind_eq_ok.mp hlen
    obtain ⟨hfits, rfl⟩ := addEncodedSize_eq_ok.mp hcode
    dsimp only at hlen
    obtain ⟨⟨⟩, hdepth, hlen⟩ := bind_eq_ok.mp hlen
    obtain ⟨_, hscope, hlen⟩ := bind_eq_ok.mp hlen
    obtain ⟨body, rfl, hbody, rfl, hfit, -⟩ := encodeRawFields_of_len ih [] hscope
    obtain ⟨_, hframing, hlen⟩ := bind_eq_ok.mp hlen
    obtain ⟨-, rfl⟩ := addEncodedSize_eq_ok.mp hframing
    obtain ⟨-, rfl⟩ := addEncodedSize_eq_ok.mp hlen
    refine ⟨?_, ?_, ?_⟩
    · simp only [encodeRawValue, ensureLengthEncodedString_of_le hfits, hdepth, hbody, ok_bind,
        Crate.new_eq]
      rfl
    · simp only [BsonValue.raw, RawBson.payload, text_length, textLen, wireBytes, nil_append,
        length_append, Bytes.ofLe_length]
      omega
    · rintro rfl
      exact .scope (le_of_ensureDepth hdepth) ((Nat.add_comm _ _).trans_le hfits)
        ((Nat.le_add_left _ _).trans hle) (hfit rfl).nodup (hfit rfl).noNul (hfit rfl).values

theorem encodeDocumentWithOptions_of_len {document : BsonDocument} {options : BsonCodecOptions}
    {len : Nat} (hregexes : ∀ entry ∈ document, RegexesBuilt entry.2)
    (hoptions : options.validate = .ok ())
    (hlen : encodedDocumentLen document options 1 "$" = .ok len) :
    encodeDocumentWithOptions document options = .ok (wireBytes (rawFields document)) ∧
      (wireBytes (rawFields document)).length = len ∧
      (options = .new → Storable 0 (.document document)) := by
  obtain ⟨⟨⟩, hdepth, hfields⟩ := bind_eq_ok.mp hlen
  obtain ⟨body, rfl, hbody, rfl, hfit, hbound⟩ := encodeRawFields_of_len
    (fun entry hentry => (hregexes entry hentry).writesCounted options) [] hfields
  refine ⟨?_, rfl, ?_⟩
  · rw [encodeDocumentWithOptions, hoptions, ok_bind, hlen, ok_bind,
      encodeRawDocument, hdepth, ok_bind, Crate.new_eq]
    exact hbody
  · rintro rfl
    exact .document (le_of_ensureDepth hdepth) (hbound (by decide)) (hfit rfl).nodup
      (hfit rfl).noNul (hfit rfl).values

/-- What the encoder accepted is storable, and it wrote the wire form. -/
theorem of_encodeDocument {document : BsonDocument} {bytes : List UInt8}
    (hvalid : documentValid document) (h : encodeDocument document = .ok bytes) :
    bytes = wireBytes (rawFields document) ∧ Storable 0 (.document document) := by
  obtain ⟨⟨⟩, hoptions, hlen⟩ := bind_eq_ok.mp h
  obtain ⟨len, hlen, -⟩ := bind_eq_ok.mp hlen
  obtain ⟨hbytes, -, hstorable⟩ := encodeDocumentWithOptions_of_len
    (fun entry hentry => regexesBuilt_of_valid (documentValid_iff.mp hvalid entry hentry).2)
    hoptions hlen
  exact ⟨Except.ok.inj (h.symm.trans hbytes), hstorable rfl⟩

/-- Under any options, valid or not, the encoder returns as many bytes as the length pass
counts or the very error of that pass; under the default options that pass is the
validation of documents by their length. -/
theorem encodeDocument_length_eq {document : BsonDocument}
    (hregexes : ∀ entry ∈ document, RegexesBuilt entry.2) :
    (encodeDocument document).map List.length = validatedDocumentLen document ∧
      ∀ options, (encodeDocumentWithOptions document options).map List.length =
        (options.validate >>= fun _ => encodedDocumentLen document options 1 "$") := by
  have hevery : ∀ options, (encodeDocumentWithOptions document options).map List.length =
      (options.validate >>= fun _ => encodedDocumentLen document options 1 "$") := by
    intro options
    cases hoptions : options.validate with
    | error error =>
      rw [encodeDocumentWithOptions, hoptions]
      rfl
    | ok _ =>
      rw [ok_bind]
      cases hlen : encodedDocumentLen document options 1 "$" with
      | error error =>
        rw [encodeDocumentWithOptions, hoptions, ok_bind, hlen]
        rfl
      | ok len =>
        obtain ⟨hbytes, rfl, -⟩ := encodeDocumentWithOptions_of_len hregexes hoptions hlen
        rw [hbytes]
        rfl
  exact ⟨hevery .new, hevery⟩

end Writer

/-- A field `a` with an array of null and of code whose scope is empty. -/
theorem encodeDocument_length_eq_nested :
    letI := specified
    (encodeDocument [("a", .array [.null, .javaScript "f" (some [])])]).map List.length =
      .ok 34 := by
  have hregexes : ∀ entry ∈ [("a", BsonValue.array [.null, .javaScript "f" (some [])])],
      RegexesBuilt entry.2 := by
    refine forall_mem_singleton.mpr (.array (forall_mem_cons.mpr ⟨?_, ?_⟩))
    · exact .scalar trivial nofun
    · exact forall_mem_singleton.mpr (.scope (forall_mem_nil _))
  let := specified
  rw [(encodeDocument_length_eq hregexes).1]
  rfl

end BriskDB.Document
