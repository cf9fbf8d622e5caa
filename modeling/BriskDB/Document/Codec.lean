import BriskDB.Document.Valid
import BriskDB.Lib.BsonWire

/-! # The bounded BSON codec

Encoding is limited by encoded bytes and nesting; decoding is limited by the same
and, besides, by a budget of retained memory that every field, element and text is
charged to. Single levels are read and written by a crate, of which only the laws of
`BsonWire.Crate` are known. Allocation itself is taken to succeed.
-/

namespace BriskDB.Document

open BsonWire

def bsonMaxDocumentBytes : Nat := 16 * 1024 * 1024
def bsonMaxNestingDepth : Nat := 100
def bsonMaxDecodedBytes : Nat := 64 * 1024 * 1024

def maxDiagnosticPathBytes : Nat := 1024
def initialDecodedContainerCapacity : Nat := 4

/-- Eight slices of sixteen bytes for each name in the duplicate check. -/
def decodedHashNameBytes : Nat := 16 * 8

def decodedRegexOptionsBytes : Nat := 8

/-- The sizes of a decoded value and of a named one, which the compiler chooses. -/
structure DecodedSizes where
  arraySlot : Nat
  documentSlot : Nat
  arraySlot_pos : 0 < arraySlot
  documentSlot_pos : 0 < documentSlot

inductive DuplicateFieldPolicy
  | reject
  | preserve
  deriving DecidableEq, Repr

structure BsonCodecOptions where
  maxDocumentBytes : Nat
  maxNestingDepth : Nat
  maxDecodedBytes : Nat
  duplicateFieldPolicy : DuplicateFieldPolicy
  uuidRepresentation : Option UuidRepresentation

namespace BsonCodecOptions

def new : BsonCodecOptions :=
  ⟨bsonMaxDocumentBytes, bsonMaxNestingDepth, bsonMaxDecodedBytes, .reject, none⟩

def validate (options : BsonCodecOptions) : BsonResult Unit :=
  if ¬ (5 ≤ options.maxDocumentBytes ∧ options.maxDocumentBytes ≤ bsonMaxDocumentBytes) then
    .error (.new .invalidValue
      ("BSON max_document_bytes must be between 5 and " ++ toString bsonMaxDocumentBytes))
  else if ¬ (1 ≤ options.maxNestingDepth ∧ options.maxNestingDepth ≤ bsonMaxNestingDepth) then
    .error (.new .invalidValue
      ("BSON max_nesting_depth must be between 1 and " ++ toString bsonMaxNestingDepth))
  else if ¬ (1 ≤ options.maxDecodedBytes ∧ options.maxDecodedBytes ≤ bsonMaxDecodedBytes) then
    .error (.new .invalidValue
      ("BSON max_decoded_bytes must be between 1 and " ++ toString bsonMaxDecodedBytes))
  else .ok ()

end BsonCodecOptions

def pushBoundedTo (target : String) (limit : Nat) : List Char → String
  | [] => target
  | character :: rest =>
    if target.utf8ByteSize + character.utf8Size > limit then target
    else pushBoundedTo (target.push character) limit rest

/-- The escapes of `char::escape_default`. -/
def escapeDefault (character : Char) : List Char :=
  let code := character.toNat
  if code = 0x09 then "\\t".toList
  else if code = 0x0d then "\\r".toList
  else if code = 0x0a then "\\n".toList
  else if code = 0x27 ∨ code = 0x22 ∨ code = 0x5c then "\\".toList ++ [character]
  else if 0x20 ≤ code ∧ code ≤ 0x7e then [character]
  else "\\u\x7b".toList ++ Nat.toDigits 16 code ++ "\x7d".toList

def fieldPath (parent name : String) : String :=
  let path := pushBoundedTo "" (maxDiagnosticPathBytes - 4) parent.toList
  let path := path ++ "[\""
  -- two bytes stay reserved for the closing characters
  let path := pushBoundedTo path (maxDiagnosticPathBytes - 2) (name.toList.flatMap escapeDefault)
  path ++ "\"]"

def indexPath (parent : String) (index : Nat) : String :=
  let path := pushBoundedTo "" maxDiagnosticPathBytes parent.toList
  pushBoundedTo path maxDiagnosticPathBytes ("[" ++ toString index ++ "]").toList

def duplicateField (path : String) : BsonError :=
  (BsonError.new .duplicateField "BSON document contains a duplicate field name").withPath path

def oversized (actual limit : Nat) (path : String) : BsonError :=
  (BsonError.new .oversized
    ("BSON document contains " ++ toString actual ++ " bytes, exceeding the configured " ++
      toString limit ++ "-byte limit")).withPath path

def unsupportedType (name path : String) : BsonError :=
  (BsonError.new .unsupportedType ("BSON " ++ name ++ " values are not supported")).withPath path

def mapRawError (error : RawError) (path context : String) : BsonError :=
  let (kind, detail) : BsonErrorKind × String :=
    match error with
    | .endOfStream => (.truncated, "input ended before the BSON value was complete")
    | .utf8Encoding => (.invalidUtf8, "BSON text is not valid UTF-8")
    | .malformedBytes => (.invalidValue, "malformed BSON bytes")
  (BsonError.new kind (context ++ ": " ++ detail)).withPath path

def mapRaw {α : Type} (result : Except RawError α) (path context : String) : BsonResult α :=
  match result with
  | .ok value => .ok value
  | .error error => .error (mapRawError error path context)

def ensurePayloadBound (len : Nat) (options : BsonCodecOptions) (path description : String) :
    BsonResult Unit :=
  if len > options.maxDocumentBytes then
    .error ((BsonError.new .oversized
      ("BSON " ++ description ++ " contains " ++ toString len ++
        " bytes, exceeding the configured " ++ toString options.maxDocumentBytes ++
          "-byte limit")).withPath path)
  else .ok ()

def ensureDocumentSize (actual : Nat) (options : BsonCodecOptions) (path : String) :
    BsonResult Unit :=
  if actual > options.maxDocumentBytes then
    .error (oversized actual options.maxDocumentBytes path)
  else .ok ()

def ensureDepth (depth : Nat) (options : BsonCodecOptions) (path : String) : BsonResult Unit :=
  if depth > options.maxNestingDepth then
    .error ((BsonError.new .nestingLimit
      ("BSON container depth " ++ toString depth ++ " exceeds the configured limit of " ++
        toString options.maxNestingDepth)).withPath path)
  else .ok ()

def addEncodedSize (current additional : Nat) (options : BsonCodecOptions) (path : String) :
    BsonResult Nat :=
  if current + additional > options.maxDocumentBytes then
    .error (oversized (current + additional) options.maxDocumentBytes path)
  else .ok (current + additional)

def textLen (text : String) : Nat := (Utf8.bytes text).length

def repeats (options : BsonCodecOptions) (names : List String) (name : String) : Bool :=
  options.duplicateFieldPolicy = .reject ∧ names.contains name

mutual

def encodedValueLen (options : BsonCodecOptions) (value : BsonValue) (parentDepth : Nat)
    (path : String) : BsonResult Nat :=
  match value with
  | .double _ | .dateTime _ | .timestamp _ => .ok 8
  | .string value => addEncodedSize 5 (textLen value) options path
  | .document entries => do
    ensureDepth (parentDepth + 1) options path
    encodedFieldsLen options entries (parentDepth + 1) path [] 5
  | .array values => do
    ensureDepth (parentDepth + 1) options path
    encodedElementsLen options values (parentDepth + 1) path 0 5
  | .binary value =>
    addEncodedSize (if value.subtype = 2 then 9 else 5) value.bytes.length options path
  | .uuid _ => .ok 21
  | .objectId _ => .ok 12
  | .boolean _ => .ok 1
  | .null | .minKey | .maxKey => .ok 0
  | .regularExpression value => do
    let len ← addEncodedSize 2 (textLen value.pattern) options path
    addEncodedSize len (textLen value.options) options path
  | .javaScript code none => addEncodedSize 5 (textLen code) options path
  | .javaScript code (some scope) => do
    let codeLen ← addEncodedSize 5 (textLen code) options path
    let scopePath := fieldPath path "$scope"
    ensureDepth (parentDepth + 1) options scopePath
    let scopeLen ← encodedFieldsLen options scope (parentDepth + 1) scopePath [] 5
    let len ← addEncodedSize 4 codeLen options path
    addEncodedSize len scopeLen options path
  | .int32 _ => .ok 4
  | .int64 _ => .ok 8
  | .decimal128 _ => .ok 16

def encodedFieldsLen (options : BsonCodecOptions) (entries : List (String × BsonValue))
    (depth : Nat) (path : String) (names : List String) (encodedLen : Nat) : BsonResult Nat :=
  match entries with
  | [] => .ok encodedLen
  | (name, value) :: entries => do
    let valuePath := fieldPath path name
    if repeats options names name then throw (duplicateField valuePath)
    if containsNul name then
      throw ((invalidValue "BSON field names cannot contain NUL").withPath valuePath)
    let encodedLen ← addEncodedSize encodedLen (textLen name) options path
    let encodedLen ← addEncodedSize encodedLen 2 options path
    let valueLen ← encodedValueLen options value depth valuePath
    let encodedLen ← addEncodedSize encodedLen valueLen options path
    encodedFieldsLen options entries depth path (name :: names) encodedLen

def encodedElementsLen (options : BsonCodecOptions) (values : List BsonValue) (depth : Nat)
    (path : String) (index encodedLen : Nat) : BsonResult Nat :=
  match values with
  | [] => .ok encodedLen
  | value :: values => do
    let valuePath := indexPath path index
    let encodedLen ← addEncodedSize encodedLen (textLen (toString index)) options path
    let encodedLen ← addEncodedSize encodedLen 2 options path
    let valueLen ← encodedValueLen options value depth valuePath
    let encodedLen ← addEncodedSize encodedLen valueLen options path
    encodedElementsLen options values depth path (index + 1) encodedLen

end

variable (document : BsonDocument)

def encodedDocumentLen (options : BsonCodecOptions) (depth : Nat)
    (path : String) : BsonResult Nat := do
  ensureDepth depth options path
  encodedFieldsLen options document depth path [] 5

variable [Crate]

def encodeBinary (subtype : UInt8) (bytes : List UInt8) (options : BsonCodecOptions)
    (path : String) : BsonResult RawBson :=
  let encodedLen := bytes.length + (if subtype = 2 then 9 else 5)
  if encodedLen > options.maxDocumentBytes then
    .error (oversized encodedLen options.maxDocumentBytes path)
  else .ok (.binary subtype bytes)

def ensureLengthEncodedString (value : String) (options : BsonCodecOptions)
    (path description : String) : BsonResult Unit :=
  if textLen value + 5 > options.maxDocumentBytes then
    .error (oversized (textLen value + 5) options.maxDocumentBytes path)
  else ensurePayloadBound (textLen value) options path description

/-- The conversion to a C string, which cannot hold NUL. -/
def cstringFrom (text path context : String) : BsonResult String :=
  if containsNul text then
    .error ((BsonError.new .invalidValue (context ++ ": invalid BSON value")).withPath path)
  else .ok text

mutual

def encodeRawValue (options : BsonCodecOptions) (value : BsonValue) (parentDepth : Nat)
    (path : String) : BsonResult RawBson :=
  match value with
  | .double value => .ok (.double value.bits)
  | .string value => do
    ensureLengthEncodedString value options path "string"
    return .string value
  | .document entries => do
    ensureDepth (parentDepth + 1) options path
    let raw ← encodeRawFields options entries (parentDepth + 1) path [] Crate.new
    return .document raw
  | .array values => do
    ensureDepth (parentDepth + 1) options path
    let array ← encodeRawElements options values (parentDepth + 1) path 0 ⟨Crate.new, 0⟩
    return .array array.raw
  | .binary value => encodeBinary value.subtype value.bytes options path
  | .uuid value => encodeBinary value.encodedParts.1 value.encodedParts.2 options path
  | .objectId value => .ok (.objectId ⟨value.bytes, value.length_eq⟩)
  | .boolean value => .ok (.boolean value)
  | .dateTime value => .ok (.dateTime value.timestampMillis)
  | .null => .ok .null
  | .regularExpression value => do
    ensurePayloadBound (textLen value.pattern) options path "regex pattern"
    ensurePayloadBound (textLen value.options) options path "regex options"
    let pattern ← cstringFrom value.pattern path "invalid BSON regex pattern"
    let flags ← cstringFrom value.options path "invalid BSON regex options"
    return .regularExpression pattern flags
  | .javaScript code none => do
    ensureLengthEncodedString code options path "JavaScript source"
    return .javaScriptCode code
  | .javaScript code (some scope) => do
    ensureLengthEncodedString code options path "JavaScript source"
    let scopePath := fieldPath path "$scope"
    ensureDepth (parentDepth + 1) options scopePath
    let raw ← encodeRawFields options scope (parentDepth + 1) scopePath [] Crate.new
    return .javaScriptCodeWithScope code raw
  | .int32 value => .ok (.int32 value)
  | .timestamp value => .ok (.timestamp value.time value.increment)
  | .int64 value => .ok (.int64 value)
  | .decimal128 value => .ok (.decimal128 ⟨value.bid, value.length_eq⟩)
  | .maxKey => .ok .maxKey
  | .minKey => .ok .minKey

def encodeRawFields (options : BsonCodecOptions) (entries : List (String × BsonValue))
    (depth : Nat) (path : String) (names : List String) (raw : List UInt8) :
    BsonResult (List UInt8) :=
  match entries with
  | [] => .ok raw
  | (name, value) :: entries => do
    let valuePath := fieldPath path name
    if repeats options names name then throw (duplicateField valuePath)
    ensurePayloadBound (textLen name) options valuePath "field name"
    let key ← cstringFrom name valuePath "invalid BSON field name"
    let rawValue ← encodeRawValue options value depth valuePath
    let raw := Crate.append raw key rawValue
    ensureDocumentSize raw.length options path
    encodeRawFields options entries depth path (name :: names) raw

def encodeRawElements (options : BsonCodecOptions) (values : List BsonValue) (depth : Nat)
    (path : String) (index : Nat) (array : RawArrayBuf) : BsonResult RawArrayBuf :=
  match values with
  | [] => .ok array
  | value :: values => do
    let rawValue ← encodeRawValue options value depth (indexPath path index)
    let array := Crate.push array rawValue
    ensureDocumentSize array.raw.length options path
    encodeRawElements options values depth path (index + 1) array

end

def encodeRawDocument (options : BsonCodecOptions) (depth : Nat)
    (path : String) : BsonResult (List UInt8) := do
  ensureDepth depth options path
  encodeRawFields options document depth path [] Crate.new

def encodeDocumentWithOptions (options : BsonCodecOptions) :
    BsonResult (List UInt8) := do
  options.validate
  let _ ← encodedDocumentLen document options 1 "$"
  encodeRawDocument document options 1 "$"

def encodeDocument : BsonResult (List UInt8) :=
  encodeDocumentWithOptions document .new

structure DecodeBudget where
  limit : Nat
  remaining : Nat

namespace DecodeBudget

def new (limit : Nat) : DecodeBudget := ⟨limit, limit⟩

def consume (budget : DecodeBudget) (bytes : Nat) (path description : String) :
    BsonResult DecodeBudget :=
  if bytes ≤ budget.remaining then .ok { budget with remaining := budget.remaining - bytes }
  else
    .error ((BsonError.new .oversized
      ("decoded BSON exceeds the configured " ++ toString budget.limit ++
        "-byte allocation budget while retaining " ++ description)).withPath path)

/-- Slots are reserved in doubling steps, cut down to the budget; the result is their number. -/
def reserveContainerSlots (budget : DecodeBudget) (len reserved slotBytes : Nat)
    (path description : String) : BsonResult (Nat × DecodeBudget) :=
  if len < reserved then .ok (reserved, budget)
  else
    let desiredAdditional :=
      if reserved = 0 then initialDecodedContainerCapacity else reserved
    let affordable := budget.remaining / slotBytes
    if affordable = 0 then do
      -- not even one slot is affordable, so this always fails
      let budget ← budget.consume slotBytes path description
      return (reserved, budget)
    else do
      let additionalSlots := min desiredAdditional affordable
      let budget ← budget.consume (additionalSlots * slotBytes) path description
      return (reserved + additionalSlots, budget)

end DecodeBudget

def cloneString (value : String) (budget : DecodeBudget) (path description : String) :
    BsonResult (String × DecodeBudget) := do
  let budget ← budget.consume (textLen value) path description
  return (value, budget)

def cloneBytes (value : List UInt8) (budget : DecodeBudget) (path description : String) :
    BsonResult (List UInt8 × DecodeBudget) := do
  let budget ← budget.consume value.length path description
  return (value, budget)

omit [Crate] in
theorem UuidRepresentation.transform_length (representation : UuidRepresentation)
    (bytes : List UInt8) : (representation.transform bytes).length = bytes.length := by
  cases representation with
  | standard | pythonLegacy => rfl
  | javaLegacy | cSharpLegacy =>
    simp [transform]
    omega

def BsonUuid.fromBinary (binary : BsonBinary) (representation : UuidRepresentation) :
    BsonResult BsonUuid :=
  if h : binary.subtype = representation.subtype ∧ binary.bytes.length = 16 then
    .ok ⟨representation.transform binary.bytes, representation, by
      rw [representation.transform_length, h.2]⟩
  else
    .error
      (invalidValue "BSON binary value does not match the requested UUID representation")

/-- A binary value, or the UUID that the configured convention makes of it. -/
def decodeBinary (options : BsonCodecOptions) (subtype : UInt8) (bytes : List UInt8)
    (budget : DecodeBudget) (path : String) : BsonResult (BsonValue × DecodeBudget) := do
  if (∃ representation ∈ options.uuidRepresentation, subtype = representation.subtype) ∧
      bytes.length ≠ 16 then
    throw ((BsonError.new .invalidValue
      ("BSON UUID subtype " ++ toString subtype.toNat ++ " requires exactly 16 bytes, got " ++
        toString bytes.length)).withPath path)
  let (bytes, budget) ← cloneBytes bytes budget path "binary payload"
  let binary : BsonBinary := ⟨subtype, bytes⟩
  match options.uuidRepresentation with
  | some representation =>
    if subtype = representation.subtype then
      match BsonUuid.fromBinary binary representation with
      | .ok uuid => .ok (.uuid uuid, budget)
      | .error error => .error (error.withPath path)
    else .ok (.binary binary, budget)
  | none => .ok (.binary binary, budget)

/-- One value; `decodeDocument` and `decodeArray` decode one level further down. -/
def decodeRawValue (options : BsonCodecOptions)
    (decodeDocument : List UInt8 → DecodeBudget → String → BsonResult (BsonDocument × DecodeBudget))
    (decodeArray : List UInt8 → DecodeBudget → String →
      BsonResult (List BsonValue × DecodeBudget))
    (value : RawBson) (budget : DecodeBudget) (path : String) :
    BsonResult (BsonValue × DecodeBudget) :=
  match value with
  | .double bits => .ok (.double ⟨bits⟩, budget)
  | .string value => do
    let (value, budget) ← cloneString value budget path "string"
    return (.string value, budget)
  | .document raw => do
    let (document, budget) ← decodeDocument raw budget path
    return (.document document, budget)
  | .array raw => do
    let (values, budget) ← decodeArray raw budget path
    return (.array values, budget)
  | .binary subtype bytes => decodeBinary options subtype bytes budget path
  | .objectId bytes => .ok (.objectId ⟨bytes.val, bytes.property⟩, budget)
  | .boolean value => .ok (.boolean value, budget)
  | .dateTime millis => .ok (.dateTime ⟨millis⟩, budget)
  | .null => .ok (.null, budget)
  | .regularExpression pattern flags => do
    let (pattern, budget) ← cloneString pattern budget path "regex pattern"
    let budget ← budget.consume decodedRegexOptionsBytes path "canonical regex options"
    match BsonRegex.new pattern flags with
    | .ok regex => .ok (.regularExpression regex, budget)
    | .error error => .error (error.withPath path)
  | .javaScriptCode code => do
    let (code, budget) ← cloneString code budget path "JavaScript source"
    return (.javaScript code none, budget)
  | .javaScriptCodeWithScope code scope => do
    let (scope, budget) ← decodeDocument scope budget (fieldPath path "$scope")
    let (code, budget) ← cloneString code budget path "JavaScript source"
    return (.javaScript code (some scope), budget)
  | .int32 value => .ok (.int32 value, budget)
  | .timestamp time increment => .ok (.timestamp ⟨time, increment⟩, budget)
  | .int64 value => .ok (.int64 value, budget)
  | .decimal128 bytes => .ok (.decimal128 ⟨bytes.val, bytes.property⟩, budget)
  | .maxKey => .ok (.maxKey, budget)
  | .minKey => .ok (.minKey, budget)
  | .undefined => .error (unsupportedType "Undefined" path)
  | .dbPointer _ _ => .error (unsupportedType "DBPointer" path)
  | .symbol _ => .error (unsupportedType "Symbol" path)

/-- The check and the charge for a field name under the rejecting policy. -/
def admitName (options : BsonCodecOptions) (names : List String) (name : String)
    (budget : DecodeBudget) (path : String) : BsonResult (List String × DecodeBudget) :=
  if options.duplicateFieldPolicy = .reject then
    if names.contains name then .error (duplicateField path)
    else do
      let budget ← budget.consume decodedHashNameBytes path "field-name index"
      return (name :: names, budget)
  else .ok (names, budget)

def decodeFields (sizes : DecodedSizes) (options : BsonCodecOptions)
    (decodeValue : RawBson → DecodeBudget → String → BsonResult (BsonValue × DecodeBudget))
    (path : String) (document : BsonDocument) (reservedSlots : Nat) (names : List String)
    (budget : DecodeBudget) (elements : List (Except RawError RawElement)) :
    BsonResult (BsonDocument × DecodeBudget) :=
  match elements with
  | [] => .ok (document, budget)
  | element :: elements => do
    let element ← mapRaw element path "invalid BSON document element"
    let valuePath := fieldPath path element.key
    let (names, budget) ← admitName options names element.key budget valuePath
    let rawValue ← mapRaw element.value valuePath "invalid BSON element value"
    let (reservedSlots, budget) ← budget.reserveContainerSlots document.length reservedSlots
      sizes.documentSlot valuePath "document entries"
    let (name, budget) ← cloneString element.key budget valuePath "field name"
    let (value, budget) ← decodeValue rawValue budget valuePath
    match document.push name value with
    | .error error => .error (error.withPath valuePath)
    | .ok document =>
      decodeFields sizes options decodeValue path document reservedSlots names budget elements

def decodeElements (sizes : DecodedSizes)
    (decodeValue : RawBson → DecodeBudget → String → BsonResult (BsonValue × DecodeBudget))
    (path : String) (values : List BsonValue) (reservedSlots : Nat) (budget : DecodeBudget)
    (elements : List (Except RawError RawElement)) : BsonResult (List BsonValue × DecodeBudget) :=
  match elements with
  | [] => .ok (values, budget)
  | element :: elements => do
    let valuePath := indexPath path values.length
    let element ← mapRaw element valuePath "invalid BSON array element"
    let rawValue ← mapRaw element.value valuePath "invalid BSON array value"
    let (reservedSlots, budget) ← budget.reserveContainerSlots values.length reservedSlots
      sizes.arraySlot valuePath "array elements"
    let (value, budget) ← decodeValue rawValue budget valuePath
    decodeElements sizes decodeValue path (values ++ [value]) reservedSlots budget elements

/- The source counts the depth of a container up to its limit. Here `room` is what is
left: a container at depth `d` is decoded with `maxNestingDepth + 1 - d`, so the
check fails exactly at zero, one level below the limit. -/
mutual

def decodeRawDocument (sizes : DecodedSizes) (options : BsonCodecOptions) (room : Nat)
    (raw : List UInt8) (budget : DecodeBudget) (path : String) :
    BsonResult (BsonDocument × DecodeBudget) :=
  match room with
  | 0 => do
    ensureDepth (options.maxNestingDepth + 1) options path
    .ok ([], budget)
  | room + 1 => do
    ensureDocumentSize raw.length options path
    let decodeValue := decodeRawValue options (decodeRawDocument sizes options room)
      (decodeRawArray sizes options room)
    decodeFields sizes options decodeValue path [] 0 [] budget (Crate.iterElements raw)

def decodeRawArray (sizes : DecodedSizes) (options : BsonCodecOptions) (room : Nat)
    (raw : List UInt8) (budget : DecodeBudget) (path : String) :
    BsonResult (List BsonValue × DecodeBudget) :=
  match room with
  | 0 => do
    ensureDepth (options.maxNestingDepth + 1) options path
    .ok ([], budget)
  | room + 1 => do
    ensureDocumentSize raw.length options path
    let decodeValue := decodeRawValue options (decodeRawDocument sizes options room)
      (decodeRawArray sizes options room)
    decodeElements sizes decodeValue path [] 0 budget (Crate.iterElements raw)

end

/-- The top-level frame is checked before the crate sees the bytes. -/
def validateTopLevelFrame (bytes : List UInt8) (options : BsonCodecOptions) : BsonResult Unit := do
  if bytes.length > options.maxDocumentBytes then
    throw (oversized bytes.length options.maxDocumentBytes "$")
  if bytes.length < 4 then
    throw ((BsonError.new .truncated
      "BSON input ends before its four-byte document length").withPath "$")
  let word := Bytes.toLe (bytes.take 4)
  let declared : Int := if word < 2 ^ 31 then word else (word : Int) - 2 ^ 32
  if declared < 5 then
    throw ((BsonError.new .invalidValue
      ("BSON document length must be at least 5, got " ++ toString declared)).withPath "$")
  let declared := declared.toNat
  if declared > options.maxDocumentBytes then
    throw (oversized declared options.maxDocumentBytes "$")
  if bytes.length < declared then
    throw ((BsonError.new .truncated
      ("BSON input contains " ++ toString bytes.length ++ " bytes but declares " ++
        toString declared)).withPath "$")
  if bytes.length > declared then
    throw ((BsonError.new .invalidValue
      ("BSON input contains " ++ toString (bytes.length - declared) ++
        " trailing bytes after the declared " ++ toString declared ++
          "-byte document")).withPath "$")
  if bytes.getLast? ≠ some 0 then
    throw ((BsonError.new .invalidValue
      "BSON document is missing its terminal NUL").withPath "$")

def decodeDocumentWithOptions (sizes : DecodedSizes) (bytes : List UInt8)
    (options : BsonCodecOptions) : BsonResult BsonDocument := do
  options.validate
  validateTopLevelFrame bytes options
  let raw ← mapRaw (Crate.fromBytes bytes) "$" "invalid BSON document frame"
  let (document, _) ← decodeRawDocument sizes options options.maxNestingDepth raw
    (.new options.maxDecodedBytes) "$"
  return document

def decodeDocument (sizes : DecodedSizes) (bytes : List UInt8) : BsonResult BsonDocument :=
  decodeDocumentWithOptions sizes bytes .new

end BriskDB.Document
