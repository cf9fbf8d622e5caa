import BriskDB.Document.Valid
import BriskDB.Lib.PrefixCode

/-! # Canonical BSON keys

Versioned bytes for the identity of one BSON value, and the validator for bytes
read back from storage. The encoder and the validator are separate recursive
programs with their own limits on nesting and size. Allocation is taken to
succeed.
-/

namespace BriskDB.Document

open Bytes Result

def bsonKeyEncodingVersion : Nat := 1
def bsonMaxCanonicalKeyBytes : Nat := 16 * 1024 * 1024
def maxKeyNestingDepth : Nat := 100

/-- The bytes of `BBKY`. -/
def keyMagic : List UInt8 := [0x42, 0x42, 0x4b, 0x59]

def keyHeaderLen : Nat := 8

def tagMinKey : UInt8 := 0
def tagNull : UInt8 := 1
def tagNumber : UInt8 := 2
def tagString : UInt8 := 3
def tagDocument : UInt8 := 4
def tagArray : UInt8 := 5
def tagBinary : UInt8 := 6
def tagObjectId : UInt8 := 7
def tagBoolean : UInt8 := 8
def tagDateTime : UInt8 := 9
def tagTimestamp : UInt8 := 10
def tagRegex : UInt8 := 11
def tagJavaScript : UInt8 := 12
def tagJavaScriptWithScope : UInt8 := 13
def tagMaxKey : UInt8 := 14

def numberNan : UInt8 := 0
def numberNegativeInfinity : UInt8 := 1
def numberFinite : UInt8 := 2
def numberPositiveInfinity : UInt8 := 3

def finiteZero : UInt8 := 0
def finitePositive : UInt8 := 1
def finiteNegative : UInt8 := 2

def maxCanonicalCoefficientBytes : Nat := 15

def invalidKey (diagnostic : String) : BsonError := .new .invalidCanonicalKey diagnostic

def oversizedKey (actual : Nat) : BsonError :=
  .new .oversized
    ("canonical BSON key contains " ++ toString actual ++ " bytes, exceeding the supported " ++
      toString bsonMaxCanonicalKeyBytes ++ "-byte limit")

def ensureKeyDepth (depth : Nat) : BsonResult Unit :=
  if depth > maxKeyNestingDepth then
    .error (.new .nestingLimit "canonical BSON key exceeds the nesting limit")
  else .ok ()

def extendKeyBytes (output value : List UInt8) : BsonResult (List UInt8) :=
  if output.length + value.length > bsonMaxCanonicalKeyBytes then
    .error (oversizedKey (output.length + value.length))
  else .ok (output ++ value)

def pushKeyByte (output : List UInt8) (value : UInt8) : BsonResult (List UInt8) :=
  extendKeyBytes output [value]

def pushLen (output : List UInt8) (length : Nat) : BsonResult (List UInt8) :=
  if length < 2 ^ 32 then extendKeyBytes output (ofBe 4 length)
  else .error (.new .oversized "canonical BSON key component exceeds the supported size")

def pushBytes (output value : List UInt8) : BsonResult (List UInt8) := do
  let output ← pushLen output value.length
  extendKeyBytes output value

def pushString (output : List UInt8) (value : String) : BsonResult (List UInt8) :=
  pushBytes output (Utf8.bytes value)

def i16Bytes (value : Int) : List UInt8 := ofBe 2 (value % 2 ^ 16).toNat

def encodeFinite (output : List UInt8) (value : CanonicalFinite) : BsonResult (List UInt8) := do
  let output ← pushKeyByte output
    (if value.coefficient = 0 then finiteZero
      else if value.negative then finiteNegative
      else finitePositive)
  let output ←
    (if value.coefficient = 0 then pushBytes output []
      else pushBytes output (stripZeros (ofBe 16 value.coefficient)))
  let output ← extendKeyBytes output (i16Bytes value.exponentTwo)
  extendKeyBytes output (i16Bytes value.exponentFive)

def encodeNumber (output : List UInt8) : CanonicalNumber → BsonResult (List UInt8)
  | .nan => pushKeyByte output numberNan
  | .negativeInfinity => pushKeyByte output numberNegativeInfinity
  | .positiveInfinity => pushKeyByte output numberPositiveInfinity
  | .finite value => do
    let output ← pushKeyByte output numberFinite
    encodeFinite output value

/-- The frame of a document; `fields` is the loop over its entries. -/
def encodeKeyDocument (output : List UInt8) (length depth : Nat)
    (fields : List UInt8 → BsonResult (List UInt8)) : BsonResult (List UInt8) := do
  ensureKeyDepth depth
  let output ← pushLen output length
  fields output

mutual

def encodeKeyValue (output : List UInt8) (value : BsonValue) (depth : Nat) :
    BsonResult (List UInt8) := do
  ensureKeyDepth depth
  match value.canonicalNumber with
  | some number =>
    let output ← pushKeyByte output tagNumber
    encodeNumber output number
  | none =>
    match value.binaryParts with
    | some (subtype, bytes) =>
      let output ← pushKeyByte output tagBinary
      let output ← pushKeyByte output subtype
      pushBytes output bytes
    | none =>
      match value with
      | .minKey => pushKeyByte output tagMinKey
      | .null => pushKeyByte output tagNull
      | .string value =>
        let output ← pushKeyByte output tagString
        pushString output value
      | .document document =>
        let output ← pushKeyByte output tagDocument
        encodeKeyDocument output document.length (depth + 1) fun output =>
          encodeKeyFields output document (depth + 1)
      | .array values =>
        ensureKeyDepth (depth + 1)
        let output ← pushKeyByte output tagArray
        let output ← pushLen output values.length
        encodeKeyValues output values (depth + 1)
      | .objectId value =>
        let output ← pushKeyByte output tagObjectId
        extendKeyBytes output value.bytes
      | .boolean value =>
        let output ← pushKeyByte output tagBoolean
        pushKeyByte output (if value then 1 else 0)
      | .dateTime value =>
        let output ← pushKeyByte output tagDateTime
        extendKeyBytes output (ofBe 8 value.timestampMillis.toUInt64.toNat)
      | .timestamp value =>
        let output ← pushKeyByte output tagTimestamp
        let output ← extendKeyBytes output (ofBe 4 value.time.toNat)
        extendKeyBytes output (ofBe 4 value.increment.toNat)
      | .regularExpression value =>
        let output ← pushKeyByte output tagRegex
        let output ← pushString output value.pattern
        pushString output value.options
      | .javaScript code (some scope) =>
        let output ← pushKeyByte output tagJavaScriptWithScope
        let output ← pushString output code
        encodeKeyDocument output scope.length (depth + 1) fun output =>
          encodeKeyFields output scope (depth + 1)
      | .javaScript code none =>
        let output ← pushKeyByte output tagJavaScript
        pushString output code
      | .maxKey => pushKeyByte output tagMaxKey
      -- unreachable: numbers and binaries were encoded above
      | _ => .ok output

def encodeKeyFields (output : List UInt8) (entries : List (String × BsonValue)) (depth : Nat) :
    BsonResult (List UInt8) :=
  match entries with
  | [] => .ok output
  | (name, value) :: entries => do
    let output ← pushString output name
    let output ← encodeKeyValue output value depth
    encodeKeyFields output entries depth

def encodeKeyValues (output : List UInt8) (values : List BsonValue) (depth : Nat) :
    BsonResult (List UInt8) :=
  match values with
  | [] => .ok output
  | value :: values => do
    let output ← encodeKeyValue output value depth
    encodeKeyValues output values depth

end

/-- Validated, versioned bytes for one BSON semantic identity. -/
structure CanonicalBsonKey where
  bytes : List UInt8
  deriving DecidableEq

def CanonicalBsonKey.encode (value : BsonValue) : BsonResult CanonicalBsonKey := do
  let bytes ← extendKeyBytes [] keyMagic
  let bytes ← extendKeyBytes bytes (ofBe 4 bsonKeyEncodingVersion)
  let bytes ← encodeKeyValue bytes value 0
  return ⟨bytes⟩

namespace KeyCursor

def take (length : Nat) (cursor : List UInt8) : BsonResult (List UInt8 × List UInt8) :=
  if length ≤ cursor.length then .ok (cursor.take length, cursor.drop length)
  else .error (invalidKey "canonical BSON key is truncated")

variable (cursor : List UInt8)

def readU8 : BsonResult (UInt8 × List UInt8) :=
  match cursor with
  | byte :: cursor => .ok (byte, cursor)
  | [] => .error (invalidKey "canonical BSON key is truncated")

def readU32 : BsonResult (Nat × List UInt8) := do
  let (bytes, cursor) ← take 4 cursor
  return (toBe bytes, cursor)

def readI16 : BsonResult (Int × List UInt8) := do
  let (bytes, cursor) ← take 2 cursor
  let value := toBe bytes
  return (if value < 2 ^ 15 then (value : Int) else (value : Int) - 2 ^ 16, cursor)

def readBytes : BsonResult (List UInt8 × List UInt8) := do
  let (length, cursor) ← readU32 cursor
  take length cursor

def readString : BsonResult (String × List UInt8) := do
  let (bytes, cursor) ← readBytes cursor
  match Utf8.decode bytes with
  | some text => .ok (text, cursor)
  | none => .error (invalidKey "canonical BSON key contains invalid UTF-8")

def times (step : List UInt8 → BsonResult (List UInt8)) : Nat → List UInt8 → BsonResult (List UInt8)
  | 0, cursor => .ok cursor
  | count + 1, cursor => do
    let cursor ← step cursor
    times step count cursor

end KeyCursor

open KeyCursor

def nestingLimit : BsonError := invalidKey "canonical BSON key exceeds the nesting limit"

variable (cursor : List UInt8)

def validateFinite : BsonResult (List UInt8) := do
  let (sign, cursor) ← readU8 cursor
  let (coefficientBytes, cursor) ← readBytes cursor
  if coefficientBytes.head? = some 0 then
    throw (invalidKey "canonical BSON key integer magnitude has leading zeroes")
  if coefficientBytes.length > maxCanonicalCoefficientBytes then
    throw (invalidKey "canonical BSON key finite coefficient exceeds the supported size")
  let coefficient := toBe coefficientBytes
  let (exponentTwo, cursor) ← readI16 cursor
  let (exponentFive, cursor) ← readI16 cursor
  if sign = finiteZero ∧ coefficientBytes = [] ∧ exponentTwo = 0 ∧ exponentFive = 0 then
    .ok cursor
  else if (sign = finitePositive ∨ sign = finiteNegative) ∧ coefficientBytes ≠ [] then
    if coefficient > maxDecimal128Coefficient then
      .error (invalidKey "canonical BSON key finite coefficient exceeds the BSON numeric domain")
    else if coefficient % 2 = 0 ∨ coefficient % 5 = 0 then
      .error (invalidKey "canonical BSON key finite coefficient is not factorized")
    else if ¬ (minCanonicalExponentTwo ≤ exponentTwo ∧ exponentTwo ≤ maxCanonicalExponentTwo) ∨
        ¬ (minCanonicalExponentFive ≤ exponentFive ∧
          exponentFive ≤ maxCanonicalExponentFive) then
      .error (invalidKey "canonical BSON key finite exponent is outside the supported domain")
    else .ok cursor
  else .error (invalidKey "canonical BSON key has a noncanonical finite number")

def validateNumber : BsonResult (List UInt8) := do
  let (kind, cursor) ← readU8 cursor
  if kind = numberNan ∨ kind = numberNegativeInfinity ∨ kind = numberPositiveInfinity then
    .ok cursor
  else if kind = numberFinite then validateFinite cursor
  else .error (invalidKey "canonical BSON key has an unknown numeric tag")

def validateRegex : BsonResult (List UInt8) := do
  let (pattern, cursor) ← readString cursor
  let (options, cursor) ← readString cursor
  match BsonRegex.new pattern options with
  | .error _ => .error (invalidKey "canonical BSON key has an invalid regex")
  | .ok regex =>
    if regex.options ≠ options then
      .error (invalidKey "canonical BSON key has noncanonical regex options")
    else .ok cursor

def validateDocument (validate : List UInt8 → BsonResult (List UInt8)) (room : Nat)
    (cursor : List UInt8) : BsonResult (List UInt8) := do
  if room = 0 then throw nestingLimit
  let (count, cursor) ← readU32 cursor
  times (fun cursor => do
    let (name, cursor) ← readString cursor
    if containsNul name then
      throw (invalidKey "canonical BSON key contains NUL in a field name")
    validate cursor) count cursor

def validateArray (validate : List UInt8 → BsonResult (List UInt8)) (room : Nat)
    (cursor : List UInt8) : BsonResult (List UInt8) := do
  if room = 0 then throw nestingLimit
  let (count, cursor) ← readU32 cursor
  times validate count cursor

/-- The validator of one value. -/
def validateValue : Nat → List UInt8 → BsonResult (List UInt8)
  | 0, _ => .error nestingLimit
  | room + 1, cursor => do
    let (tag, cursor) ← readU8 cursor
    if tag = tagMinKey ∨ tag = tagNull ∨ tag = tagMaxKey then .ok cursor
    else if tag = tagNumber then validateNumber cursor
    else if tag = tagString then
      let (_, cursor) ← readString cursor
      .ok cursor
    else if tag = tagDocument then validateDocument (validateValue room) room cursor
    else if tag = tagArray then validateArray (validateValue room) room cursor
    else if tag = tagBinary then
      let (_, cursor) ← readU8 cursor
      let (_, cursor) ← readBytes cursor
      .ok cursor
    else if tag = tagObjectId then
      let (_, cursor) ← take 12 cursor
      .ok cursor
    else if tag = tagBoolean then
      let (value, cursor) ← readU8 cursor
      if value > 1 then .error (invalidKey "canonical BSON key has an invalid boolean")
      else .ok cursor
    else if tag = tagDateTime then
      let (_, cursor) ← take 8 cursor
      .ok cursor
    else if tag = tagTimestamp then
      let (_, cursor) ← take 8 cursor
      .ok cursor
    else if tag = tagRegex then validateRegex cursor
    else if tag = tagJavaScript then
      let (_, cursor) ← readString cursor
      .ok cursor
    else if tag = tagJavaScriptWithScope then
      let (_, cursor) ← readString cursor
      validateDocument (validateValue room) room cursor
    else .error (invalidKey "canonical BSON key has an unknown type tag")

def CanonicalBsonKey.fromBytes (bytes : List UInt8) : BsonResult CanonicalBsonKey := do
  if bytes.length > bsonMaxCanonicalKeyBytes then throw (oversizedKey bytes.length)
  if bytes.length < keyHeaderLen then
    throw (invalidKey "canonical BSON key is shorter than its header")
  if bytes.take 4 ≠ keyMagic then
    throw (invalidKey "canonical BSON key has an invalid magic value")
  if toBe ((bytes.drop 4).take 4) ≠ bsonKeyEncodingVersion then
    throw (invalidKey "canonical BSON key uses an unsupported version")
  let cursor ← validateValue (maxKeyNestingDepth + 1) (bytes.drop keyHeaderLen)
  if cursor ≠ [] then throw (invalidKey "canonical BSON key has trailing bytes")
  return ⟨bytes⟩

theorem bytes_of_fromBytes {bytes : List UInt8} {key : CanonicalBsonKey}
    (h : CanonicalBsonKey.fromBytes bytes = .ok key) : key.bytes = bytes := by
  simp only [CanonicalBsonKey.fromBytes, ite_throw_eq_ok] at h
  obtain ⟨-, -, -, -, h⟩ := h
  obtain ⟨cursor, -, h⟩ := bind_eq_ok.mp h
  simp only [ite_throw_eq_ok] at h
  obtain ⟨-, h⟩ := h
  cases h
  rfl

end BriskDB.Document
