import BriskDB.Document.Codec

/-! # Wire forms

The wire form of a value, and the values that can be stored: nesting, sizes and names are
within the limits at every level.
-/

namespace BriskDB.Document

open BsonWire List

def wireBytes (elements : List (String × RawBson)) : List UInt8 :=
  frame (elements.flatMap fun entry => element entry.1 entry.2)

mutual

/-- The wire form of a value; UUIDs are written as the binary they encode to. -/
def BsonValue.raw : BsonValue → RawBson
  | .double value => .double value.bits
  | .string value => .string value
  | .document entries => .document (wireBytes (rawFields entries))
  | .array values => .array (wireBytes (rawElements 0 values))
  | .binary value => .binary value.subtype value.bytes
  | .uuid value => .binary value.encodedParts.1 value.encodedParts.2
  | .objectId value => .objectId ⟨value.bytes, value.length_eq⟩
  | .boolean value => .boolean value
  | .dateTime value => .dateTime value.timestampMillis
  | .null => .null
  | .regularExpression value => .regularExpression value.pattern value.options
  | .javaScript code none => .javaScriptCode code
  | .javaScript code (some scope) => .javaScriptCodeWithScope code (wireBytes (rawFields scope))
  | .int32 value => .int32 value
  | .timestamp value => .timestamp value.time value.increment
  | .int64 value => .int64 value
  | .decimal128 value => .decimal128 ⟨value.bid, value.length_eq⟩
  | .maxKey => .maxKey
  | .minKey => .minKey

def rawFields : List (String × BsonValue) → List (String × RawBson)
  | [] => []
  | (name, value) :: entries => (name, value.raw) :: rawFields entries

def rawElements (index : Nat) : List BsonValue → List (String × RawBson)
  | [] => []
  | value :: values => (toString index, value.raw) :: rawElements (index + 1) values

end

def ScalarFits (value : BsonValue) : Prop :=
  value.IsScalar ∧ value.Valid ∧ value.raw.Writable

/-- A value that the encoder accepts inside a container at the given depth. -/
inductive Storable : Nat → BsonValue → Prop
  | scalar {depth : Nat} {value : BsonValue} (hfits : ScalarFits value) : Storable depth value
  | document {depth : Nat} {entries : List (String × BsonValue)}
      (hdepth : depth + 1 ≤ bsonMaxNestingDepth)
      (hsize : (wireBytes (rawFields entries)).length ≤ bsonMaxDocumentBytes)
      (hnames : (entries.map Prod.fst).Nodup)
      (hentries : ∀ entry ∈ entries, containsNul entry.1 = false)
      (hvalues : ∀ entry ∈ entries, Storable (depth + 1) entry.2) :
      Storable depth (.document entries)
  | array {depth : Nat} {values : List BsonValue} (hdepth : depth + 1 ≤ bsonMaxNestingDepth)
      (hsize : (wireBytes (rawElements 0 values)).length ≤ bsonMaxDocumentBytes)
      (hvalues : ∀ value ∈ values, Storable (depth + 1) value) : Storable depth (.array values)
  | scope {depth : Nat} {code : String} {entries : List (String × BsonValue)}
      (hdepth : depth + 1 ≤ bsonMaxNestingDepth)
      (hcode : textLen code + 5 ≤ bsonMaxDocumentBytes)
      (hsize : (wireBytes (rawFields entries)).length ≤ bsonMaxDocumentBytes)
      (hnames : (entries.map Prod.fst).Nodup)
      (hentries : ∀ entry ∈ entries, containsNul entry.1 = false)
      (hvalues : ∀ entry ∈ entries, Storable (depth + 1) entry.2) :
      Storable depth (.javaScript code (some entries))

end BriskDB.Document
