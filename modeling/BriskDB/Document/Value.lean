import BriskDB.Document.Number
import BriskDB.Lib.Utf8

/-! # BSON values

An owned value for every BSON family, with the semantic equality, hashing and
ordering of the source. Documents are sequences of entries, so field order and
duplicate names are significant.
-/

namespace BriskDB.Document

structure BsonBinary where
  subtype : UInt8
  bytes : List UInt8
  deriving DecidableEq

structure BsonObjectId where
  bytes : List UInt8
  length_eq : bytes.length = 12
  deriving DecidableEq

structure BsonDateTime where
  timestampMillis : Int64
  deriving DecidableEq

structure BsonTimestamp where
  time : UInt32
  increment : UInt32
  deriving DecidableEq

structure BsonRegex where
  pattern : String
  options : String
  deriving DecidableEq

structure BsonDecimal128 where
  bid : List UInt8
  length_eq : bid.length = 16
  deriving DecidableEq

inductive UuidRepresentation
  | standard
  | pythonLegacy
  | javaLegacy
  | cSharpLegacy
  deriving DecidableEq, Repr

def UuidRepresentation.subtype : UuidRepresentation → UInt8
  | .standard => 4
  | .pythonLegacy | .javaLegacy | .cSharpLegacy => 3

def UuidRepresentation.transform : UuidRepresentation → List UInt8 → List UInt8
  | .standard, bytes | .pythonLegacy, bytes => bytes
  | .javaLegacy, bytes => (bytes.take 8).reverse ++ (bytes.drop 8).reverse
  | .cSharpLegacy, bytes =>
    (bytes.take 4).reverse ++ ((bytes.drop 4).take 2).reverse ++
      ((bytes.drop 6).take 2).reverse ++ bytes.drop 8

/-- Logical RFC-4122 bytes together with the representation that encoded them. -/
structure BsonUuid where
  bytes : List UInt8
  representation : UuidRepresentation
  length_eq : bytes.length = 16
  deriving DecidableEq

def BsonUuid.encodedParts (uuid : BsonUuid) : UInt8 × List UInt8 :=
  (uuid.representation.subtype, uuid.representation.transform uuid.bytes)

inductive BsonValue
  | double (value : F64)
  | string (value : String)
  | document (entries : List (String × BsonValue))
  | array (values : List BsonValue)
  | binary (value : BsonBinary)
  | uuid (value : BsonUuid)
  | objectId (value : BsonObjectId)
  | boolean (value : Bool)
  | dateTime (value : BsonDateTime)
  | null
  | regularExpression (value : BsonRegex)
  | javaScript (code : String) (scope : Option (List (String × BsonValue)))
  | int32 (value : Int32)
  | timestamp (value : BsonTimestamp)
  | int64 (value : Int64)
  | decimal128 (value : BsonDecimal128)
  | minKey
  | maxKey

abbrev BsonDocument := List (String × BsonValue)

namespace BsonDocument

def getFirst (document : BsonDocument) (name : String) : Option BsonValue :=
  document.findSome? fun entry => if entry.1 = name then some entry.2 else none

def names (document : BsonDocument) : List String := document.map (·.1)

@[simp] theorem names_append (left right : BsonDocument) :
    names (left ++ right) = names left ++ names right := List.map_append

@[simp] theorem names_cons (entry : String × BsonValue) (document : BsonDocument) :
    names (entry :: document) = entry.1 :: names document := rfl

@[simp] theorem names_nil : names [] = [] := rfl

@[simp] theorem getFirst_nil (name : String) : getFirst [] name = none := rfl

theorem getFirst_cons (entry : String × BsonValue) (document : BsonDocument) (name : String) :
    getFirst (entry :: document) name =
      if entry.1 = name then some entry.2 else getFirst document name := by
  unfold getFirst
  grind

theorem getFirst_append (left right : BsonDocument) (name : String) :
    getFirst (left ++ right) name = (getFirst left name).or (getFirst right name) :=
  List.findSome?_append

theorem getFirst_eq_none {document : BsonDocument} {name : String} :
    getFirst document name = none ↔ name ∉ names document := by
  induction document with
  | nil => simp
  | cons entry document ih =>
    rw [getFirst_cons, names_cons, List.mem_cons, not_or, ← ih]
    grind

/-- The field between two parts of a document, the first of which does not have it. -/
theorem getFirst_middle {before : BsonDocument} {name : String} (hfirst : name ∉ names before)
    (value : BsonValue) (after : BsonDocument) :
    getFirst (before ++ (name, value) :: after) name = some value := by
  rw [getFirst_append, getFirst_eq_none.mpr hfirst, getFirst_cons]
  simp

theorem getFirst_middle_of_ne {name other : String} (hne : other ≠ name) (before : BsonDocument)
    (value : BsonValue) (after : BsonDocument) :
    getFirst (before ++ (name, value) :: after) other = getFirst (before ++ after) other := by
  rw [getFirst_append, getFirst_append, getFirst_cons, if_neg hne.symm]

end BsonDocument

namespace BsonValue

def typeRank : BsonValue → Nat
  | minKey => 0
  | null => 1
  | double _ | int32 _ | int64 _ | decimal128 _ => 2
  | string _ => 3
  | document _ => 4
  | array _ => 5
  | binary _ | uuid _ => 6
  | objectId _ => 7
  | boolean _ => 8
  | dateTime _ => 9
  | timestamp _ => 10
  | regularExpression _ => 11
  | javaScript _ none => 12
  | javaScript _ (some _) => 13
  | maxKey => 14

def canonicalNumber : BsonValue → Option CanonicalNumber
  | double value => some (.fromF64 value)
  | int32 value => some (.fromInt32 value)
  | int64 value => some (.fromInt64 value)
  | decimal128 value => some (.fromDecimalBid value.bid)
  | _ => none

def binaryParts : BsonValue → Option (UInt8 × List UInt8)
  | binary value => some (value.subtype, value.bytes)
  | uuid value => some value.encodedParts
  | _ => none

end BsonValue

mutual

/-- Semantic equality: numbers by value, binary families by subtype and bytes. -/
def BsonValue.eq (left right : BsonValue) : Bool :=
  match left.canonicalNumber, right.canonicalNumber with
  | some left, some right => left = right
  | _, _ =>
    match left.binaryParts with
    | some (leftSubtype, leftBytes) =>
      match right.binaryParts with
      | some (rightSubtype, rightBytes) => leftSubtype = rightSubtype ∧ leftBytes = rightBytes
      | none => false
    | none =>
      match left, right with
      | .string left, .string right => left = right
      | .document left, .document right => documentEq left right
      | .array left, .array right => arrayEq left right
      | .null, .null => true
      | .minKey, .minKey => true
      | .maxKey, .maxKey => true
      | .objectId left, .objectId right => left = right
      | .boolean left, .boolean right => left = right
      | .dateTime left, .dateTime right => left = right
      | .regularExpression left, .regularExpression right => left = right
      | .javaScript leftCode (some leftScope), .javaScript rightCode (some rightScope) =>
        leftCode = rightCode && documentEq leftScope rightScope
      | .javaScript leftCode none, .javaScript rightCode none => leftCode = rightCode
      | .timestamp left, .timestamp right => left = right
      | _, _ => false

def documentEq : List (String × BsonValue) → List (String × BsonValue) → Bool
  | [], [] => true
  | (leftName, leftValue) :: left, (rightName, rightValue) :: right =>
    leftName = rightName && leftValue.eq rightValue && documentEq left right
  | _, _ => false

def arrayEq : List BsonValue → List BsonValue → Bool
  | [], [] => true
  | leftValue :: left, rightValue :: right => leftValue.eq rightValue && arrayEq left right
  | _, _ => false

end

def saturatingAdd (left right : Nat) : Nat := min (left + right) (2 ^ 64 - 1)

def binaryEncodedLen (subtype : UInt8) (bytes : List UInt8) : Nat :=
  saturatingAdd bytes.length (if subtype = 2 then 4 else 0)

def binaryCmp (left right : UInt8 × List UInt8) : Ordering :=
  (compare (binaryEncodedLen left.1 left.2) (binaryEncodedLen right.1 right.2)).then
    ((compare left.1 right.1).then (compare left.2 right.2))

def stringCmp (left right : String) : Ordering :=
  compare (Utf8.bytes left) (Utf8.bytes right)

def BsonTimestamp.cmp (left right : BsonTimestamp) : Ordering :=
  (compare left.time.toNat right.time.toNat).then
    (compare left.increment.toNat right.increment.toNat)

def BsonRegex.cmp (left right : BsonRegex) : Ordering :=
  (stringCmp left.pattern right.pattern).then (stringCmp left.options right.options)

mutual

def BsonValue.cmp (left right : BsonValue) : Ordering :=
  let rank := compare left.typeRank right.typeRank
  if rank ≠ .eq then rank
  else
    match left.canonicalNumber, right.canonicalNumber with
    | some left, some right => left.cmp right
    | _, _ =>
      match left.binaryParts, right.binaryParts with
      | some left, some right => binaryCmp left right
      | _, _ =>
        match left, right with
        | .string left, .string right => stringCmp left right
        | .document left, .document right => documentCmp left right
        | .array left, .array right => arrayCmp left right
        | .objectId left, .objectId right => compare left.bytes right.bytes
        | .boolean left, .boolean right => compare left right
        | .dateTime left, .dateTime right =>
          compare left.timestampMillis.toInt right.timestampMillis.toInt
        | .regularExpression left, .regularExpression right => left.cmp right
        | .javaScript leftCode leftScope, .javaScript rightCode rightScope =>
          (stringCmp leftCode rightCode).then
            (match leftScope, rightScope with
              | none, none => .eq
              | none, some _ => .lt
              | some _, none => .gt
              | some left, some right => documentCmp left right)
        | .timestamp left, .timestamp right => left.cmp right
        -- equal type ranks leave only payload-free values here
        | _, _ => .eq

def documentCmp : List (String × BsonValue) → List (String × BsonValue) → Ordering
  | (leftName, leftValue) :: left, (rightName, rightValue) :: right =>
    ((compare leftValue.typeRank rightValue.typeRank).then
      ((stringCmp leftName rightName).then (leftValue.cmp rightValue))).then
        (documentCmp left right)
  | _ :: _, [] => .gt
  | [], _ :: _ => .lt
  | [], [] => .eq

def arrayCmp : List BsonValue → List BsonValue → Ordering
  | leftValue :: left, rightValue :: right => (leftValue.cmp rightValue).then (arrayCmp left right)
  | _ :: _, [] => .gt
  | [], _ :: _ => .lt
  | [], [] => .eq

end

inductive HashWrite
  | u8 (value : UInt8)
  | u32 (value : UInt32)
  | i16 (value : Int)
  | i64 (value : Int64)
  | u128 (value : Nat)
  | usize (value : Nat)
  | isize (value : Int)
  | bytes (value : List UInt8)
  deriving DecidableEq

def hashBool (value : Bool) : List HashWrite := [.u8 (if value then 1 else 0)]

def hashStr (text : String) : List HashWrite := [.bytes (Utf8.bytes text), .u8 0xff]

def hashSlice (bytes : List UInt8) : List HashWrite := [.usize bytes.length, .bytes bytes]

def CanonicalFinite.hash (value : CanonicalFinite) : List HashWrite :=
  hashBool value.negative ++
    [.u128 value.coefficient, .i16 value.exponentTwo, .i16 value.exponentFive]

def CanonicalNumber.hash : CanonicalNumber → List HashWrite
  | .nan => [.isize 0]
  | .negativeInfinity => [.isize 1]
  | .finite value => .isize 2 :: value.hash
  | .positiveInfinity => [.isize 3]

mutual

def BsonValue.hash (value : BsonValue) : List HashWrite :=
  match value.canonicalNumber with
  | some number => .u8 2 :: number.hash
  | none =>
    match value.binaryParts with
    | some (subtype, bytes) => [.u8 6, .u8 subtype] ++ hashSlice bytes
    | none =>
      .u8 (UInt8.ofNat value.typeRank) ::
        (match value with
          | .string value => hashStr value
          | .document value => .usize value.length :: entriesHash value
          | .array values => .usize values.length :: arrayHash values
          | .objectId value => hashSlice value.bytes
          | .boolean value => hashBool value
          | .dateTime value => [.i64 value.timestampMillis]
          | .regularExpression value => hashStr value.pattern ++ hashStr value.options
          | .javaScript code none => hashStr code ++ [.isize 0]
          | .javaScript code (some scope) =>
              hashStr code ++ [.isize 1, .usize scope.length] ++ entriesHash scope
          | .timestamp value => [.u32 value.time, .u32 value.increment]
          | _ => [])

def entriesHash : List (String × BsonValue) → List HashWrite
  | [] => []
  | (name, value) :: entries => hashStr name ++ value.hash ++ entriesHash entries

def arrayHash : List BsonValue → List HashWrite
  | [] => []
  | value :: values => value.hash ++ arrayHash values

end

end BriskDB.Document
