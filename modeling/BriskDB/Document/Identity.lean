import BriskDB.Document.Value

/-! # Semantic identities of BSON values

The identity of a value forgets everything that equality, hashing and ordering
ignore: the representation of numbers and the convention of UUIDs. All three
hand-written definitions of the source factor through it, so two values are equal
exactly when they have the same identity.
-/

namespace BriskDB.Document

open BsonValue List

/-- What a BSON value means, one constructor for each type rank. -/
inductive Identity
  | minKey
  | null
  | number (value : CanonicalNumber)
  | string (value : String)
  | document (entries : List (String × Identity))
  | array (values : List Identity)
  | binary (subtype : UInt8) (bytes : List UInt8)
  | objectId (value : BsonObjectId)
  | boolean (value : Bool)
  | dateTime (value : BsonDateTime)
  | timestamp (value : BsonTimestamp)
  | regularExpression (value : BsonRegex)
  | javaScript (code : String)
  | javaScriptWithScope (code : String) (scope : List (String × Identity))
  | maxKey

namespace Identity

def rank : Identity → Nat
  | minKey => 0
  | null => 1
  | number _ => 2
  | string _ => 3
  | document _ => 4
  | array _ => 5
  | binary _ _ => 6
  | objectId _ => 7
  | boolean _ => 8
  | dateTime _ => 9
  | timestamp _ => 10
  | regularExpression _ => 11
  | javaScript _ => 12
  | javaScriptWithScope _ _ => 13
  | maxKey => 14

end Identity

mutual

def BsonValue.identity : BsonValue → Identity
  | .double value => .number (.fromF64 value)
  | .int32 value => .number (.fromInt32 value)
  | .int64 value => .number (.fromInt64 value)
  | .decimal128 value => .number (.fromDecimalBid value.bid)
  | .string value => .string value
  | .document entries => .document (documentIdentity entries)
  | .array values => .array (arrayIdentity values)
  | .binary value => .binary value.subtype value.bytes
  | .uuid value => .binary value.encodedParts.1 value.encodedParts.2
  | .objectId value => .objectId value
  | .boolean value => .boolean value
  | .dateTime value => .dateTime value
  | .null => .null
  | .regularExpression value => .regularExpression value
  | .javaScript code none => .javaScript code
  | .javaScript code (some scope) => .javaScriptWithScope code (documentIdentity scope)
  | .timestamp value => .timestamp value
  | .minKey => .minKey
  | .maxKey => .maxKey

def documentIdentity : List (String × BsonValue) → List (String × Identity)
  | [] => []
  | (name, value) :: entries => (name, value.identity) :: documentIdentity entries

def arrayIdentity : List BsonValue → List Identity
  | [] => []
  | value :: values => value.identity :: arrayIdentity values

end

theorem documentIdentity_eq_map (entries : List (String × BsonValue)) :
    documentIdentity entries = entries.map fun entry => (entry.1, entry.2.identity) := by
  induction entries with
  | nil => rfl
  | cons entry entries ih => rw [documentIdentity, ih, map_cons]

theorem arrayIdentity_eq_map (values : List BsonValue) :
    arrayIdentity values = values.map identity := by
  induction values with
  | nil => rfl
  | cons value values ih => rw [arrayIdentity, ih, map_cons]

namespace BsonValue

theorem identity_rank (value : BsonValue) : value.identity.rank = value.typeRank := by
  cases value with
  | javaScript code scope => cases scope <;> rfl
  | _ => rfl

variable {value : BsonValue} {parts : UInt8 × List UInt8}

theorem identity_of_canonicalNumber {number : CanonicalNumber}
    (h : value.canonicalNumber = some number) : value.identity = .number number := by
  cases value <;> cases h <;> rfl

theorem identity_of_binaryParts
    (h : value.binaryParts = some parts) : value.identity = .binary parts.1 parts.2 := by
  cases value <;> cases h <;> rfl

theorem canonicalNumber_of_binaryParts
    (h : value.binaryParts = some parts) : value.canonicalNumber = none := by
  cases value <;> cases h <;> rfl

end BsonValue

/-- Two values that the source compares by payload: they belong to the same family. -/
inductive SameFamily : BsonValue → BsonValue → Prop
  | strings (l r : String) : SameFamily (.string l) (.string r)
  | documents (l r : List (String × BsonValue)) : SameFamily (.document l) (.document r)
  | arrays (l r : List BsonValue) : SameFamily (.array l) (.array r)
  | objectIds (l r : BsonObjectId) : SameFamily (.objectId l) (.objectId r)
  | booleans (l r : Bool) : SameFamily (.boolean l) (.boolean r)
  | dateTimes (l r : BsonDateTime) : SameFamily (.dateTime l) (.dateTime r)
  | timestamps (l r : BsonTimestamp) : SameFamily (.timestamp l) (.timestamp r)
  | regularExpressions (l r : BsonRegex) :
      SameFamily (.regularExpression l) (.regularExpression r)
  | javaScripts (l r : String) : SameFamily (.javaScript l none) (.javaScript r none)
  | scopedJavaScripts (l r : String) (leftScope rightScope : List (String × BsonValue)) :
      SameFamily (.javaScript l (some leftScope)) (.javaScript r (some rightScope))
  | nulls : SameFamily .null .null
  | minKeys : SameFamily .minKey .minKey
  | maxKeys : SameFamily .maxKey .maxKey
  | numbers {left right : BsonValue} {l r : CanonicalNumber}
      (hleft : left.canonicalNumber = some l) (hright : right.canonicalNumber = some r) :
      SameFamily left right
  | binaries {left right : BsonValue} {l r : UInt8 × List UInt8}
      (hleft : left.binaryParts = some l) (hright : right.binaryParts = some r) :
      SameFamily left right

variable {left right : BsonValue}

theorem sameFamily_of_typeRank_eq (h : left.typeRank = right.typeRank) : SameFamily left right := by
  rcases left with _ | _ | _ | _ | _ | _ | _ | _ | _ | _ | _ | ⟨_, _ | _⟩ | _ | _ | _ | _ | _ |
    _ <;>
  rcases right with
    _ | _ | _ | _ | _ | _ | _ | _ | _ | _ | _ | ⟨_, _ | _⟩ | _ | _ | _ | _ | _ | _ <;>
  first
    | exact absurd h (Nat.ne_of_beq_eq_false rfl)
    | exact .numbers rfl rfl
    | exact .binaries rfl rfl
    | constructor

theorem BsonValue.eq_of_typeRank_ne
    (h : left.typeRank ≠ right.typeRank) : left.eq right = false := by
  rcases left with _ | _ | _ | _ | _ | _ | _ | _ | _ | _ | _ | ⟨_, _ | _⟩ | _ | _ | _ | _ | _ |
    _ <;>
  rcases right with
    _ | _ | _ | _ | _ | _ | _ | _ | _ | _ | _ | ⟨_, _ | _⟩ | _ | _ | _ | _ | _ | _ <;>
  first
    | exact absurd rfl h
    | rfl

def BsonValue.IsScalar : BsonValue → Prop
  | .document _ => False
  | .array _ => False
  | .javaScript _ (some _) => False
  | _ => True

section Induction

variable {P : BsonValue → Prop}

/-- What an induction over values has to show. -/
structure InductionSteps (P : BsonValue → Prop) : Prop where
  scalar : ∀ value : BsonValue, value.IsScalar → P value
  document : ∀ entries, (∀ entry ∈ entries, P entry.2) → P (.document entries)
  array : ∀ values, (∀ value ∈ values, P value) → P (.array values)
  scope : ∀ code scope, (∀ entry ∈ scope, P entry.2) → P (.javaScript code (some scope))

namespace InductionSteps

mutual

theorem value (h : InductionSteps P) : ∀ value : BsonValue, P value
  | .document entries => h.document entries (h.entries entries)
  | .array values => h.array values (h.values values)
  | .javaScript code (some scope) => h.scope code scope (h.entries scope)
  | .javaScript _ none | .double _ | .string _ | .binary _ | .uuid _ | .objectId _ | .boolean _
  | .dateTime _ | .null | .regularExpression _ | .int32 _ | .timestamp _ | .int64 _ | .decimal128 _
  | .minKey | .maxKey => h.scalar _ trivial

theorem entries (h : InductionSteps P) :
    ∀ entries : List (String × BsonValue), ∀ entry ∈ entries, P entry.2
  | [] => nofun
  | (_, value) :: entries => forall_mem_cons.mpr ⟨h.value value, h.entries entries⟩

theorem values (h : InductionSteps P) : ∀ values : List BsonValue, ∀ value ∈ values, P value
  | [] => nofun
  | value :: values => forall_mem_cons.mpr ⟨h.value value, h.values values⟩

end

end InductionSteps

/-- Induction on a value with the members of its document, array or scope as
hypotheses. -/
theorem BsonValue.induct (hscalar : ∀ value : BsonValue, value.IsScalar → P value)
    (hdocument : ∀ entries, (∀ entry ∈ entries, P entry.2) → P (.document entries))
    (harray : ∀ values, (∀ value ∈ values, P value) → P (.array values))
    (hscope : ∀ code scope, (∀ entry ∈ scope, P entry.2) → P (.javaScript code (some scope)))
    (value : BsonValue) : P value :=
  InductionSteps.value ⟨hscalar, hdocument, harray, hscope⟩ value

end Induction

/-- Induction on the first of two values, by the families that are compared by payload. -/
theorem BsonValue.familyInduct {P : BsonValue → BsonValue → Prop}
    (hrank : ∀ {left right : BsonValue}, left.typeRank ≠ right.typeRank → P left right)
    (hscalar : ∀ {left right : BsonValue}, left.typeRank = right.typeRank →
      SameFamily left right → left.IsScalar → P left right)
    (hdocument : ∀ left right, (∀ entry ∈ left, ∀ value, P entry.2 value) →
      P (.document left) (.document right))
    (harray : ∀ left right, (∀ member ∈ left, ∀ value, P member value) →
      P (.array left) (.array right))
    (hscope : ∀ code code' left right, (∀ entry ∈ left, ∀ value, P entry.2 value) →
      P (.javaScript code (some left)) (.javaScript code' (some right)))
    (left right : BsonValue) : P left right := by
  induction left using induct generalizing right with
  | hscalar left hleft =>
    by_cases h : left.typeRank = right.typeRank
    · exact hscalar h (sameFamily_of_typeRank_eq h) hleft
    · exact hrank h
  | hdocument left ih =>
    by_cases h : (document left).typeRank = right.typeRank
    · cases sameFamily_of_typeRank_eq h with
      | documents _ right => exact hdocument left right ih
      | numbers hleft | binaries hleft => cases hleft
    · exact hrank h
  | harray left ih =>
    by_cases h : (array left).typeRank = right.typeRank
    · cases sameFamily_of_typeRank_eq h with
      | arrays _ right => exact harray left right ih
      | numbers hleft | binaries hleft => cases hleft
    · exact hrank h
  | hscope code left ih =>
    by_cases h : (javaScript code (some left)).typeRank = right.typeRank
    · cases sameFamily_of_typeRank_eq h with
      | scopedJavaScripts _ code' _ right => exact hscope code code' left right ih
      | numbers hleft | binaries hleft => cases hleft
    · exact hrank h

theorem documentEq_iff {left : List (String × BsonValue)} (ih : ∀ entry ∈ left, ∀ right : BsonValue,
      entry.2.eq right = true ↔ entry.2.identity = right.identity)
    (right : List (String × BsonValue)) :
    documentEq left right = true ↔ documentIdentity left = documentIdentity right := by
  induction left generalizing right with
  | nil => cases right <;> simp [documentEq, documentIdentity]
  | cons entry left ihLeft =>
    cases right with
    | nil => simp [documentEq, documentIdentity]
    | cons entry' right =>
      have hvalue := ih entry mem_cons_self entry'.2
      have htail := ihLeft (forall_mem_cons.mp ih).2 right
      simp [documentEq, documentIdentity, hvalue, htail, and_assoc]

theorem arrayEq_iff {left : List BsonValue} (ih : ∀ value ∈ left, ∀ right : BsonValue,
      value.eq right = true ↔ value.identity = right.identity) (right : List BsonValue) :
    arrayEq left right = true ↔ arrayIdentity left = arrayIdentity right := by
  induction left generalizing right with
  | nil => cases right <;> simp [arrayEq, arrayIdentity]
  | cons value left ihLeft =>
    cases right with
    | nil => simp [arrayEq, arrayIdentity]
    | cons value' right =>
      grind [arrayEq, arrayIdentity]

namespace BsonValue

theorem eq_iff_of_sameFamily (hfamily : SameFamily left right)
    (hscalar : left.IsScalar) : left.eq right = true ↔ left.identity = right.identity := by
  cases hfamily with
  | numbers hleft hright =>
    rw [identity_of_canonicalNumber hleft, identity_of_canonicalNumber hright]
    unfold eq
    simp [hleft, hright]
  | binaries hleft hright =>
    rw [identity_of_binaryParts hleft, identity_of_binaryParts hright]
    unfold eq
    simp [canonicalNumber_of_binaryParts hleft, hleft, hright]
  | documents | arrays | scopedJavaScripts => exact hscalar.elim
  | _ => simp [eq, identity, canonicalNumber, binaryParts]

theorem eq_iff_of_typeRank_ne (h : left.typeRank ≠ right.typeRank) :
    left.eq right = true ↔ left.identity = right.identity := by
  rw [eq_of_typeRank_ne h]
  grind [identity_rank]

/-- Two values are equal exactly when they have the same identity. -/
theorem eq_iff_identity (left right : BsonValue) :
    left.eq right = true ↔ left.identity = right.identity := by
  refine familyInduct eq_iff_of_typeRank_ne (fun _ => eq_iff_of_sameFamily) ?_ ?_ ?_ left right
  · intro l r ih
    simp [eq, identity, canonicalNumber, binaryParts, documentEq_iff ih r]
  · intro l r ih
    simp [eq, identity, canonicalNumber, binaryParts, arrayEq_iff ih r]
  · intro c d l r ih
    simp [eq, identity, canonicalNumber, binaryParts, documentEq_iff ih r]

end BsonValue

mutual

def Identity.hash : Identity → List HashWrite
  | .minKey => [.u8 0]
  | .null => [.u8 1]
  | .number value => .u8 2 :: value.hash
  | .string value => .u8 3 :: hashStr value
  | .document entries => .u8 4 :: .usize entries.length :: Identity.entriesHash entries
  | .array values => .u8 5 :: .usize values.length :: Identity.arrayHash values
  | .binary subtype bytes => [.u8 6, .u8 subtype] ++ hashSlice bytes
  | .objectId value => .u8 7 :: hashSlice value.bytes
  | .boolean value => .u8 8 :: hashBool value
  | .dateTime value => [.u8 9, .i64 value.timestampMillis]
  | .timestamp value => [.u8 10, .u32 value.time, .u32 value.increment]
  | .regularExpression value => .u8 11 :: (hashStr value.pattern ++ hashStr value.options)
  | .javaScript code => .u8 12 :: (hashStr code ++ [.isize 0])
  | .javaScriptWithScope code scope =>
    .u8 13 :: (hashStr code ++ [.isize 1, .usize scope.length] ++ Identity.entriesHash scope)
  | .maxKey => [.u8 14]

def Identity.entriesHash : List (String × Identity) → List HashWrite
  | [] => []
  | (name, value) :: entries => hashStr name ++ value.hash ++ Identity.entriesHash entries

def Identity.arrayHash : List Identity → List HashWrite
  | [] => []
  | value :: values => value.hash ++ Identity.arrayHash values

end

theorem entriesHash_eq {entries : List (String × BsonValue)}
    (ih : ∀ entry ∈ entries, entry.2.hash = entry.2.identity.hash) :
    entriesHash entries = Identity.entriesHash (documentIdentity entries) := by
  induction entries with
  | nil => rfl
  | cons entry entries ihEntries =>
    rw [entriesHash, documentIdentity, Identity.entriesHash, ih entry mem_cons_self,
      ihEntries (forall_mem_cons.mp ih).2]

theorem arrayHash_eq {values : List BsonValue}
    (ih : ∀ value ∈ values, value.hash = value.identity.hash) :
    arrayHash values = Identity.arrayHash (arrayIdentity values) := by
  induction values with
  | nil => rfl
  | cons value values ihValues =>
    rw [arrayHash, arrayIdentity, Identity.arrayHash, ih value mem_cons_self,
      ihValues (forall_mem_cons.mp ih).2]

theorem BsonValue.hash_eq_identity (value : BsonValue) : value.hash = value.identity.hash := by
  induction value using induct with
  | hscalar value hvalue =>
    rcases value with
      _ | _ | _ | _ | _ | _ | _ | _ | _ | _ | _ | ⟨_, _ | _⟩ | _ | _ | _ | _ | _ | _ <;>
    first
      | exact hvalue.elim
      | rfl
  | hdocument _ ih | hscope _ _ ih =>
    simp [hash, identity, Identity.hash, canonicalNumber, binaryParts,
      typeRank, entriesHash_eq ih, documentIdentity_eq_map]
  | harray values ih =>
    simp [hash, identity, Identity.hash, canonicalNumber, binaryParts,
      typeRank, arrayHash_eq ih, arrayIdentity_eq_map]

end BriskDB.Document
