import BriskDB.Core.Error
import BriskDB.Lib.Bytes
import BriskDB.Lib.Float64
import BriskDB.Lib.Result
import BriskDB.Lib.Utf8

/-! # Canonical global-index keys

The versioned, protocol-neutral encoding of compound index keys. A key is a
fixed header followed by its components; every component carries its own
ordering options, a NULL rank, and for values a type tag and a payload whose
bytes are complemented when the component sorts in descending order.
-/

namespace BriskDB.IndexKey

open Result Bytes

def indexKeyEncodingVersion : UInt32 := 1

def magic : List UInt8 := [0x42, 0x49, 0x44, 0x58]

def headerLen : Nat := magic.length + 4

def optionsBase : UInt8 := 0x10
def optionsDescending : UInt8 := 0x01
def optionsNullsLast : UInt8 := 0x02
def collationBinary : UInt8 := 0x01

def tagBoolean : UInt8 := 0x10
def tagInt64 : UInt8 := 0x20
def tagUInt64 : UInt8 := 0x21
def tagFloat64 : UInt8 := 0x30
def tagDate : UInt8 := 0x40
def tagTimestamp : UInt8 := 0x41
def tagText : UInt8 := 0x50
def tagBinary : UInt8 := 0x51

def variableEscape : UInt8 := 0xff
def variableTerminator : UInt8 := 0x00
def canonicalNanBits : UInt64 := 0x7ff8000000000000

inductive IndexKeyOrder
  | ascending
  | descending
  deriving DecidableEq, Repr

inductive IndexNullOrder
  | first
  | last
  deriving DecidableEq, Repr

inductive IndexKeyCollation
  | binary
  deriving DecidableEq, Repr

/-- A value offered to the encoder. -/
inductive IndexKeyValueRef
  | null
  | boolean (value : Bool)
  | int64 (value : Int64)
  | uint64 (value : UInt64)
  | float64 (value : F64)
  | decimal (value : String)
  | text (value : String)
  | invalidText (value : List UInt8)
  | binary (value : List UInt8)
  | date (value : Int32)
  | timestamp (value : Int64)
  deriving DecidableEq

def IndexKeyValueRef.isNull : IndexKeyValueRef → Bool
  | .null => true
  | _ => false

structure IndexKeyPart where
  value : IndexKeyValueRef
  order : IndexKeyOrder
  nullOrder : IndexNullOrder
  collation : IndexKeyCollation
  deriving DecidableEq

def IndexKeyPart.ascending (value : IndexKeyValueRef) : IndexKeyPart :=
  ⟨value, .ascending, .first, .binary⟩

def IndexKeyPart.descending (value : IndexKeyValueRef) : IndexKeyPart :=
  ⟨value, .descending, .last, .binary⟩

inductive IndexKeyValue
  | null
  | boolean (value : Bool)
  | int64 (value : Int64)
  | uint64 (value : UInt64)
  | float64 (value : F64)
  | text (value : String)
  | binary (value : List UInt8)
  | date (value : Int32)
  | timestamp (value : Int64)
  deriving DecidableEq

def IndexKeyValue.asRef : IndexKeyValue → IndexKeyValueRef
  | .null => .null
  | .boolean value => .boolean value
  | .int64 value => .int64 value
  | .uint64 value => .uint64 value
  | .float64 value => .float64 value
  | .text value => .text value
  | .binary value => .binary value
  | .date value => .date value
  | .timestamp value => .timestamp value

structure DecodedIndexKeyPart where
  value : IndexKeyValue
  order : IndexKeyOrder
  nullOrder : IndexNullOrder
  collation : IndexKeyCollation
  deriving DecidableEq

def DecodedIndexKeyPart.asRef (part : DecodedIndexKeyPart) : IndexKeyPart :=
  ⟨part.value.asRef, part.order, part.nullOrder, part.collation⟩

def corrupt (diagnostic : String) : EngineError :=
  .new .dataCorruption diagnostic

def orderedByte (byte : UInt8) : IndexKeyOrder → UInt8
  | .ascending => byte
  | .descending => ~~~byte

def nullRank : IndexNullOrder → Bool → UInt8
  | .first, true => 0
  | .last, false => 0
  | .first, false => 1
  | .last, true => 1

def pushFixed (bytes : List UInt8) (order : IndexKeyOrder) : List UInt8 :=
  bytes.map (orderedByte · order)

/-- The bytes appended for a payload of variable width, escaped and closed by two terminators. -/
def pushVariable (bytes : List UInt8) (order : IndexKeyOrder) : List UInt8 :=
  bytes.flatMap (fun byte =>
    if byte = variableTerminator then
      [orderedByte byte order, orderedByte variableEscape order]
    else [orderedByte byte order]) ++
  [orderedByte variableTerminator order, orderedByte variableTerminator order]

def orderedFloatBits (value : F64) : UInt64 :=
  let bits :=
    if value.isNan then canonicalNanBits
    else if value.isZero then 0
    else value.toBits
  if bits &&& ((1 : UInt64) <<< 63) = 0 then bits ^^^ ((1 : UInt64) <<< 63) else ~~~bits

def floatFromOrderedBits (ordered : UInt64) : F64 :=
  F64.fromBits (if ordered &&& ((1 : UInt64) <<< 63) = 0 then ~~~ordered else ordered ^^^
    ((1 : UInt64) <<< 63))

def optionsByte (order : IndexKeyOrder) (nullOrder : IndexNullOrder) : UInt8 :=
  optionsBase |||
    (match order with
      | .ascending => 0
      | .descending => optionsDescending) |||
    (match nullOrder with
      | .first => 0
      | .last => optionsNullsLast)

def encodePayload (value : IndexKeyValueRef) (order : IndexKeyOrder) : EngineResult (List UInt8) :=
  match value with
  | .null => .ok []
  | .boolean value => .ok [orderedByte tagBoolean order, orderedByte (if value then 1 else 0) order]
  | .int64 value =>
    .ok (orderedByte tagInt64 order ::
      pushFixed (ofBe 8 (value.toUInt64 ^^^ ((1 : UInt64) <<< 63)).toNat) order)
  | .uint64 value => .ok (orderedByte tagUInt64 order :: pushFixed (ofBe 8 value.toNat) order)
  | .float64 value =>
    .ok (orderedByte tagFloat64 order ::
      pushFixed (ofBe 8 (orderedFloatBits value).toNat) order)
  | .decimal _ =>
    .error (.new .unsupported
      "decimal global-index keys are not supported by encoding version 1")
  | .text value => .ok (orderedByte tagText order :: pushVariable (Utf8.bytes value) order)
  | .invalidText _ =>
    .error (.new .invalidTextEncoding "global-index text keys must contain valid UTF-8")
  | .binary value => .ok (orderedByte tagBinary order :: pushVariable value order)
  | .date value =>
    .ok (orderedByte tagDate order ::
      pushFixed (ofBe 4 (value.toUInt32 ^^^ (1 : UInt32) <<< 31).toNat) order)
  | .timestamp value =>
    .ok (orderedByte tagTimestamp order ::
      pushFixed (ofBe 8 (value.toUInt64 ^^^ ((1 : UInt64) <<< 63)).toNat) order)

def encodePart (part : IndexKeyPart) : EngineResult (List UInt8) := do
  let payload ← encodePayload part.value part.order
  return optionsByte part.order part.nullOrder ::
    (match part.collation with | .binary => collationBinary) ::
    nullRank part.nullOrder part.value.isNull :: payload

def encodeComponents : List IndexKeyPart → EngineResult (List UInt8)
  | [] => return []
  | part :: parts => do
    let head ← encodePart part
    let tail ← encodeComponents parts
    return head ++ tail

def header : List UInt8 := magic ++ ofBe 4 indexKeyEncodingVersion.toNat

@[ext] structure CanonicalIndexKey where
  bytes : List UInt8
  componentCount : Nat
  encoded : ∃ parts : List IndexKeyPart, parts ≠ [] ∧ parts.length = componentCount ∧
    encodeComponents parts = .ok (bytes.drop headerLen) ∧ bytes.take headerLen = header

theorem header_length : header.length = headerLen := by
  simp [header, headerLen]

def CanonicalIndexKey.encode (parts : List IndexKeyPart) : EngineResult CanonicalIndexKey :=
  if hempty : parts = [] then
    .error (.new .invalidArgument "a global-index key must contain at least one component")
  else
    match hparts : encodeComponents parts with
    | .error error => .error error
    | .ok components => .ok
        { bytes := header ++ components
          componentCount := parts.length
          encoded := ⟨parts, hempty, rfl, by
            rw [← header_length, List.drop_left]; exact hparts, by
            rw [← header_length, List.take_left]⟩ }

def next (field : String) : List UInt8 → EngineResult (UInt8 × List UInt8)
  | [] => .error (corrupt s!"global-index key has a truncated {field}")
  | byte :: cursor => .ok (byte, cursor)

def nextOrdered (order : IndexKeyOrder) (field : String) (cursor : List UInt8) :
    EngineResult (UInt8 × List UInt8) := do
  let (byte, cursor) ← next field cursor
  return (orderedByte byte order, cursor)

def fixedOrdered (width : Nat) (order : IndexKeyOrder) (field : String) (cursor : List UInt8) :
    EngineResult (Nat × List UInt8) :=
  if width ≤ cursor.length then
    .ok (toBe ((cursor.take width).map (orderedByte · order)), cursor.drop width)
  else .error (corrupt s!"global-index key has a truncated {field}")

def variableOrdered (order : IndexKeyOrder) : List UInt8 → EngineResult (List UInt8 × List UInt8)
  | [] => .error (corrupt "global-index key has a truncated variable-length payload")
  | byte :: cursor =>
    if orderedByte byte order ≠ variableTerminator then do
      let (output, cursor) ← variableOrdered order cursor
      return (orderedByte byte order :: output, cursor)
    else
      match cursor with
      | [] => .error (corrupt "global-index key has a truncated variable-length escape")
      | mark :: cursor =>
        if orderedByte mark order = variableTerminator then .ok ([], cursor)
        else if orderedByte mark order = variableEscape then do
          let (output, cursor) ← variableOrdered order cursor
          return (variableTerminator :: output, cursor)
        else .error (corrupt "global-index key has an invalid variable-length escape")

/-- Read the payload that follows a type tag. -/
def decodeValue (tag : UInt8) (order : IndexKeyOrder) (cursor : List UInt8) :
    EngineResult (IndexKeyValue × List UInt8) :=
  if tag = tagBoolean then do
    let (byte, cursor) ← nextOrdered order "boolean payload" cursor
    if byte = 0 then return (.boolean false, cursor)
    else if byte = 1 then return (.boolean true, cursor)
    else .error (corrupt "global-index key has an invalid boolean payload")
  else if tag = tagInt64 then do
    let (encoded, cursor) ← fixedOrdered 8 order "int64 payload" cursor
    return (.int64 (UInt64.ofNat encoded ^^^ ((1 : UInt64) <<< 63)).toInt64, cursor)
  else if tag = tagUInt64 then do
    let (encoded, cursor) ← fixedOrdered 8 order "uint64 payload" cursor
    return (.uint64 (UInt64.ofNat encoded), cursor)
  else if tag = tagFloat64 then do
    let (encoded, cursor) ← fixedOrdered 8 order "float64 payload" cursor
    return (.float64 (floatFromOrderedBits (UInt64.ofNat encoded)), cursor)
  else if tag = tagDate then do
    let (encoded, cursor) ← fixedOrdered 4 order "date payload" cursor
    return (.date (UInt32.ofNat encoded ^^^ (1 : UInt32) <<< 31).toInt32, cursor)
  else if tag = tagTimestamp then do
    let (encoded, cursor) ← fixedOrdered 8 order "timestamp payload" cursor
    return (.timestamp (UInt64.ofNat encoded ^^^ ((1 : UInt64) <<< 63)).toInt64, cursor)
  else if tag = tagText then do
    let (bytes, cursor) ← variableOrdered order cursor
    match Utf8.decode bytes with
    | some text => return (.text text, cursor)
    | none => .error (corrupt "global-index text payload is not valid UTF-8")
  else if tag = tagBinary then do
    let (bytes, cursor) ← variableOrdered order cursor
    return (.binary bytes, cursor)
  else .error (corrupt "global-index key has an unknown component type")

def orderOfOptions (options : UInt8) : IndexKeyOrder :=
  if options &&& optionsDescending = 0 then .ascending else .descending

def nullOrderOfOptions (options : UInt8) : IndexNullOrder :=
  if options &&& optionsNullsLast = 0 then .first else .last

def decodePart (cursor : List UInt8) : EngineResult (DecodedIndexKeyPart × List UInt8) := do
  let (options, cursor) ← next "component options" cursor
  if ¬(optionsBase ≤ options ∧
      options ≤ optionsBase ||| optionsDescending ||| optionsNullsLast) then
    .error (corrupt "global-index key has unsupported component options")
  else do
    let order := orderOfOptions options
    let nullOrder := nullOrderOfOptions options
    let (collation, cursor) ← next "component collation" cursor
    if collation ≠ collationBinary then
      .error (corrupt "global-index key has unsupported collation metadata")
    else do
      let (rank, cursor) ← next "component NULL rank" cursor
      if rank = nullRank nullOrder true then
        return (⟨.null, order, nullOrder, .binary⟩, cursor)
      else if rank ≠ nullRank nullOrder false then
        .error (corrupt "global-index key has an invalid NULL rank")
      else do
        let (tag, cursor) ← nextOrdered order "component type tag" cursor
        let (value, cursor) ← decodeValue tag order cursor
        return (⟨value, order, nullOrder, .binary⟩, cursor)

variable {field : String} {cursor rest : List UInt8} {byte : UInt8} {order : IndexKeyOrder}

theorem next_ok (h : next field cursor = .ok (byte, rest)) : cursor = byte :: rest := by
  cases cursor with
  | nil => cases h
  | cons => cases h; rfl

theorem nextOrdered_length (h : nextOrdered order field cursor = .ok (byte, rest)) :
    rest.length ≤ cursor.length := by
  obtain ⟨⟨raw, after⟩, hnext, h⟩ := bind_eq_ok.mp h
  cases h
  rw [next_ok hnext]
  exact Nat.le_succ _

theorem fixedOrdered_length {width encoded : Nat}
    (h : fixedOrdered width order field cursor = .ok (encoded, rest)) :
    rest.length ≤ cursor.length := by
  grind [fixedOrdered]

theorem variableOrdered_length {output : List UInt8}
    (h : variableOrdered order cursor = .ok (output, rest)) : rest.length ≤ cursor.length := by
  fun_induction variableOrdered order cursor generalizing output with
  | case1 | case3 | case6 => cases h
  | case2 byte cursor _ ih =>
    obtain ⟨⟨inner, after⟩, hinner, h⟩ := bind_eq_ok.mp h
    cases h
    exact Nat.le_succ_of_le (ih hinner)
  | case4 =>
    grind
  | case5 byte hbyte mark cursor _ _ ih =>
    obtain ⟨⟨inner, after⟩, hinner, h⟩ := bind_eq_ok.mp h
    cases h
    exact Nat.le_succ_of_le (Nat.le_succ_of_le (ih hinner))

theorem decodeValue_length {tag : UInt8}
    {value : IndexKeyValue} (h : decodeValue tag order cursor = .ok (value, rest)) :
    rest.length ≤ cursor.length := by
  unfold decodeValue at h
  repeat' split at h
  all_goals first
    | cases h
    | obtain ⟨⟨payload, after⟩, hpayload, h⟩ := bind_eq_ok.mp h
      dsimp only at h
  · have hle := nextOrdered_length hpayload
    split at h
    · cases h; exact hle
    · split at h
      · cases h; exact hle
      · cases h
  · cases h; exact fixedOrdered_length hpayload
  · cases h; exact fixedOrdered_length hpayload
  · cases h; exact fixedOrdered_length hpayload
  · cases h; exact fixedOrdered_length hpayload
  · cases h; exact fixedOrdered_length hpayload
  · have hle := variableOrdered_length hpayload
    split at h
    · cases h; exact hle
    · cases h
  · cases h; exact variableOrdered_length hpayload

theorem decodePart_length_lt {part : DecodedIndexKeyPart}
    (h : decodePart cursor = .ok (part, rest)) : rest.length < cursor.length := by
  obtain ⟨⟨options, afterOptions⟩, hoptions, h⟩ := bind_eq_ok.mp h
  rw [next_ok hoptions]
  dsimp only at h
  split at h
  · cases h
  · obtain ⟨⟨collation, afterCollation⟩, hcollation, h⟩ := bind_eq_ok.mp h
    rw [next_ok hcollation]
    dsimp only at h
    split at h
    · cases h
    · obtain ⟨⟨rank, afterRank⟩, hrank, h⟩ := bind_eq_ok.mp h
      rw [next_ok hrank]
      dsimp only at h
      simp only [List.length_cons]
      split at h
      · cases h
        omega
      · split at h
        · cases h
        · obtain ⟨⟨tag, afterTag⟩, htag, h⟩ := bind_eq_ok.mp h
          obtain ⟨⟨value, afterValue⟩, hvalue, h⟩ := bind_eq_ok.mp h
          cases h
          have hafterTag := nextOrdered_length htag
          have hafterValue := decodeValue_length hvalue
          grind

def decodeComponents (cursor : List UInt8) : EngineResult (List DecodedIndexKeyPart) :=
  if cursor = [] then .ok []
  else
    match _hpart : decodePart cursor with
    | .error error => .error error
    | .ok (part, rest) => do
      let parts ← decodeComponents rest
      return part :: parts
termination_by cursor.length
decreasing_by exact decodePart_length_lt _hpart

variable (bytes : List UInt8)

def decodeHeader : EngineResult UInt32 :=
  if bytes.length < headerLen ∨ bytes.take magic.length ≠ magic then
    .error (corrupt "global-index key has an invalid header")
  else .ok (UInt32.ofNat (toBe ((bytes.take headerLen).drop magic.length)))

def decodeParts : EngineResult (List DecodedIndexKeyPart) := do
  let version ← decodeHeader bytes
  if version ≠ indexKeyEncodingVersion then
    .error (.new .unsupported
      s!"unsupported global-index key encoding version {version.toNat}")
  else do
    let parts ← decodeComponents (bytes.drop headerLen)
    if parts = [] then .error (corrupt "global-index key has no components")
    else return parts

def CanonicalIndexKey.fromBytes : EngineResult CanonicalIndexKey := do
  let parts ← decodeParts bytes
  let canonical ← CanonicalIndexKey.encode (parts.map DecodedIndexKeyPart.asRef)
  if canonical.bytes ≠ bytes then
    .error (corrupt "global-index key uses a noncanonical representation")
  else return canonical

def CanonicalIndexKey.decode (key : CanonicalIndexKey) : EngineResult (List DecodedIndexKeyPart) :=
  decodeParts key.bytes

end BriskDB.IndexKey
