import BriskDB.Lib.Bytes
import BriskDB.Lib.Result
import BriskDB.Lib.Utf8

/-!
# The BSON wire format

One level of a BSON document, after the format's specification: a document is its
length, its elements and a closing zero, and an element is a type byte, a name and a
payload whose extent the type determines. Nested documents and arrays stay bytes until
they are read themselves.
-/

namespace BsonWire

open Result Bytes List

inductive RawError
  | endOfStream
  | utf8Encoding
  | malformedBytes
  deriving DecidableEq, Repr

inductive RawBson
  | double (bits : UInt64)
  | string (value : String)
  | document (raw : List UInt8)
  | array (raw : List UInt8)
  | binary (subtype : UInt8) (bytes : List UInt8)
  | undefined
  | objectId (bytes : {bytes : List UInt8 // bytes.length = 12})
  | boolean (value : Bool)
  | dateTime (millis : Int64)
  | null
  | regularExpression (pattern options : String)
  | dbPointer (collection : String) (id : List UInt8)
  | javaScriptCode (code : String)
  | symbol (value : String)
  | javaScriptCodeWithScope (code : String) (scope : List UInt8)
  | int32 (value : Int32)
  | timestamp (time increment : UInt32)
  | int64 (value : Int64)
  | decimal128 (bytes : {bytes : List UInt8 // bytes.length = 16})
  | minKey
  | maxKey
  deriving DecidableEq

def frame (body : List UInt8) : List UInt8 := ofLe 4 (body.length + 5) ++ (body ++ [0])

def cstring (text : String) : List UInt8 := Utf8.bytes text ++ [0]

def text (value : String) : List UInt8 :=
  ofLe 4 ((Utf8.bytes value).length + 1) ++ (Utf8.bytes value ++ [0])

namespace RawBson

def kind : RawBson → UInt8
  | double _ => 0x01
  | string _ => 0x02
  | document _ => 0x03
  | array _ => 0x04
  | binary _ _ => 0x05
  | undefined => 0x06
  | objectId _ => 0x07
  | boolean _ => 0x08
  | dateTime _ => 0x09
  | null => 0x0A
  | regularExpression _ _ => 0x0B
  | dbPointer _ _ => 0x0C
  | javaScriptCode _ => 0x0D
  | symbol _ => 0x0E
  | javaScriptCodeWithScope _ _ => 0x0F
  | int32 _ => 0x10
  | timestamp _ _ => 0x11
  | int64 _ => 0x12
  | decimal128 _ => 0x13
  | minKey => 0xFF
  | maxKey => 0x7F

/-- The old binary subtype repeats its length inside the payload. -/
def payload : RawBson → List UInt8
  | double bits => ofLe 8 bits.toNat
  | string value => text value
  | document raw => raw
  | array raw => raw
  | binary subtype bytes =>
    if subtype = 2 then
      ofLe 4 (bytes.length + 4) ++ (subtype :: (ofLe 4 bytes.length ++ bytes))
    else ofLe 4 bytes.length ++ (subtype :: bytes)
  | undefined => []
  | objectId bytes => bytes.val
  | boolean value => [if value then 1 else 0]
  | dateTime millis => ofLe 8 millis.toUInt64.toNat
  | null => []
  | regularExpression pattern options => cstring pattern ++ cstring options
  | dbPointer collection id => text collection ++ id
  | javaScriptCode code => text code
  | symbol value => text value
  | javaScriptCodeWithScope code scope =>
    ofLe 4 (4 + (text code).length + scope.length) ++ (text code ++ scope)
  | int32 value => ofLe 4 value.toUInt32.toNat
  | timestamp time increment => ofLe 4 increment.toNat ++ ofLe 4 time.toNat
  | int64 value => ofLe 8 value.toUInt64.toNat
  | decimal128 bytes => bytes.val
  | minKey => []
  | maxKey => []

end RawBson

def element (key : String) (value : RawBson) : List UInt8 :=
  value.kind :: (cstring key ++ value.payload)

/-- An array is a document whose names count its elements. -/
structure RawArrayBuf where
  raw : List UInt8
  len : Nat

/-- An element is found by its name; its value is read on demand. -/
structure RawElement where
  key : String
  value : Except RawError RawBson

/-- Values whose lengths fit, whose names hold no zero and whose parts have fixed sizes. -/
def RawBson.Writable : RawBson → Prop
  | string value => (Utf8.bytes value).length + 1 < 2 ^ 31
  | document raw => ∃ elements, raw = frame elements ∧ elements.length + 5 < 2 ^ 31
  | array raw => ∃ elements, raw = frame elements ∧ elements.length + 5 < 2 ^ 31
  | binary _ bytes => bytes.length + 4 < 2 ^ 31
  | regularExpression pattern options =>
    (Utf8.bytes pattern).contains 0 = false ∧ (Utf8.bytes options).contains 0 = false
  | dbPointer collection id => (Utf8.bytes collection).length + 1 < 2 ^ 31 ∧ id.length = 12
  | javaScriptCode code => (Utf8.bytes code).length + 1 < 2 ^ 31
  | symbol value => (Utf8.bytes value).length + 1 < 2 ^ 31
  | javaScriptCodeWithScope code scope =>
    4 + (text code).length + scope.length < 2 ^ 31 ∧
      ∃ elements, scope = frame elements ∧ elements.length + 5 < 2 ^ 31
  | _ => True

/-- The elements of a document, as its readers see them. -/
def written (elements : List (String × RawBson)) : List (Except RawError RawElement) :=
  elements.map fun element => .ok ⟨element.1, .ok element.2⟩

/-- A library that writes what the specification says and reads it back. -/
class Crate where
  new : List UInt8
  append : List UInt8 → String → RawBson → List UInt8
  push : RawArrayBuf → RawBson → RawArrayBuf
  fromBytes : List UInt8 → Except RawError (List UInt8)
  iterElements : List UInt8 → List (Except RawError RawElement)
  new_eq : new = frame []
  append_frame : ∀ elements key value,
    append (frame elements) key value = frame (elements ++ element key value)
  push_frame : ∀ elements len value, push ⟨frame elements, len⟩ value =
    ⟨frame (elements ++ element (toString len) value), len + 1⟩
  fromBytes_frame : ∀ {elements}, elements.length + 5 < 2 ^ 31 →
    fromBytes (frame elements) = .ok (frame elements)
  iterElements_frame : ∀ {elements : List (String × RawBson)},
    (∀ entry ∈ elements, (Utf8.bytes entry.1).contains 0 = false ∧ entry.2.Writable) →
    iterElements (frame (elements.flatMap fun entry => element entry.1 entry.2)) =
      written elements

def body (raw : List UInt8) : List UInt8 := (raw.drop 4).dropLast

def append (raw : List UInt8) (key : String) (value : RawBson) : List UInt8 :=
  frame (body raw ++ element key value)

variable (bytes : List UInt8)

/-- A nonnegative 32-bit length. -/
def readLength : Except RawError (Nat × List UInt8) :=
  if bytes.length < 4 then .error .endOfStream
  else if 2 ^ 31 ≤ toLe (bytes.take 4) then .error .malformedBytes
  else .ok (toLe (bytes.take 4), bytes.drop 4)

def readCString : Except RawError (List UInt8 × List UInt8) :=
  match bytes.dropWhile (· != 0) with
  | [] => .error .endOfStream
  | _ :: rest => .ok (bytes.takeWhile (· != 0), rest)

def utf8 : Except RawError String :=
  match Utf8.decode bytes with
  | some text => .ok text
  | none => .error .utf8Encoding

def fromBytes (raw : List UInt8) : Except RawError (List UInt8) :=
  if raw.length < 5 then .error .endOfStream
  else if toLe (raw.take 4) ≠ raw.length ∨ raw.getLast? ≠ some 0 then
    .error .malformedBytes
  else .ok raw

def payloadLength (kind : UInt8) (bytes : List UInt8) : Except RawError Nat :=
  match kind.toNat with
  | 0x01 | 0x09 | 0x11 | 0x12 => .ok 8
  | 0x02 | 0x0D | 0x0E => do
    let (length, _) ← readLength bytes
    .ok (4 + length)
  | 0x03 | 0x04 | 0x0F => do
    let (length, _) ← readLength bytes
    .ok length
  | 0x05 => do
    let (length, _) ← readLength bytes
    .ok (4 + 1 + length)
  | 0x06 | 0x0A | 0xFF | 0x7F => .ok 0
  | 0x07 => .ok 12
  | 0x08 => .ok 1
  | 0x0B => do
    let (pattern, rest) ← readCString bytes
    let (options, _) ← readCString rest
    .ok (pattern.length + 1 + (options.length + 1))
  | 0x0C => do
    let (length, _) ← readLength bytes
    .ok (4 + length + 12)
  | 0x10 => .ok 4
  | 0x13 => .ok 16
  | _ => .error .malformedBytes

variable (payload : List UInt8)

def readText : Except RawError String := do
  let (length, rest) ← readLength payload
  if length = 0 ∨ rest.length ≠ length ∨ rest.getLast? ≠ some 0 then .error .malformedBytes
  else utf8 rest.dropLast

def readBinary : Except RawError RawBson := do
  let (length, rest) ← readLength payload
  match rest with
  | [] => .error .endOfStream
  | subtype :: bytes =>
    if bytes.length ≠ length then .error .malformedBytes
    else if subtype = 2 then do
      let (inner, bytes) ← readLength bytes
      if bytes.length ≠ inner then .error .malformedBytes else .ok (.binary subtype bytes)
    else .ok (.binary subtype bytes)

def readRegularExpression : Except RawError RawBson := do
  let (pattern, rest) ← readCString payload
  let (options, _) ← readCString rest
  let pattern ← utf8 pattern
  let options ← utf8 options
  .ok (.regularExpression pattern options)

def readCodeWithScope : Except RawError RawBson := do
  let (length, rest) ← readLength (payload.drop 4)
  if rest.length < length then .error .endOfStream
  else do
    let code ← readText ((payload.drop 4).take (4 + length))
    let scope ← fromBytes ((payload.drop 4).drop (4 + length))
    .ok (.javaScriptCodeWithScope code scope)

/-- The value of an element of this type, from its whole payload. -/
def readValue (kind : UInt8) : Except RawError RawBson :=
  match kind.toNat with
  | 0x01 => .ok (.double (UInt64.ofNat (toLe payload)))
  | 0x02 => do .ok (.string (← readText payload))
  | 0x03 => do .ok (.document (← fromBytes payload))
  | 0x04 => do .ok (.array (← fromBytes payload))
  | 0x05 => readBinary payload
  | 0x06 => .ok .undefined
  | 0x07 =>
    if hlength : payload.length = 12 then .ok (.objectId ⟨payload, hlength⟩)
    else .error .malformedBytes
  | 0x08 =>
    match payload with
    | [0] => .ok (.boolean false)
    | [1] => .ok (.boolean true)
    | _ => .error .malformedBytes
  | 0x09 => .ok (.dateTime (UInt64.ofNat (toLe payload)).toInt64)
  | 0x0A => .ok .null
  | 0x0B => readRegularExpression payload
  | 0x0C => do
    let (length, _) ← readLength payload
    let collection ← readText (payload.take (4 + length))
    .ok (.dbPointer collection (payload.drop (4 + length)))
  | 0x0D => do .ok (.javaScriptCode (← readText payload))
  | 0x0E => do .ok (.symbol (← readText payload))
  | 0x0F => readCodeWithScope payload
  | 0x10 => .ok (.int32 (UInt32.ofNat (toLe payload)).toInt32)
  | 0x11 => .ok (.timestamp (UInt32.ofNat (toLe (payload.drop 4)))
      (UInt32.ofNat (toLe (payload.take 4))))
  | 0x12 => .ok (.int64 (UInt64.ofNat (toLe payload)).toInt64)
  | 0x13 =>
    if hlength : payload.length = 16 then .ok (.decimal128 ⟨payload, hlength⟩)
    else .error .malformedBytes
  | 0xFF => .ok .minKey
  | 0x7F => .ok .maxKey
  | _ => .error .malformedBytes

def readElement : Except RawError (RawElement × List UInt8) :=
  match bytes with
  | [] => .error .endOfStream
  | kind :: bytes => do
    let (key, rest) ← readCString bytes
    let key ← utf8 key
    let length ← payloadLength kind rest
    if rest.length < length then .error .endOfStream
    else .ok (⟨key, readValue (rest.take length) kind⟩, rest.drop length)

/-- The elements of a body up to the first error. -/
def readElements : Nat → List UInt8 → List (Except RawError RawElement)
  | 0, _ => []
  | _ + 1, [] => []
  | fuel + 1, bytes =>
    match readElement bytes with
    | .error error => [.error error]
    | .ok (element, rest) => .ok element :: readElements fuel rest

def iterElements (raw : List UInt8) : List (Except RawError RawElement) :=
  readElements (body raw).length (body raw)

@[simp] theorem frame_length (elements : List UInt8) :
    (frame elements).length = elements.length + 5 := by
  simp [frame]
  omega

theorem body_frame (elements : List UInt8) : body (frame elements) = elements := by
  rw [body, frame, drop_left' (ofLe_length 4 _), dropLast_concat]

@[simp] theorem text_length (value : String) :
    (text value).length = (Utf8.bytes value).length + 5 := by
  simp [text]
  omega

theorem readLength_ofLe {n : Nat} (hn : n < 2 ^ 31) (rest : List UInt8) :
    readLength (ofLe 4 n ++ rest) = .ok (n, rest) := by
  have hvalue : toLe ((ofLe 4 n ++ rest).take 4) = n := by
    rw [take_left' (ofLe_length 4 n), toLe_ofLe_of_lt (by omega)]
  unfold readLength
  rw [if_neg (by simp), hvalue, if_neg (by omega), drop_left' (ofLe_length 4 n)]

variable {bytes elements : List UInt8} {value key : String}

theorem readCString_append (h : bytes.contains 0 = false)
    (rest : List UInt8) : readCString (bytes ++ (0 :: rest)) = .ok (bytes, rest) := by
  have hall : ∀ byte ∈ bytes, (byte != 0) = true := by
    intro byte hbyte
    rw [bne_iff_ne]
    rintro rfl
    rw [contains_iff_mem.mpr hbyte] at h
    cases h
  unfold readCString
  rw [dropWhile_append_of_pos hall, takeWhile_append_of_pos hall]
  simp

theorem readCString_cstring (h : (Utf8.bytes value).contains 0 = false)
    (rest : List UInt8) : readCString (cstring value ++ rest) = .ok (Utf8.bytes value, rest) := by
  rw [cstring, append_assoc]
  exact readCString_append h rest

@[simp] theorem utf8_bytes (value : String) : utf8 (Utf8.bytes value) = .ok value := by
  rw [utf8, Utf8.decode_bytes]

theorem fromBytes_frame (h : elements.length + 5 < 2 ^ 31) :
    fromBytes (frame elements) = .ok (frame elements) := by
  have hlength : toLe ((frame elements).take 4) = (frame elements).length := by
    rw [frame_length, frame, take_left' (ofLe_length 4 _),
      toLe_ofLe_of_lt (by omega)]
  have hlast : (frame elements).getLast? = some 0 := by
    rw [frame, ← append_assoc, getLast?_concat]
  unfold fromBytes
  rw [if_neg (by rw [frame_length]; omega), if_neg (by simp [hlength, hlast])]

theorem readText_text (h : (Utf8.bytes value).length + 1 < 2 ^ 31) :
    readText (text value) = .ok value := by
  simp only [readText, text, readLength_ofLe h, ok_bind]
  simp

theorem readLength_text (h : (Utf8.bytes value).length + 1 < 2 ^ 31) (rest : List UInt8) :
    readLength (text value ++ rest) =
      .ok ((Utf8.bytes value).length + 1, Utf8.bytes value ++ [0] ++ rest) := by
  rw [text, append_assoc, readLength_ofLe h]

theorem readLength_frame (h : elements.length + 5 < 2 ^ 31) (rest : List UInt8) :
    readLength (frame elements ++ rest) =
      .ok (elements.length + 5, elements ++ [0] ++ rest) := by
  rw [frame, append_assoc, readLength_ofLe h]

/-- The extent of a written payload is found whatever follows it. -/
theorem payloadLength_payload {value : RawBson} (h : value.Writable) (rest : List UInt8) :
    payloadLength value.kind (value.payload ++ rest) = .ok value.payload.length := by
  cases value with
  | string value | javaScriptCode value | symbol value =>
    refine bind_eq_ok.mpr ⟨_, readLength_text h rest, congrArg Except.ok ?_⟩
    rw [RawBson.payload, text_length, Nat.add_comm 4]
  | document raw | array raw =>
    obtain ⟨elements, rfl, hlength⟩ := h
    refine bind_eq_ok.mpr ⟨_, readLength_frame hlength rest, congrArg Except.ok ?_⟩
    rw [RawBson.payload, frame_length]
  | binary subtype bytes =>
    simp only [RawBson.Writable] at h
    rw [RawBson.payload]
    split
    · rw [append_assoc]
      refine bind_eq_ok.mpr ⟨_, readLength_ofLe h _, congrArg Except.ok ?_⟩
      simp
      omega
    · rw [append_assoc]
      refine bind_eq_ok.mpr ⟨_, readLength_ofLe (by omega) _, congrArg Except.ok ?_⟩
      simp
      omega
  | objectId bytes | decimal128 bytes => exact congrArg Except.ok bytes.property.symm
  | regularExpression pattern options =>
    rw [RawBson.payload, append_assoc]
    refine bind_eq_ok.mpr ⟨_, readCString_cstring h.1 _, bind_eq_ok.mpr
      ⟨_, readCString_cstring h.2 rest, congrArg Except.ok ?_⟩⟩
    simp [cstring]
    omega
  | dbPointer collection id =>
    rw [RawBson.payload, append_assoc]
    refine bind_eq_ok.mpr ⟨_, readLength_text h.1 _, congrArg Except.ok ?_⟩
    rw [length_append, text_length, h.2]
    omega
  | javaScriptCodeWithScope code scope =>
    rw [RawBson.payload, append_assoc]
    refine bind_eq_ok.mpr ⟨_, readLength_ofLe h.1 _, congrArg Except.ok ?_⟩
    simp
    omega
  | _ => rfl

theorem readBinary_payload {subtype : UInt8} (h : bytes.length + 4 < 2 ^ 31) :
    readBinary (RawBson.binary subtype bytes).payload = .ok (.binary subtype bytes) := by
  rw [RawBson.payload]
  split
  next hold =>
    simp only [readBinary, readLength_ofLe h, ok_bind]
    rw [if_neg (by simp; omega), if_pos hold, readLength_ofLe (by omega), ok_bind,
      if_neg (by simp)]
  next hnew =>
    simp only [readBinary, readLength_ofLe (show bytes.length < 2 ^ 31 by omega),
      ok_bind]
    simp [*]

theorem readRegularExpression_payload {pattern options : String}
    (hpattern : (Utf8.bytes pattern).contains 0 = false)
    (hoptions : (Utf8.bytes options).contains 0 = false) :
    readRegularExpression (cstring pattern ++ cstring options) =
      .ok (.regularExpression pattern options) := by
  have hlast := readCString_cstring hoptions []
  rw [append_nil] at hlast
  simp [readRegularExpression, readCString_cstring hpattern, hlast, ok_bind, utf8_bytes]

theorem readCodeWithScope_payload {code : String}
    (htotal : 4 + (text code).length + (frame elements).length < 2 ^ 31) :
    readCodeWithScope (RawBson.javaScriptCodeWithScope code (frame elements)).payload =
      .ok (.javaScriptCodeWithScope code (frame elements)) := by
  rw [frame_length, text_length] at htotal
  have hcode : (Utf8.bytes code).length + 1 < 2 ^ 31 := by omega
  have hsize : (text code).length = 4 + ((Utf8.bytes code).length + 1) := by
    rw [text_length]
    omega
  simp only [readCodeWithScope, RawBson.payload, drop_left' (ofLe_length 4 _),
    readLength_text hcode, ok_bind]
  rw [if_neg (by simp), take_left' hsize, drop_left' hsize, readText_text hcode,
    ok_bind, fromBytes_frame (by omega), ok_bind]

theorem toInt64_toLe (value : Int64) :
    (UInt64.ofNat (toLe (ofLe 8 value.toUInt64.toNat))).toInt64 = value := by
  rw [toLe_ofLe_of_lt value.toUInt64.toNat_lt, UInt64.ofNat_toNat]
  rfl

/-- The value of a written element is the value that was written. -/
theorem readValue_payload {value : RawBson} (h : value.Writable) :
    readValue value.payload value.kind = .ok value := by
  cases value with
  | double bits =>
    change Except.ok (RawBson.double (UInt64.ofNat (toLe (ofLe 8 bits.toNat)))) = _
    rw [toLe_ofLe_of_lt bits.toNat_lt, UInt64.ofNat_toNat]
  | string value | javaScriptCode value | symbol value =>
    exact bind_eq_ok.mpr ⟨_, readText_text h, rfl⟩
  | document raw | array raw =>
    obtain ⟨elements, rfl, hlength⟩ := h
    exact bind_eq_ok.mpr ⟨_, fromBytes_frame hlength, rfl⟩
  | binary subtype bytes => exact readBinary_payload h
  | objectId bytes | decimal128 bytes => exact dif_pos bytes.property
  | boolean value => cases value <;> rfl
  | dateTime value | int64 value => exact congrArg (Except.ok ∘ _) (toInt64_toLe value)
  | regularExpression pattern options => exact readRegularExpression_payload h.1 h.2
  | dbPointer collection id =>
    have hsize : (text collection).length = 4 + ((Utf8.bytes collection).length + 1) := by
      rw [text_length]
      omega
    refine bind_eq_ok.mpr ⟨_, readLength_text h.1 id, ?_⟩
    simp only [RawBson.payload, take_left' hsize, drop_left' hsize, readText_text h.1, ok_bind]
  | javaScriptCodeWithScope code scope =>
    obtain ⟨htotal, elements, rfl, hlength⟩ := h
    exact readCodeWithScope_payload htotal
  | int32 value =>
    change Except.ok (RawBson.int32
      (UInt32.ofNat (toLe (ofLe 4 value.toUInt32.toNat))).toInt32) = _
    rw [toLe_ofLe_of_lt value.toUInt32.toNat_lt, UInt32.ofNat_toNat]
    rfl
  | timestamp time increment =>
    change Except.ok (RawBson.timestamp
      (UInt32.ofNat (toLe ((ofLe 4 increment.toNat ++
        ofLe 4 time.toNat).drop 4)))
      (UInt32.ofNat (toLe ((ofLe 4 increment.toNat ++
        ofLe 4 time.toNat).take 4)))) = _
    rw [drop_left' (ofLe_length 4 _), take_left' (ofLe_length 4 _),
      toLe_ofLe_of_lt time.toNat_lt, toLe_ofLe_of_lt increment.toNat_lt,
      UInt32.ofNat_toNat, UInt32.ofNat_toNat]
  | _ => rfl

/-- Reading an element gives its parts and leaves what follows it. -/
theorem readElement_element {value : RawBson}
    (hkey : (Utf8.bytes key).contains 0 = false) (hvalue : value.Writable) (rest : List UInt8) :
    readElement (element key value ++ rest) = .ok (⟨key, .ok value⟩, rest) := by
  rw [element, cons_append, append_assoc]
  simp only [readElement, readCString_cstring hkey, ok_bind, utf8_bytes,
    payloadLength_payload hvalue]
  simp [readValue_payload hvalue]

/-- A sequence of written elements is read back with any sufficient bound. -/
theorem readElements_elements {elements : List (String × RawBson)} {fuel : Nat}
    (h : ∀ entry ∈ elements, (Utf8.bytes entry.1).contains 0 = false ∧ entry.2.Writable)
    (hfuel : (elements.flatMap fun entry => element entry.1 entry.2).length ≤ fuel) :
    readElements fuel (elements.flatMap fun entry => element entry.1 entry.2) =
      written elements := by
  induction elements generalizing fuel with
  | nil => cases fuel <;> rfl
  | cons entry elements ih =>
    obtain ⟨hkey, hvalue⟩ := h entry mem_cons_self
    rw [flatMap_cons] at hfuel ⊢
    cases fuel with
    | zero => simp [element] at hfuel
    | succ fuel =>
      have hread := readElement_element hkey hvalue
        (elements.flatMap fun entry => element entry.1 entry.2)
      have hrest := @ih fuel (forall_mem_cons.mp h).2 (by
        grind [element])
      rw [element, cons_append] at hread ⊢
      simp only [readElements, hread, hrest]
      rfl

theorem iterElements_frame {elements : List (String × RawBson)}
    (h : ∀ entry ∈ elements, (Utf8.bytes entry.1).contains 0 = false ∧ entry.2.Writable) :
    iterElements (frame (elements.flatMap fun entry => element entry.1 entry.2)) =
      written elements := by
  rw [iterElements, body_frame]
  exact readElements_elements h le_rfl

theorem append_frame (elements : List UInt8) (key : String) (value : RawBson) :
    append (frame elements) key value = frame (elements ++ element key value) := by
  rw [append, body_frame]

/-- The specification's own library. -/
@[reducible] def specified : Crate where
  new := frame []
  append := append
  push array value := ⟨append array.raw (toString array.len) value, array.len + 1⟩
  fromBytes := fromBytes
  iterElements := iterElements
  new_eq := rfl
  append_frame := append_frame
  push_frame elements len value := by rw [append_frame]
  fromBytes_frame := fromBytes_frame
  iterElements_frame := iterElements_frame

end BsonWire
