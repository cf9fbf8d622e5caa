import BriskDB.Document.Key
import BriskDB.Document.NumberOrder

/-! # Canonical keys are identities

The encoder writes a self-delimiting word of the value's identity, so two keys are
the same bytes exactly when the values are equal, and the validator reads every
word the encoder can write.
-/

namespace BriskDB.Document

open PrefixCode KeyCursor Result Bytes Identity Separates
open List hiding take take_append

def CanonicalFinite.keySign (value : CanonicalFinite) : UInt8 :=
  if value.coefficient = 0 then finiteZero
  else if value.negative then finiteNegative
  else finitePositive

def coefficientBytes (coefficient : Nat) : List UInt8 :=
  stripZeros (ofBe 16 coefficient)

def CanonicalFinite.keyCode (value : CanonicalFinite) : List UInt8 :=
  value.keySign :: (block (coefficientBytes value.coefficient) ++
    (i16Bytes value.exponentTwo ++ i16Bytes value.exponentFive))

def CanonicalNumber.keyCode : CanonicalNumber → List UInt8
  | .nan => [numberNan]
  | .negativeInfinity => [numberNegativeInfinity]
  | .positiveInfinity => [numberPositiveInfinity]
  | .finite value => numberFinite :: value.keyCode

def textCode (text : String) : List UInt8 := block (Utf8.bytes text)

mutual

def Identity.keyCode : Identity → List UInt8
  | .minKey => [tagMinKey]
  | .null => [tagNull]
  | .number value => tagNumber :: value.keyCode
  | .string value => tagString :: textCode value
  | .document entries => tagDocument :: (ofBe 4 entries.length ++ fieldsCode entries)
  | .array values => tagArray :: (ofBe 4 values.length ++ valuesCode values)
  | .binary subtype bytes => tagBinary :: subtype :: block bytes
  | .objectId value => tagObjectId :: value.bytes
  | .boolean value => [tagBoolean, if value then 1 else 0]
  | .dateTime value => tagDateTime :: ofBe 8 value.timestampMillis.toUInt64.toNat
  | .timestamp value =>
    tagTimestamp :: (ofBe 4 value.time.toNat ++ ofBe 4 value.increment.toNat)
  | .regularExpression value => tagRegex :: (textCode value.pattern ++ textCode value.options)
  | .javaScript code => tagJavaScript :: textCode code
  | .javaScriptWithScope code scope =>
    tagJavaScriptWithScope ::
      (textCode code ++ (ofBe 4 scope.length ++ fieldsCode scope))
  | .maxKey => [tagMaxKey]

def Identity.fieldsCode : List (String × Identity) → List UInt8
  | [] => []
  | (name, value) :: entries => textCode name ++ (value.keyCode ++ fieldsCode entries)

def Identity.valuesCode : List Identity → List UInt8
  | [] => []
  | value :: values => value.keyCode ++ valuesCode values

end

theorem Identity.fieldsCode_eq_flatMap (entries : List (String × Identity)) :
    fieldsCode entries = entries.flatMap fun entry => textCode entry.1 ++ entry.2.keyCode := by
  induction entries with
  | nil => rfl
  | cons entry entries ih => rw [fieldsCode, ih, flatMap_cons, append_assoc]

theorem Identity.valuesCode_eq_flatMap (values : List Identity) :
    valuesCode values = values.flatMap keyCode := by
  induction values with
  | nil => rfl
  | cons value values ih => rw [valuesCode, ih, flatMap_cons]

/-- The ranges the validator demands of a number. -/
def CanonicalNumber.KeyRange : CanonicalNumber → Prop
  | .finite value => value.InRange ∧ value.coefficient ≤ maxDecimal128Coefficient
  | _ => True

def TextFits (text : String) : Prop := (Utf8.bytes text).length < 256 ^ 4

/-- An identity at some depth whose nesting, lengths, texts and numbers the encoder accepts. -/
inductive KeyFits : Nat → Identity → Prop
  | minKey {depth : Nat} (hdepth : depth ≤ maxKeyNestingDepth) : KeyFits depth .minKey
  | null {depth : Nat} (hdepth : depth ≤ maxKeyNestingDepth) : KeyFits depth .null
  | number {depth : Nat} {value : CanonicalNumber} (hdepth : depth ≤ maxKeyNestingDepth)
      (hrange : value.KeyRange) : KeyFits depth (.number value)
  | string {depth : Nat} {value : String} (hdepth : depth ≤ maxKeyNestingDepth)
      (htext : TextFits value) : KeyFits depth (.string value)
  | document {depth : Nat} {entries : List (String × Identity)}
      (hdepth : depth + 1 ≤ maxKeyNestingDepth) (hlength : entries.length < 256 ^ 4)
      (hnames : ∀ entry ∈ entries, TextFits entry.1 ∧ containsNul entry.1 = false)
      (hvalues : ∀ entry ∈ entries, KeyFits (depth + 1) entry.2) :
      KeyFits depth (.document entries)
  | array {depth : Nat} {values : List Identity} (hdepth : depth + 1 ≤ maxKeyNestingDepth)
      (hlength : values.length < 256 ^ 4)
      (hvalues : ∀ value ∈ values, KeyFits (depth + 1) value) : KeyFits depth (.array values)
  | binary {depth : Nat} {subtype : UInt8} {bytes : List UInt8}
      (hdepth : depth ≤ maxKeyNestingDepth) (hlength : bytes.length < 256 ^ 4) :
      KeyFits depth (.binary subtype bytes)
  | objectId {depth : Nat} {value : BsonObjectId} (hdepth : depth ≤ maxKeyNestingDepth) :
      KeyFits depth (.objectId value)
  | boolean {depth : Nat} {value : Bool} (hdepth : depth ≤ maxKeyNestingDepth) :
      KeyFits depth (.boolean value)
  | dateTime {depth : Nat} {value : BsonDateTime} (hdepth : depth ≤ maxKeyNestingDepth) :
      KeyFits depth (.dateTime value)
  | timestamp {depth : Nat} {value : BsonTimestamp} (hdepth : depth ≤ maxKeyNestingDepth) :
      KeyFits depth (.timestamp value)
  | regularExpression {depth : Nat} {value : BsonRegex} (hdepth : depth ≤ maxKeyNestingDepth)
      (hbuilt : value.Built) (hpattern : TextFits value.pattern)
      (hoptions : TextFits value.options) : KeyFits depth (.regularExpression value)
  | javaScript {depth : Nat} {code : String} (hdepth : depth ≤ maxKeyNestingDepth)
      (hcode : TextFits code) : KeyFits depth (.javaScript code)
  | javaScriptWithScope {depth : Nat} {code : String} {scope : List (String × Identity)}
      (hdepth : depth + 1 ≤ maxKeyNestingDepth) (hcode : TextFits code)
      (hlength : scope.length < 256 ^ 4)
      (hnames : ∀ entry ∈ scope, TextFits entry.1 ∧ containsNul entry.1 = false)
      (hvalues : ∀ entry ∈ scope, KeyFits (depth + 1) entry.2) :
      KeyFits depth (.javaScriptWithScope code scope)
  | maxKey {depth : Nat} (hdepth : depth ≤ maxKeyNestingDepth) : KeyFits depth .maxKey

def CanonicalNumber.CoefficientLe (bound : Nat) : CanonicalNumber → Prop
  | .finite value => value.coefficient ≤ bound
  | _ => True

variable {coefficient depth room : Nat} {P : Prop}

theorem finite_coefficientLe {negative : Bool} {bound : Nat}
    (exponentTwo exponentFive : Int) (h : coefficient ≤ bound) :
    (finite negative coefficient exponentTwo exponentFive).CoefficientLe bound := by
  by_cases hzero : coefficient = 0
  · subst hzero
    rw [finite_zero]
    exact h
  · obtain ⟨value, twos, fives, heq, _, _, hproduct, _, _⟩ :=
      finite_spec negative exponentTwo exponentFive hzero
    rw [heq]
    calc value.coefficient
        ≤ value.coefficient * 5 ^ fives := Nat.le_mul_of_pos_right _ (Nat.pow_pos (by decide))
      _ ≤ value.coefficient * 5 ^ fives * 2 ^ twos :=
          Nat.le_mul_of_pos_right _ (Nat.two_pow_pos twos)
      _ = coefficient := hproduct.symm
      _ ≤ bound := h

namespace CanonicalNumber

theorem fromF64_coefficientLe (value : F64) :
    (fromF64 value).CoefficientLe maxDecimal128Coefficient := by
  have hfraction : value.toBits.toNat % 2 ^ 52 < 2 ^ 52 := Nat.mod_lt _ (by decide)
  have hsignificand : 2 ^ 52 ||| value.toBits.toNat % 2 ^ 52 < 2 ^ 53 :=
    Nat.or_lt_two_pow (by decide) (by omega)
  have hmax : 2 ^ 53 ≤ maxDecimal128Coefficient := by decide
  unfold fromF64
  split
  · trivial
  · split
    · trivial
    · split
      · trivial
      · dsimp only
        split
        · exact finite_coefficientLe 0 0 (Nat.zero_le _)
        · split
          · exact finite_coefficientLe _ _ (by omega)
          · exact finite_coefficientLe _ _ (by omega)

theorem fromDecimalBid_coefficientLe (bid : List UInt8) :
    (fromDecimalBid bid).CoefficientLe maxDecimal128Coefficient := by
  have hclamp (n : Nat) : (if n > maxDecimal128Coefficient then 0 else n) ≤
      maxDecimal128Coefficient := by
    split <;> omega
  unfold fromDecimalBid
  dsimp only
  split
  · split
    · trivial
    · split <;> trivial
  · exact finite_coefficientLe _ _ (hclamp _)

theorem fromInt64_coefficientLe (value : Int64) :
    (fromInt64 value).CoefficientLe maxDecimal128Coefficient := by
  have hle := value.le_toInt
  have hlt := value.toInt_lt
  have hmax : 2 ^ 63 ≤ maxDecimal128Coefficient := by decide
  exact finite_coefficientLe 0 0 (by omega)

theorem fromInt32_coefficientLe (value : Int32) :
    (fromInt32 value).CoefficientLe maxDecimal128Coefficient := by
  have hle := value.le_toInt
  have hlt := value.toInt_lt
  have hmax : 2 ^ 31 ≤ maxDecimal128Coefficient := by decide
  exact finite_coefficientLe 0 0 (by omega)

theorem KeyRange.of_inRange {number : CanonicalNumber} (hrange : number.InRange)
    (hle : number.CoefficientLe maxDecimal128Coefficient) : number.KeyRange := by
  cases number with
  | finite value => exact ⟨hrange, hle⟩
  | _ => trivial

end CanonicalNumber

open CanonicalNumber in
theorem BsonValue.keyRange_of_canonicalNumber {value : BsonValue} {number : CanonicalNumber}
    (h : value.canonicalNumber = some number) : number.KeyRange := by
  cases value with
  | double value =>
    cases h
    exact .of_inRange (fromF64_inRange value) (fromF64_coefficientLe value)
  | int32 value =>
    cases h
    exact .of_inRange (fromInt32_inRange value) (fromInt32_coefficientLe value)
  | int64 value =>
    cases h
    exact .of_inRange (fromInt64_inRange value) (fromInt64_coefficientLe value)
  | decimal128 value =>
    cases h
    exact .of_inRange (fromDecimalBid_inRange _) (fromDecimalBid_coefficientLe _)
  | _ => cases h

def KeyEmits (writer : List UInt8 → BsonResult (List UInt8)) (word : List UInt8) (P : Prop) :
    Prop :=
  Emits bsonMaxCanonicalKeyBytes writer word P

theorem keyEmits_extend (value : List UInt8) :
    KeyEmits (fun output => extendKeyBytes output value) value True := by
  intro output result _ hrun
  simp only [extendKeyBytes] at hrun
  grind

theorem keyEmits_byte (value : UInt8) :
    KeyEmits (fun output => pushKeyByte output value) [value] True :=
  keyEmits_extend [value]

theorem keyEmits_len (length : Nat) :
    KeyEmits (fun output => pushLen output length) (ofBe 4 length) (length < 256 ^ 4) := by
  intro output result houtput hrun
  simp only [pushLen] at hrun
  split at hrun
  next hlength =>
    obtain ⟨hresult, hsize, _⟩ := keyEmits_extend _ output result houtput hrun
    exact ⟨hresult, hsize, hlength⟩
  · cases hrun

theorem keyEmits_bytes (value : List UInt8) :
    KeyEmits (fun output => pushBytes output value) (block value) (value.length < 256 ^ 4) :=
  ((keyEmits_len value.length).bind fun _ => keyEmits_extend value).imp And.left

theorem keyEmits_string (value : String) :
    KeyEmits (fun output => pushString output value) (textCode value) (TextFits value) :=
  keyEmits_bytes (Utf8.bytes value)

theorem le_of_ensureKeyDepth (h : ensureKeyDepth depth = .ok ()) : depth ≤ maxKeyNestingDepth := by
  unfold ensureKeyDepth at h
  grind

theorem KeyEmits.atDepth {writer : List UInt8 → BsonResult (List UInt8)}
    {word : List UInt8} (h : KeyEmits writer word P) :
    KeyEmits (fun output => ensureKeyDepth depth >>= fun _ => writer output) word
      (depth ≤ maxKeyNestingDepth ∧ P) :=
  .guard le_of_ensureKeyDepth fun _ => h

theorem KeyEmits.tagged {writer : List UInt8 → BsonResult (List UInt8)} {word : List UInt8}
    (tag : UInt8) (h : KeyEmits writer word P) :
    KeyEmits (fun output => pushKeyByte output tag >>= writer) (tag :: word) P :=
  ((keyEmits_byte tag).bind fun _ => h).imp And.right

theorem KeyEmits.andThen {first second : List UInt8 → BsonResult (List UInt8)}
    {x y : List UInt8} {Q : Prop} (hfirst : KeyEmits first x P) (hsecond : KeyEmits second y Q) :
    KeyEmits (fun output => first output >>= second) (x ++ y) (P ∧ Q) :=
  .bind hfirst fun _ => hsecond

theorem keyEmits_finite (value : CanonicalFinite) :
    KeyEmits (fun output => encodeFinite output value) value.keyCode True := by
  have hcoefficient : KeyEmits (fun output =>
      if value.coefficient = 0 then pushBytes output []
      else pushBytes output (stripZeros (ofBe 16 value.coefficient)))
      (block (coefficientBytes value.coefficient)) True := by
    by_cases hzero : value.coefficient = 0
    · simp only [hzero, ↓reduceIte]
      exact (keyEmits_bytes []).imp fun _ => trivial
    · simp only [hzero, ↓reduceIte]
      exact (keyEmits_bytes _).imp fun _ => trivial
  have hexponents := (keyEmits_extend (i16Bytes value.exponentTwo)).andThen
    (keyEmits_extend (i16Bytes value.exponentFive))
  exact ((hcoefficient.andThen hexponents).tagged value.keySign).imp fun _ => trivial

theorem keyEmits_number (number : CanonicalNumber) :
    KeyEmits (fun output => encodeNumber output number) number.keyCode True := by
  cases number with
  | nan => exact keyEmits_byte numberNan
  | negativeInfinity => exact keyEmits_byte numberNegativeInfinity
  | positiveInfinity => exact keyEmits_byte numberPositiveInfinity
  | finite value => exact (keyEmits_finite value).tagged numberFinite

theorem keyEmits_ofNumber {value : BsonValue} {number : CanonicalNumber} (depth : Nat)
    (h : value.canonicalNumber = some number) :
    KeyEmits (fun output => encodeKeyValue output value depth) value.identity.keyCode
      (KeyFits depth value.identity) := by
  have hrange := BsonValue.keyRange_of_canonicalNumber h
  cases value <;> cases h <;>
    exact ((keyEmits_number _).tagged tagNumber).atDepth.imp fun hfits => .number hfits.1 hrange

theorem keyEmits_ofBinary {value : BsonValue} {parts : UInt8 × List UInt8} (depth : Nat)
    (h : value.binaryParts = some parts) :
    KeyEmits (fun output => encodeKeyValue output value depth) value.identity.keyCode
      (KeyFits depth value.identity) := by
  cases value <;> cases h <;>
    exact (((keyEmits_bytes _).tagged _).tagged tagBinary).atDepth.imp fun hfits =>
      .binary hfits.1 hfits.2

theorem keyEmits_fields {entries : List (String × BsonValue)} (hvalid : documentValid entries)
    (ih : ∀ entry ∈ entries, entry.2.Valid →
      KeyEmits (fun output => encodeKeyValue output entry.2 depth) entry.2.identity.keyCode
        (KeyFits depth entry.2.identity)) :
    KeyEmits (fun output => encodeKeyFields output entries depth)
      (fieldsCode (documentIdentity entries)) (∀ entry ∈ documentIdentity entries,
        (TextFits entry.1 ∧ containsNul entry.1 = false) ∧ KeyFits depth entry.2) := by
  induction entries with
  | nil => exact Emits.skip.imp fun _ => nofun
  | cons entry entries ihEntries =>
    obtain ⟨hname, hvalue, hrest⟩ := hvalid
    have hhead := (keyEmits_string entry.1).andThen (ih entry mem_cons_self hvalue |>.andThen
      (ihEntries hrest (forall_mem_cons.mp ih).2))
    refine .imp hhead ?_
    rintro ⟨htext, hfits, htail⟩
    exact forall_mem_cons.mpr ⟨⟨⟨htext, hname⟩, hfits⟩, htail⟩

theorem keyEmits_values {values : List BsonValue} (hvalid : arrayValid values)
    (ih : ∀ value ∈ values, value.Valid →
      KeyEmits (fun output => encodeKeyValue output value depth) value.identity.keyCode
        (KeyFits depth value.identity)) :
    KeyEmits (fun output => encodeKeyValues output values depth) (valuesCode (arrayIdentity values))
      (∀ value ∈ arrayIdentity values, KeyFits depth value) := by
  induction values with
  | nil => exact Emits.skip.imp fun _ => nofun
  | cons value values ihValues =>
    obtain ⟨hvalue, hrest⟩ := hvalid
    have hhead := (ih value mem_cons_self hvalue).andThen
      (ihValues hrest (forall_mem_cons.mp ih).2)
    refine .imp hhead ?_
    rintro ⟨hfits, htail⟩
    exact forall_mem_cons.mpr ⟨hfits, htail⟩

theorem documentIdentity_length (entries : List (String × BsonValue)) :
    (documentIdentity entries).length = entries.length := by
  rw [documentIdentity_eq_map, length_map]

theorem arrayIdentity_length (values : List BsonValue) :
    (arrayIdentity values).length = values.length := by
  rw [arrayIdentity_eq_map, length_map]

/-- The frame of a document and its fields, as both documents and scopes write it. -/
theorem keyEmits_document {entries : List (String × BsonValue)} (hvalid : documentValid entries)
    (ih : ∀ entry ∈ entries, entry.2.Valid →
      KeyEmits (fun output => encodeKeyValue output entry.2 depth) entry.2.identity.keyCode
        (KeyFits depth entry.2.identity)) :
    KeyEmits (fun output => encodeKeyDocument output entries.length depth fun output =>
        encodeKeyFields output entries depth) (ofBe 4 (documentIdentity entries).length ++
        fieldsCode (documentIdentity entries))
      (depth ≤ maxKeyNestingDepth ∧ (documentIdentity entries).length < 256 ^ 4 ∧
        ∀ entry ∈ documentIdentity entries,
          (TextFits entry.1 ∧ containsNul entry.1 = false) ∧ KeyFits depth entry.2) := by
  rw [documentIdentity_length]
  exact ((keyEmits_len entries.length).andThen (keyEmits_fields hvalid ih)).atDepth

/-- A successful encoding appends the word of the identity, and the identity fits. -/
theorem keyEmits_value (value : BsonValue) (depth : Nat) (hvalid : value.Valid) :
    KeyEmits (fun output => encodeKeyValue output value depth) value.identity.keyCode
      (KeyFits depth value.identity) := by
  induction value using BsonValue.induct generalizing depth with
  | hscalar value hscalar =>
    cases value with
    | double | int32 | int64 | decimal128 => exact keyEmits_ofNumber depth rfl
    | binary | uuid => exact keyEmits_ofBinary depth rfl
    | minKey => exact (keyEmits_byte tagMinKey).atDepth.imp fun h => .minKey h.1
    | maxKey => exact (keyEmits_byte tagMaxKey).atDepth.imp fun h => .maxKey h.1
    | null => exact (keyEmits_byte tagNull).atDepth.imp fun h => .null h.1
    | string value =>
      exact ((keyEmits_string value).tagged tagString).atDepth.imp fun h => .string h.1 h.2
    | objectId value =>
      exact ((keyEmits_extend value.bytes).tagged tagObjectId).atDepth.imp fun h =>
        .objectId h.1
    | boolean value =>
      exact ((keyEmits_byte (if value then 1 else 0)).tagged tagBoolean).atDepth.imp fun h =>
        .boolean h.1
    | dateTime value =>
      exact ((keyEmits_extend _).tagged tagDateTime).atDepth.imp fun h => .dateTime h.1
    | timestamp value =>
      exact (((keyEmits_extend _).andThen (keyEmits_extend _)).tagged
        tagTimestamp).atDepth.imp fun h => .timestamp h.1
    | regularExpression value =>
      exact (((keyEmits_string value.pattern).andThen (keyEmits_string value.options)).tagged
        tagRegex).atDepth.imp fun h => .regularExpression h.1 hvalid h.2.1 h.2.2
    | javaScript code scope =>
      cases scope with
      | none =>
        exact ((keyEmits_string code).tagged tagJavaScript).atDepth.imp fun h =>
          .javaScript h.1 h.2
      | some scope => exact hscalar.elim
    | document | array => exact hscalar.elim
  | hdocument entries ih =>
    have hfields := keyEmits_document hvalid fun entry hentry => ih entry hentry (depth + 1)
    refine (hfields.tagged tagDocument).atDepth.imp ?_
    rintro ⟨-, hdepth, hlength, hentries⟩
    exact .document hdepth hlength (fun e he => (hentries e he).1) fun e he => (hentries e he).2
  | harray values ih =>
    have hvalues := keyEmits_values hvalid fun value hvalue => ih value hvalue (depth + 1)
    have hbody : KeyEmits (fun output => pushLen output values.length >>= fun output =>
          encodeKeyValues output values (depth + 1))
        (ofBe 4 (arrayIdentity values).length ++
          valuesCode (arrayIdentity values))
        ((arrayIdentity values).length < 256 ^ 4 ∧
          ∀ value ∈ arrayIdentity values, KeyFits (depth + 1) value) := by
      rw [arrayIdentity_length]
      exact (keyEmits_len values.length).andThen hvalues
    refine (hbody.tagged tagArray).atDepth.atDepth.imp ?_
    rintro ⟨-, hdepth, hlength, hfits⟩
    exact .array hdepth hlength hfits
  | hscope code scope ih =>
    have hfields := keyEmits_document hvalid fun entry hentry => ih entry hentry (depth + 1)
    refine (((keyEmits_string code).andThen hfields).tagged
      tagJavaScriptWithScope).atDepth.imp ?_
    rintro ⟨-, hcode, hdepth, hlength, hentries⟩
    exact .javaScriptWithScope hdepth hcode hlength (fun e he => (hentries e he).1)
      fun e he => (hentries e he).2

theorem i16Bytes_length (value : Int) : (i16Bytes value).length = 2 := by simp [i16Bytes]

theorem separates_i16Bytes {a b : Int} (ha : -2 ^ 15 ≤ a ∧ a < 2 ^ 15)
    (hb : -2 ^ 15 ≤ b ∧ b < 2 ^ 15) : Separates (a = b) (i16Bytes a) (i16Bytes b) := by
  refine (separates_ofBe (by omega) (by omega)).imp ?_
  intro heq
  omega

theorem CanonicalFinite.exponents_i16 {value : CanonicalFinite} (h : value.InRange) :
    (-2 ^ 15 ≤ value.exponentTwo ∧ value.exponentTwo < 2 ^ 15) ∧
      (-2 ^ 15 ≤ value.exponentFive ∧ value.exponentFive < 2 ^ 15) := by
  obtain ⟨htwoMin, htwoMax, hfiveMin, hfiveMax, _⟩ := h
  simp only [minCanonicalExponentTwo, maxCanonicalExponentTwo, minCanonicalExponentFive,
    maxCanonicalExponentFive] at htwoMin htwoMax hfiveMin hfiveMax
  omega

theorem coefficientBytes_length (h : coefficient ≤ maxDecimal128Coefficient) :
    (coefficientBytes coefficient).length ≤ maxCanonicalCoefficientBytes := by
  apply length_stripZeros_le
  have hmax : maxDecimal128Coefficient < 256 ^ 15 := by decide
  rw [toBe_ofBe_of_lt (by omega)]
  exact lt_of_le_of_lt h hmax

theorem toBe_coefficientBytes (h : coefficient ≤ maxDecimal128Coefficient) :
    toBe (coefficientBytes coefficient) = coefficient := by
  have hmax : maxDecimal128Coefficient < 256 ^ 16 := by decide
  rw [coefficientBytes, toBe_stripZeros, toBe_ofBe_of_lt (lt_of_le_of_lt h hmax)]

theorem CanonicalFinite.negative_of_keySign {x y : CanonicalFinite}
    (hsign : x.keySign = y.keySign) (hcoefficient : x.coefficient = y.coefficient) :
    x.negative = y.negative := by
  unfold keySign at hsign
  rcases x.canonical with hzero | hodd
  · rcases y.canonical with hzero' | hodd'
    · rw [hzero.2.1, hzero'.2.1]
    · omega
  · have hx : x.coefficient ≠ 0 := by
      intro hzero
      rw [hzero] at hodd
      exact hodd.1 rfl
    have hy : y.coefficient ≠ 0 := hcoefficient ▸ hx
    simp only [hx, hy, ↓reduceIte] at hsign
    cases hxn : x.negative <;> cases hyn : y.negative <;> rw [hxn, hyn] at hsign <;>
      first
        | rfl
        | exact absurd hsign (by decide)

theorem separates_finite {x y : CanonicalFinite}
    (hx : x.InRange ∧ x.coefficient ≤ maxDecimal128Coefficient)
    (hy : y.InRange ∧ y.coefficient ≤ maxDecimal128Coefficient) :
    Separates (x = y) x.keyCode y.keyCode := by
  have hblock : Separates (x.coefficient = y.coefficient) (block (coefficientBytes x.coefficient))
      (block (coefficientBytes y.coefficient)) := by
    have hxLength := coefficientBytes_length hx.2
    have hyLength := coefficientBytes_length hy.2
    rw [maxCanonicalCoefficientBytes] at hxLength hyLength
    refine (separates_block (by omega) (by omega)).imp ?_
    intro heq
    rw [← toBe_coefficientBytes hx.2, heq, toBe_coefficientBytes hy.2]
  obtain ⟨hxTwo, hxFive⟩ := CanonicalFinite.exponents_i16 hx.1
  obtain ⟨hyTwo, hyFive⟩ := CanonicalFinite.exponents_i16 hy.1
  have hexponents := (separates_i16Bytes hxTwo hyTwo).append fun _ =>
    separates_i16Bytes hxFive hyFive
  refine (cons fun _ => hblock.append fun _ => hexponents).imp ?_
  rintro ⟨hsign, hcoefficient, htwo, hfive⟩
  have hnegative := CanonicalFinite.negative_of_keySign hsign hcoefficient
  cases x
  cases y
  cases hnegative
  grind

theorem separates_number {x y : CanonicalNumber} (hx : x.KeyRange) (hy : y.KeyRange) :
    Separates (x = y) x.keyCode y.keyCode := by
  cases x <;> cases y <;>
    first
      | exact (of_length_eq rfl).imp fun _ => rfl
      | exact of_head_ne (by decide)
      | skip
  exact (tagged (separates_finite hx hy)).imp (congrArg _)

theorem separates_text {x y : String} (hx : TextFits x) (hy : TextFits y) :
    Separates (x = y) (textCode x) (textCode y) :=
  (separates_block hx hy).imp Utf8.bytes_injective

theorem separates_fields {xs ys : List (String × Identity)} (hxs : xs.length < 256 ^ 4)
    (hys : ys.length < 256 ^ 4) (hxNames : ∀ entry ∈ xs, TextFits entry.1)
    (hyNames : ∀ entry ∈ ys, TextFits entry.1)
    (h : ∀ a ∈ xs, ∀ b ∈ ys, Separates (a.2 = b.2) a.2.keyCode b.2.keyCode) :
    Separates (xs = ys) (ofBe 4 xs.length ++ fieldsCode xs)
      (ofBe 4 ys.length ++ fieldsCode ys) := by
  rw [fieldsCode_eq_flatMap, fieldsCode_eq_flatMap]
  refine separates_counted hxs hys fun a ha b hb => ?_
  refine ((separates_text (hxNames a ha) (hyNames b hb)).append fun _ => h a ha b hb).imp ?_
  exact fun heq => Prod.ext heq.1 heq.2

theorem separates_values {xs ys : List Identity} (hxs : xs.length < 256 ^ 4)
    (hys : ys.length < 256 ^ 4) (h : ∀ a ∈ xs, ∀ b ∈ ys, Separates (a = b) a.keyCode b.keyCode) :
    Separates (xs = ys) (ofBe 4 xs.length ++ valuesCode xs)
      (ofBe 4 ys.length ++ valuesCode ys) := by
  rw [valuesCode_eq_flatMap, valuesCode_eq_flatMap]
  exact separates_counted hxs hys h

theorem separates_objectId (x y : BsonObjectId) : Separates (x = y) x.bytes y.bytes := by
  refine (of_length_eq (x.length_eq.trans y.length_eq.symm)).imp fun h => ?_
  cases x
  cases y
  cases h
  rfl

theorem separates_boolean (x y : Bool) :
    Separates (x = y) [if x then (1 : UInt8) else 0] [if y then (1 : UInt8) else 0] := by
  cases x <;> cases y <;>
    first
      | exact (of_length_eq rfl).imp fun _ => rfl
      | exact of_head_ne (by decide)

theorem separates_dateTime (x y : BsonDateTime) :
    Separates (x = y) (ofBe 8 x.timestampMillis.toUInt64.toNat)
      (ofBe 8 y.timestampMillis.toUInt64.toNat) := by
  refine (separates_ofBe (UInt64.toNat_lt _) (UInt64.toNat_lt _)).imp fun h => ?_
  have hword := UInt64.toNat_inj.mp h
  obtain ⟨⟨word⟩⟩ := x
  obtain ⟨⟨word'⟩⟩ := y
  cases hword
  rfl

theorem separates_timestamp (x y : BsonTimestamp) :
    Separates (x = y) (ofBe 4 x.time.toNat ++ ofBe 4 x.increment.toNat)
      (ofBe 4 y.time.toNat ++ ofBe 4 y.increment.toNat) := by
  have htime := @separates_ofBe 4 _ _ (UInt32.toNat_lt x.time) (UInt32.toNat_lt y.time)
  have hincrement := @separates_ofBe 4 _ _ (UInt32.toNat_lt x.increment)
    (UInt32.toNat_lt y.increment)
  refine (htime.append fun _ => hincrement).imp ?_
  rintro ⟨htimeEq, hincrementEq⟩
  have htime' := UInt32.toNat_inj.mp htimeEq
  have hincrement' := UInt32.toNat_inj.mp hincrementEq
  cases x
  cases y
  grind

theorem separates_regex {x y : BsonRegex} (hx : TextFits x.pattern ∧ TextFits x.options)
    (hy : TextFits y.pattern ∧ TextFits y.options) :
    Separates (x = y) (textCode x.pattern ++ textCode x.options)
      (textCode y.pattern ++ textCode y.options) := by
  refine ((separates_text hx.1 hy.1).append fun _ => separates_text hx.2 hy.2).imp ?_
  rintro ⟨hpattern, hoptions⟩
  cases x
  cases y
  grind

/-- Identities that fit are determined by their words, whatever follows them. -/
theorem KeyFits.separates {depth' : Nat} {left right : Identity} (hleft : KeyFits depth left)
    (hright : KeyFits depth' right) : Separates (left = right) left.keyCode right.keyCode := by
  -- words of different kinds have different tags, those of one kind are compared by their parts
  induction hleft generalizing depth' right with
  | number hdepth hrange =>
    cases hright with
    | number hdepth' hrange' => exact (tagged (separates_number hrange hrange')).imp (congrArg _)
    | _ => exact of_head_ne (by decide)
  | string hdepth htext =>
    cases hright with
    | string hdepth' htext' => exact (tagged (separates_text htext htext')).imp (congrArg _)
    | _ => exact of_head_ne (by decide)
  | document hdepth hlength hnames hvalues ih =>
    cases hright with
    | document hdepth' hlength' hnames' hvalues' =>
      exact (tagged (separates_fields hlength hlength' (fun e he => (hnames e he).1)
        (fun e he => (hnames' e he).1) fun a ha b hb => ih a ha (hvalues' b hb))).imp (congrArg _)
    | _ => exact of_head_ne (by decide)
  | array hdepth hlength hvalues ih =>
    cases hright with
    | array hdepth' hlength' hvalues' =>
      exact (tagged (separates_values hlength hlength' fun a ha b hb =>
        ih a ha (hvalues' b hb))).imp (congrArg _)
    | _ => exact of_head_ne (by decide)
  | binary hdepth hlength =>
    cases hright with
    | binary hdepth' hlength' =>
      refine (cons fun _ => .cons fun _ => separates_block hlength hlength').imp ?_
      simp
    | _ => exact of_head_ne (by decide)
  | objectId hdepth =>
    cases hright with
    | objectId hdepth' => exact (tagged (separates_objectId _ _)).imp (congrArg _)
    | _ => exact of_head_ne (by decide)
  | boolean hdepth =>
    cases hright with
    | boolean hdepth' => exact (tagged (separates_boolean _ _)).imp (congrArg _)
    | _ => exact of_head_ne (by decide)
  | dateTime hdepth =>
    cases hright with
    | dateTime hdepth' => exact (tagged (separates_dateTime _ _)).imp (congrArg _)
    | _ => exact of_head_ne (by decide)
  | timestamp hdepth =>
    cases hright with
    | timestamp hdepth' => exact (tagged (separates_timestamp _ _)).imp (congrArg _)
    | _ => exact of_head_ne (by decide)
  | regularExpression hdepth hbuilt hpattern hoptions =>
    cases hright with
    | regularExpression hdepth' hbuilt' hpattern' hoptions' =>
      exact (tagged (separates_regex ⟨hpattern, hoptions⟩ ⟨hpattern', hoptions'⟩)).imp
        (congrArg _)
    | _ => exact of_head_ne (by decide)
  | javaScript hdepth hcode =>
    cases hright with
    | javaScript hdepth' hcode' => exact (tagged (separates_text hcode hcode')).imp (congrArg _)
    | _ => exact of_head_ne (by decide)
  | javaScriptWithScope hdepth hcode hlength hnames hvalues ih =>
    cases hright with
    | javaScriptWithScope hdepth' hcode' hlength' hnames' hvalues' =>
      have hfields := separates_fields hlength hlength' (fun e he => (hnames e he).1)
        (fun e he => (hnames' e he).1) fun a ha b hb => ih a ha (hvalues' b hb)
      refine (cons fun _ => (separates_text hcode hcode').append fun _ => hfields).imp ?_
      simp
    | _ => exact of_head_ne (by decide)
  | minKey | null | maxKey =>
    cases hright <;>
      first
        | exact (of_length_eq rfl).imp fun _ => rfl
        | exact of_head_ne (by decide)

theorem take_append {bytes : List UInt8} {length : Nat} (h : bytes.length = length)
    (rest : List UInt8) : take length (bytes ++ rest) = .ok (bytes, rest) := by
  unfold take
  simp [*]

theorem readU32_ofBe {n : Nat} (hn : n < 256 ^ 4) (rest : List UInt8) :
    readU32 (ofBe 4 n ++ rest) = .ok (n, rest) := by
  simp only [readU32, take_append (ofBe_length 4 n), ok_bind,
    toBe_ofBe_of_lt hn]
  rfl

theorem readI16_i16Bytes {value : Int} (hvalue : -2 ^ 15 ≤ value ∧ value < 2 ^ 15)
    (rest : List UInt8) : readI16 (i16Bytes value ++ rest) = .ok (value, rest) := by
  have hbytes : toBe (i16Bytes value) = (value % 2 ^ 16).toNat :=
    toBe_ofBe_of_lt (by omega)
  simp only [readI16, take_append (i16Bytes_length value), ok_bind, hbytes]
  have hread : (if (value % 2 ^ 16).toNat < 2 ^ 15 then ((value % 2 ^ 16).toNat : Int)
      else ((value % 2 ^ 16).toNat : Int) - 2 ^ 16) = value := by
    split <;> omega
  rw [hread]
  rfl

theorem readBytes_block {bytes : List UInt8} (h : bytes.length < 256 ^ 4) (rest : List UInt8) :
    readBytes (block bytes ++ rest) = .ok (bytes, rest) := by
  simp [readBytes, block, readU32_ofBe h, ok_bind, take_append rfl]

theorem readString_textCode {text : String} (h : TextFits text) (rest : List UInt8) :
    readString (textCode text ++ rest) = .ok (text, rest) := by
  simp [readString, textCode, readBytes_block h, ok_bind, Utf8.decode_bytes]

theorem validateFinite_keyCode {value : CanonicalFinite}
    (h : value.InRange ∧ value.coefficient ≤ maxDecimal128Coefficient) (rest : List UInt8) :
    validateFinite (value.keyCode ++ rest) = .ok rest := by
  obtain ⟨htwo, hfive⟩ := CanonicalFinite.exponents_i16 h.1
  have hlength := coefficientBytes_length h.2
  have hblock : (coefficientBytes value.coefficient).length < 256 ^ 4 :=
    lt_of_le_of_lt hlength (by decide)
  have hhead : ¬ (coefficientBytes value.coefficient).head? = some 0 :=
    head_stripZeros _
  have hlong : ¬ (coefficientBytes value.coefficient).length > maxCanonicalCoefficientBytes := by
    omega
  simp only [validateFinite, CanonicalFinite.keyCode, cons_append, append_assoc, readU8,
    ok_bind, readBytes_block hblock, hhead, hlong, ↓reduceIte, readI16_i16Bytes htwo,
    readI16_i16Bytes hfive, toBe_coefficientBytes h.2]
  rcases value.canonical with hzero | hodd
  · have hbytes : coefficientBytes value.coefficient = [] := by
      rw [hzero.1]
      rfl
    exact if_pos ⟨if_pos hzero.1, hbytes, hzero.2.2⟩
  · have hne : value.coefficient ≠ 0 := by
      intro hzero
      rw [hzero] at hodd
      exact hodd.1 rfl
    have hbytes : coefficientBytes value.coefficient ≠ [] := by
      intro hnil
      have hvalue := toBe_coefficientBytes h.2
      rw [hnil] at hvalue
      exact hne hvalue.symm
    have hsign : value.keySign = finitePositive ∨ value.keySign = finiteNegative := by
      unfold CanonicalFinite.keySign
      rw [if_neg hne]
      split <;> simp
    rw [if_neg fun hzero => hbytes hzero.2.1, if_pos ⟨hsign, hbytes⟩, if_neg (not_lt.mpr h.2),
      if_neg (not_or.mpr hodd),
      if_neg (by
        rw [not_or, not_not, not_not]
        exact ⟨⟨h.1.1, h.1.2.1⟩, h.1.2.2.1, h.1.2.2.2.1⟩)]

theorem validateNumber_keyCode {number : CanonicalNumber} (h : number.KeyRange)
    (rest : List UInt8) : validateNumber (number.keyCode ++ rest) = .ok rest := by
  cases number with
  | finite value =>
    refine bind_eq_ok.mpr ⟨(numberFinite, value.keyCode ++ rest), rfl, ?_⟩
    exact validateFinite_keyCode h rest
  | _ => rfl

theorem validateRegex_textCode {regex : BsonRegex} (hbuilt : regex.Built)
    (hpattern : TextFits regex.pattern) (hoptions : TextFits regex.options) (rest : List UInt8) :
    validateRegex (textCode regex.pattern ++ (textCode regex.options ++ rest)) = .ok rest := by
  simp [validateRegex, readString_textCode hpattern, readString_textCode hoptions, ok_bind,
    hbuilt.new_eq]

theorem times_flatMap {α : Type} {step : List UInt8 → BsonResult (List UInt8)}
    {code : α → List UInt8} {members : List α}
    (h : ∀ member ∈ members, ∀ rest, step (code member ++ rest) = .ok rest) (rest : List UInt8) :
    times step members.length (members.flatMap code ++ rest) = .ok rest := by
  induction members with
  | nil => rfl
  | cons member members ih =>
    rw [flatMap_cons, append_assoc, length_cons, times,
      h member mem_cons_self, ok_bind]
    exact ih (forall_mem_cons.mp h).2

theorem validateDocument_fieldsCode {validate : List UInt8 → BsonResult (List UInt8)}
    {entries : List (String × Identity)} (hroom : room ≠ 0) (hlength : entries.length < 256 ^ 4)
    (hnames : ∀ entry ∈ entries, TextFits entry.1 ∧ containsNul entry.1 = false)
    (h : ∀ entry ∈ entries, ∀ rest, validate (entry.2.keyCode ++ rest) = .ok rest)
    (rest : List UInt8) :
    validateDocument validate room
      (ofBe 4 entries.length ++ (fieldsCode entries ++ rest)) = .ok rest := by
  simp only [validateDocument, hroom, ↓reduceIte, readU32_ofBe hlength, ok_bind,
    fieldsCode_eq_flatMap]
  refine times_flatMap ?_ rest
  intro entry hentry rest'
  simp [*, readString_textCode]

theorem validateArray_valuesCode {validate : List UInt8 → BsonResult (List UInt8)}
    {values : List Identity} (hroom : room ≠ 0) (hlength : values.length < 256 ^ 4)
    (h : ∀ value ∈ values, ∀ rest, validate (value.keyCode ++ rest) = .ok rest)
    (rest : List UInt8) :
    validateArray validate room
      (ofBe 4 values.length ++ (valuesCode values ++ rest)) = .ok rest := by
  simp only [validateArray, hroom, ↓reduceIte, readU32_ofBe hlength, ok_bind,
    valuesCode_eq_flatMap]
  exact times_flatMap h rest

/-- The validator accepts the word of every identity that fits, at its depth. -/
theorem KeyFits.validate {identity : Identity} (h : KeyFits depth identity)
    (hroom : room + depth = maxKeyNestingDepth) (rest : List UInt8) :
    validateValue (room + 1) (identity.keyCode ++ rest) = .ok rest := by
  induction h generalizing room rest with
  | number hdepth hrange => exact bind_eq_ok.mpr ⟨_, rfl, validateNumber_keyCode hrange rest⟩
  | string hdepth htext | javaScript hdepth htext =>
    exact bind_eq_ok.mpr ⟨_, rfl, bind_eq_ok.mpr ⟨_, readString_textCode htext rest, rfl⟩⟩
  | document hdepth hlength hnames hvalues ih =>
    obtain ⟨below, rfl⟩ : ∃ below, room = below + 1 := ⟨room - 1, by omega⟩
    rw [keyCode, cons_append, append_assoc]
    exact validateDocument_fieldsCode (Nat.succ_ne_zero below) hlength hnames
      (fun entry hentry => ih entry hentry (by omega)) rest
  | array hdepth hlength hvalues ih =>
    obtain ⟨below, rfl⟩ : ∃ below, room = below + 1 := ⟨room - 1, by omega⟩
    rw [keyCode, cons_append, append_assoc]
    exact validateArray_valuesCode (Nat.succ_ne_zero below) hlength
      (fun value hvalue => ih value hvalue (by omega)) rest
  | binary hdepth hlength =>
    refine bind_eq_ok.mpr ⟨_, rfl, bind_eq_ok.mpr ⟨_, rfl, ?_⟩⟩
    exact bind_eq_ok.mpr ⟨_, readBytes_block hlength rest, rfl⟩
  | @objectId _ value hdepth =>
    exact bind_eq_ok.mpr ⟨_, rfl, bind_eq_ok.mpr ⟨_, take_append value.length_eq rest, rfl⟩⟩
  | @boolean _ value hdepth => cases value <;> rfl
  | dateTime hdepth =>
    exact bind_eq_ok.mpr ⟨_, rfl, bind_eq_ok.mpr ⟨_, take_append (ofBe_length 8 _) rest, rfl⟩⟩
  | timestamp hdepth =>
    exact bind_eq_ok.mpr ⟨_, rfl, bind_eq_ok.mpr ⟨_, take_append (by simp) rest, rfl⟩⟩
  | regularExpression hdepth hbuilt hpattern hoptions =>
    rw [keyCode, cons_append, append_assoc]
    exact bind_eq_ok.mpr ⟨_, rfl, validateRegex_textCode hbuilt hpattern hoptions rest⟩
  | javaScriptWithScope hdepth hcode hlength hnames hvalues ih =>
    obtain ⟨below, rfl⟩ : ∃ below, room = below + 1 := ⟨room - 1, by omega⟩
    rw [keyCode, cons_append, append_assoc, append_assoc]
    refine bind_eq_ok.mpr ⟨_, rfl, bind_eq_ok.mpr ⟨_, readString_textCode hcode _, ?_⟩⟩
    exact validateDocument_fieldsCode (Nat.succ_ne_zero below) hlength hnames
      (fun entry hentry => ih entry hentry (by omega)) rest
  | _ => rfl

theorem CanonicalBsonKey.encode_spec {value : BsonValue} {key : CanonicalBsonKey}
    (hvalid : value.Valid) (h : CanonicalBsonKey.encode value = .ok key) :
    key.bytes = keyMagic ++ (ofBe 4 bsonKeyEncodingVersion ++ value.identity.keyCode) ∧
      key.bytes.length ≤ bsonMaxCanonicalKeyBytes ∧ KeyFits 0 value.identity := by
  have hversion := keyEmits_extend (ofBe 4 bsonKeyEncodingVersion)
  have hwriter := (keyEmits_extend keyMagic).andThen
    (hversion.andThen (keyEmits_value value 0 hvalid))
  obtain ⟨magic, hmagic, h⟩ := bind_eq_ok.mp h
  obtain ⟨header, hheader, h⟩ := bind_eq_ok.mp h
  obtain ⟨bytes, hbytes, h⟩ := bind_eq_ok.mp h
  cases h
  have hrun := hwriter [] bytes (Nat.zero_le _)
    (bind_eq_ok.mpr ⟨magic, hmagic, bind_eq_ok.mpr ⟨header, hheader, hbytes⟩⟩)
  exact ⟨hrun.1, hrun.2.1, hrun.2.2.2.2⟩

theorem CanonicalBsonKey.fromBytes_encode {value : BsonValue} {key : CanonicalBsonKey}
    (hvalid : value.Valid) (h : CanonicalBsonKey.encode value = .ok key) :
    CanonicalBsonKey.fromBytes key.bytes = .ok key := by
  obtain ⟨hbytes, hlength, hfits⟩ := encode_spec hvalid h
  have hvalidate := hfits.validate (Nat.add_zero maxKeyNestingDepth) []
  rw [append_nil] at hvalidate
  have hsize : ¬ key.bytes.length > bsonMaxCanonicalKeyBytes := not_lt.mpr hlength
  have hheader : ¬ key.bytes.length < keyHeaderLen := by
    rw [hbytes]
    simp [keyMagic, keyHeaderLen]
  have hfour : keyMagic.length = 4 := rfl
  have hmagic : key.bytes.take 4 = keyMagic := by rw [hbytes, take_left' hfour]
  have hversion : toBe ((key.bytes.drop 4).take 4) = bsonKeyEncodingVersion := by
    rw [hbytes, drop_left' hfour, take_left' (ofBe_length 4 _),
      toBe_ofBe_of_lt (by decide)]
  have hpayload : key.bytes.drop keyHeaderLen = value.identity.keyCode := by
    rw [hbytes, ← append_assoc]
    exact drop_left' rfl
  simp only [fromBytes, hsize, hheader, hmagic, hversion, hpayload, hvalidate, ok_bind,
    ne_eq, not_true_eq_false, ↓reduceIte]
  rfl

/-- Keys of accepted values are the same exactly for equal values, and they are
read back from storage unchanged. -/
theorem CanonicalBsonKey.encode_identifies {a b : BsonValue} {aKey bKey : CanonicalBsonKey}
    (ha : a.Valid) (hb : b.Valid) (haKey : CanonicalBsonKey.encode a = .ok aKey)
    (hbKey : CanonicalBsonKey.encode b = .ok bKey) :
    (aKey = bKey ↔ a.eq b = true) ∧ CanonicalBsonKey.fromBytes aKey.bytes = .ok aKey := by
  refine ⟨?_, fromBytes_encode ha haKey⟩
  obtain ⟨haBytes, _, haFits⟩ := encode_spec ha haKey
  obtain ⟨hbBytes, _, hbFits⟩ := encode_spec hb hbKey
  rw [BsonValue.eq_iff_identity]
  constructor
  · rintro rfl
    rw [haBytes] at hbBytes
    exact (haFits.separates hbFits).of_eq
      (append_cancel_left (append_cancel_left hbBytes))
  · intro hidentity
    obtain ⟨aBytes⟩ := aKey
    obtain ⟨bBytes⟩ := bKey
    grind

/-- Ten as an integer and ten as a double have one key. -/
theorem CanonicalBsonKey.encode_identifies_ten :
    let integer : BsonValue := .document [("n", .int32 10)]
    let double : BsonValue := .document [("n", .double ⟨0x4024000000000000⟩)]
    ∃ key, CanonicalBsonKey.encode integer = .ok key ∧
      CanonicalBsonKey.encode double = .ok key ∧ integer.eq double = true ∧
      CanonicalBsonKey.fromBytes key.bytes = .ok key := by
  intro integer double
  let key : CanonicalBsonKey :=
    ⟨[0x42, 0x42, 0x4b, 0x59, 0, 0, 0, 1, 4, 0, 0, 0, 1, 0, 0, 0, 1, 0x6e,
      2, 2, 1, 0, 0, 0, 1, 1, 0, 1, 0, 1]⟩
  have hinteger : CanonicalBsonKey.encode integer = .ok key := by decide +kernel
  have hdouble : CanonicalBsonKey.encode double = .ok key := by decide +kernel
  have hname : containsNul "n" = false := by decide +kernel
  have hintegerValid : integer.Valid := ⟨hname, trivial, trivial⟩
  have hdoubleValid : double.Valid := ⟨hname, trivial, trivial⟩
  obtain ⟨hiff, hread⟩ :=
    CanonicalBsonKey.encode_identifies hintegerValid hdoubleValid hinteger hdouble
  exact ⟨key, hinteger, hdouble, hiff.mp rfl, hread⟩

end BriskDB.Document
