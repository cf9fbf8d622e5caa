import BriskDB.Core.Error
import BriskDB.Document.OrderedCode
import BriskDB.Lib.Chunks
import BriskDB.Lib.Result

/-! # Document sort keys and their ordered bytes

A sort key is a list of components, each with its direction. Keys are compared
component by component, and they are encoded by a bounded encoder that calls back
into its caller while it works: it may be stopped at any check, and it may be
refused memory.
-/

namespace BriskDB.Document

open OrderCode ByteCode

def maxSortDepth : Nat := 100
def maxSortSteps : Nat := 1000000
def maxOrderedBytes : Nat := 16 * 1024 * 1024
def checkChunk : Nat := 4096
def orderedEncodingVersion : UInt32 := 1

def sortLimit : EngineError :=
  .new .limitExceeded "document sorting resource limit exceeded"

inductive Atom
  | emptyArray
  | value (value : BsonValue)

def compareAtom : Atom → Atom → Ordering
  | .emptyArray, .emptyArray => .eq
  | .emptyArray, .value .minKey => .gt
  | .emptyArray, .value _ => .lt
  | .value .minKey, .emptyArray => .lt
  | .value _, .emptyArray => .gt
  | .value left, .value right => left.cmp right

/-- An owned ordering key: direction (descending or not) and atom of each field. -/
structure DocumentSortKey where
  components : List (Bool × Atom)

def compareComponents : List (Bool × Atom) → List (Bool × Atom) → Ordering
  | (descending, left) :: components, (otherDirection, right) :: otherComponents =>
    let direction := compare descending otherDirection
    if direction ≠ .eq then direction
    else
      let order := compareAtom left right
      if order ≠ .eq then (if descending then order.swap else order)
      else compareComponents components otherComponents
  | components, otherComponents => compare components.length otherComponents.length

def DocumentSortKey.cmp (left right : DocumentSortKey) : Ordering :=
  compareComponents left.components right.components

/-- What the encoder asks of its surroundings: a cooperative check and an allocator. -/
structure EncoderHost (σ : Type) where
  check : σ → EngineResult σ
  tryReserveExact : σ → Nat → Option σ

structure Encoder (σ : Type) where
  bytes : List UInt8
  steps : Nat
  capacity : Nat
  maxBytes : Nat
  host : σ
  maxBytes_le : maxBytes ≤ maxOrderedBytes

namespace Encoder

variable {σ : Type} (host : EncoderHost σ)

def runCheck (encoder : Encoder σ) : EngineResult (Encoder σ) := do
  let state ← host.check encoder.host
  return { encoder with host := state }

def step (encoder : Encoder σ) : EngineResult (Encoder σ) := do
  let encoder ← encoder.runCheck host
  let encoder := { encoder with steps := encoder.steps + 1 }
  if encoder.steps > maxSortSteps then .error sortLimit else return encoder

def pushChunks : List (List UInt8) → Encoder σ → EngineResult (Encoder σ)
  | [], encoder => return encoder
  | chunk :: chunks, encoder => do
    let encoder ← encoder.runCheck host
    pushChunks chunks { encoder with bytes := encoder.bytes ++ chunk }

/-- Room for `needed` bytes, growing geometrically within the output bound. -/
def reserve (needed : Nat) (encoder : Encoder σ) : EngineResult (Encoder σ) :=
  if needed > encoder.capacity then
    let capacity := min (max needed (min (encoder.capacity * 2) (2 ^ 64 - 1))) encoder.maxBytes
    match host.tryReserveExact encoder.host (capacity - encoder.bytes.length) with
    | none => .error sortLimit
    | some state => .ok { encoder with capacity := capacity, host := state }
  else .ok encoder

def extend (bytes : List UInt8) (encoder : Encoder σ) : EngineResult (Encoder σ) := do
  let needed := saturatingAdd encoder.bytes.length bytes.length
  if needed > encoder.maxBytes then .error sortLimit
  else do
    let encoder ← encoder.reserve host needed
    pushChunks host (Chunks.chunks checkChunk bytes) encoder

/-- A run that ends in a zero byte is followed by the escape. -/
def pushRun (run : List UInt8) (encoder : Encoder σ) : EngineResult (Encoder σ) := do
  let encoder ← encoder.extend host run
  if run.getLast? = some 0 then encoder.extend host [255] else return encoder

def pushRuns : List (List UInt8) → Encoder σ → EngineResult (Encoder σ)
  | [], encoder => return encoder
  | run :: runs, encoder => do
    let encoder ← encoder.pushRun host run
    pushRuns runs encoder

def stringChunk (chunk : List UInt8) (encoder : Encoder σ) : EngineResult (Encoder σ) := do
  let encoder ← encoder.runCheck host
  if ¬chunk.contains 0 then encoder.extend host chunk
  else encoder.pushRuns host (Chunks.splitInclusive (· == 0) chunk)

def stringChunks : List (List UInt8) → Encoder σ → EngineResult (Encoder σ)
  | [], encoder => return encoder
  | chunk :: chunks, encoder => do
    let encoder ← encoder.stringChunk host chunk
    stringChunks chunks encoder

def string (bytes : List UInt8) (encoder : Encoder σ) : EngineResult (Encoder σ) := do
  let encoder ← encoder.stringChunks host (Chunks.chunks checkChunk bytes)
  encoder.extend host [0, 0]

def complementFrom (start : Nat) (encoder : Encoder σ) : Encoder σ :=
  { encoder with bytes := encoder.bytes.take start ++ complement (encoder.bytes.drop start) }

def number (value : CanonicalNumber) (encoder : Encoder σ) : EngineResult (Encoder σ) :=
  match value with
  | .nan => encoder.extend host [0]
  | .negativeInfinity => encoder.extend host [1]
  | .positiveInfinity => encoder.extend host [5]
  | .finite finite =>
    if finite.coefficient = 0 then encoder.extend host [3]
    else do
      let encoder ← encoder.extend host [if finite.negative then 2 else 4]
      let start := encoder.bytes.length
      let exponent := min finite.exponentTwo finite.exponentFive
      let integer := alignedMagnitude finite exponent exponent
      let digits := (Nat.digits 10 integer).reverse
      let scientificExponent := exponent + digits.length - 1
      let encoder ← encoder.extend host
        (Bytes.ofBe 4
          ((Int32.ofInt scientificExponent).toUInt32 ^^^ (1 : UInt32) <<< 31).toNat)
      let encoder ← encoder.string host (digits.map fun digit => UInt8.ofNat (48 + digit))
      let encoder := if finite.negative then encoder.complementFrom start else encoder
      encoder.runCheck host

/-- What every value begins with: a step, the depth check and the type rank. -/
def enter (value : BsonValue) (depth : Nat) (encoder : Encoder σ) :
    EngineResult (Encoder σ) := do
  let encoder ← encoder.step host
  if depth > maxSortDepth then .error sortLimit
  else
    let rank := value.typeRank
    encoder.extend host [if rank = 0 then 1 else UInt8.ofNat (rank + 2)]

mutual

def payload (value : BsonValue) (depth : Nat) (encoder : Encoder σ) : EngineResult (Encoder σ) :=
  match value.canonicalNumber with
  | some number => encoder.number host number
  | none =>
    match value.binaryParts with
    | some (subtype, bytes) => do
      let encoder ← encoder.extend host
        (Bytes.ofBe 8 (bytes.length + (if subtype = 2 then 4 else 0)))
      let encoder ← encoder.extend host [subtype]
      encoder.extend host bytes
    | none =>
      match value with
      | .string value => encoder.string host (Utf8.bytes value)
      | .document entries =>
        if depth + 1 > maxSortDepth then .error sortLimit
        else Encoder.documentEntries entries (depth + 1) encoder
      | .array values => Encoder.array values (depth + 1) encoder
      | .objectId value => encoder.extend host value.bytes
      | .boolean value => encoder.extend host [if value then 1 else 0]
      | .dateTime value =>
        encoder.extend host
          (Bytes.ofBe 8 (value.timestampMillis.toUInt64 ^^^ (1 : UInt64) <<< 63).toNat)
      | .timestamp value => do
        let encoder ← encoder.extend host (Bytes.ofBe 4 value.time.toNat)
        encoder.extend host (Bytes.ofBe 4 value.increment.toNat)
      | .regularExpression value => do
        let encoder ← encoder.string host (Utf8.bytes value.pattern)
        encoder.string host (Utf8.bytes value.options)
      | .javaScript code none => encoder.string host (Utf8.bytes code)
      | .javaScript code (some scope) => do
        let encoder ← encoder.string host (Utf8.bytes code)
        if depth + 1 > maxSortDepth then .error sortLimit
        else Encoder.documentEntries scope (depth + 1) encoder
      | _ => .ok encoder

def documentEntries : List (String × BsonValue) → Nat → Encoder σ → EngineResult (Encoder σ)
  | [], _, encoder => encoder.extend host [0]
  | (name, value) :: entries, depth, encoder => do
    let encoder ← encoder.extend host [UInt8.ofNat (value.typeRank + 1)]
    let encoder ← encoder.string host (Utf8.bytes name)
    let encoder ← encoder.enter host value depth
    let encoder ← Encoder.payload value depth encoder
    Encoder.documentEntries entries depth encoder

def array : List BsonValue → Nat → Encoder σ → EngineResult (Encoder σ)
  | [], _, encoder => encoder.extend host [0]
  | value :: values, depth, encoder => do
    let encoder ← encoder.enter host value depth
    let encoder ← Encoder.payload value depth encoder
    Encoder.array values depth encoder

end

def value (value : BsonValue) (depth : Nat) (encoder : Encoder σ) :
    EngineResult (Encoder σ) := do
  let encoder ← encoder.enter host value depth
  encoder.payload host value depth

def atom (atom : Atom) (encoder : Encoder σ) : EngineResult (Encoder σ) :=
  match atom with
  | .emptyArray => encoder.extend host [2]
  | .value value => encoder.value host value 0

/-- Complement a descending component, checking once for each chunk. -/
def complementChunks : List (List UInt8) → Encoder σ → EngineResult (Encoder σ)
  | [], encoder => return encoder
  | chunk :: chunks, encoder => do
    let encoder ← encoder.runCheck host
    complementChunks chunks { encoder with bytes := encoder.bytes ++ complement chunk }

/-- Everything written since `start`, complemented for a descending component. -/
def orient (descending : Bool) (start : Nat) (encoder : Encoder σ) : EngineResult (Encoder σ) :=
  if descending then
    complementChunks host (Chunks.chunks checkChunk (encoder.bytes.drop start))
      { encoder with bytes := encoder.bytes.take start }
  else .ok encoder

def components : List (Bool × Atom) → Encoder σ → EngineResult (Encoder σ)
  | [], encoder => return encoder
  | (descending, atom) :: rest, encoder => do
    let encoder ← encoder.step host
    let encoder ← encoder.extend host [1, if descending then 1 else 0]
    let start := encoder.bytes.length
    let encoder ← encoder.atom host atom
    let encoder ← encoder.orient host descending start
    components rest encoder

end Encoder

def orderedMagic : List UInt8 := [0x42, 0x42, 0x53, 0x4f]

def DocumentSortKey.orderedBytesBounded {σ : Type} (host : EncoderHost σ) (state : σ)
    (maxBytes : Nat) (key : DocumentSortKey) : EngineResult (List UInt8) := do
  let encoder : Encoder σ :=
    { bytes := []
      steps := 0
      capacity := 0
      maxBytes := min maxBytes maxOrderedBytes
      host := state
      maxBytes_le := Nat.min_le_right _ _ }
  let encoder ← encoder.extend host orderedMagic
  let encoder ← encoder.extend host (Bytes.ofBe 4 orderedEncodingVersion.toNat)
  let encoder ← encoder.components host key.components
  let encoder ← encoder.extend host [0]
  let encoder ← encoder.runCheck host
  return encoder.bytes

end BriskDB.Document
