import BriskDB.Lib.Blake3
import BriskDB.Lib.Bloom
import BriskDB.Lib.Transition
import BriskDB.Storage.Capture

/-! # Shard summaries

A shard keeps, for an index, a Bloom filter and the extreme keys of its rows. A rebuild
resets the summary, scans the rows, and publishes what it scanned merged with what writes
recorded meanwhile. A published summary may exclude the shard from a read.
-/

namespace BriskDB.Storage

open ByteOrder IndexKey

def shardSummaryBloomBytes : Nat := 16 * 1024

def bloomWidth : Nat := shardSummaryBloomBytes * 8

def bloomHashes : Nat := 7

def saturationPercent : Nat := 95

/-- The bytes of `briskdb.shard-summary.bloom.v1` and a terminating zero. -/
def bloomDomain : List UInt8 := "briskdb.shard-summary.bloom.v1".toUTF8.toList ++ [0]

abbrev Bloom := Bloom.Filter bloomWidth

instance : NeZero bloomWidth := ⟨by decide⟩

variable (blake3 : List UInt8 → Blake3.Digest)

/-- The bit positions of a key: two words of its digest, the second odd, with wrapping. -/
def bloomPositions (key : List UInt8) : List (Fin bloomWidth) :=
  let bytes := (blake3 (bloomDomain ++ key)).val
  let first := UInt64.ofNat (Bytes.toLe (bytes.take 8))
  let second := UInt64.ofNat (Bytes.toLe ((bytes.drop 8).take 8)) ||| 1
  (List.range bloomHashes).map fun ordinal =>
    Fin.ofNat bloomWidth (first + UInt64.ofNat ordinal * second).toNat

def Bloom.saturated (bloom : Bloom) : Bool :=
  bloom.setBits * 100 ≥ bloomWidth * saturationPercent

def mergeMin (target candidate : Option (List UInt8)) : Option (List UInt8) :=
  match candidate, target with
  | none, target => target
  | some candidate, none => some candidate
  | some candidate, some current => if candidate < current then some candidate else some current

def mergeMax (target candidate : Option (List UInt8)) : Option (List UInt8) :=
  match candidate, target with
  | none, target => target
  | some candidate, none => some candidate
  | some candidate, some current => if current < candidate then some candidate else some current

structure SummaryAccumulator where
  bloom : Bloom
  minKey : Option (List UInt8)
  maxKey : Option (List UInt8)

namespace SummaryAccumulator

def new : SummaryAccumulator := ⟨.empty, none, none⟩

def insert (accumulator : SummaryAccumulator) (key : CanonicalIndexKey) : SummaryAccumulator where
  bloom := accumulator.bloom.insert (bloomPositions blake3 key.bytes)
  minKey := mergeMin accumulator.minKey (some key.bytes)
  maxKey := mergeMax accumulator.maxKey (some key.bytes)

end SummaryAccumulator

inductive SummaryState
  | building
  | ready
  | stale
  deriving DecidableEq, Repr

/-- A row of the summary table, whose version and number of hashes are constants. -/
structure SummaryRow where
  definitionDigest : List UInt8
  summaryState : SummaryState
  bloomBits : BitVec bloomWidth
  bloomSetBits : Nat
  minKey : Option (List UInt8)
  maxKey : Option (List UInt8)
  observedRows : Nat
  additions : Nat
  saturated : Bool

structure Summary where
  state : SummaryState
  definitionDigest : List UInt8
  bloom : Bloom
  minKey : Option (List UInt8)
  maxKey : Option (List UInt8)
  observedRows : Nat
  additions : Nat
  saturated : Bool

def summaryCorrupt (message : String) : EngineError := .new .dataCorruption message

def Bloom.fromParts (bits : BitVec bloomWidth) (setBits : Nat) : EngineResult Bloom :=
  if setBits > bloomWidth then .error (summaryCorrupt "shard summary has invalid Bloom metadata")
  else if h : Bloom.count bits = setBits then .ok ⟨bits, setBits, h⟩
  else .error (summaryCorrupt "shard summary Bloom bit count is inconsistent")

def extremesValid : Option (List UInt8) → Option (List UInt8) → Bool
  | none, none => true
  | some min, some max => min ≠ [] && max ≠ [] && !decide (max < min)
  | _, _ => false

def SummaryRow.readSummary (row : SummaryRow) : EngineResult Summary :=
  if row.definitionDigest.length ≠ 32 ∨ row.bloomSetBits > bloomWidth ∨
      extremesValid row.minKey row.maxKey = false then
    .error (summaryCorrupt "shard summary row is invalid or incompatible")
  else do
    let bloom ← Bloom.fromParts row.bloomBits row.bloomSetBits
    return { row with state := row.summaryState, bloom }

def SummaryRow.markStale (row : SummaryRow) : SummaryRow := { row with summaryState := .stale }

/-- The identity of an index and the digest of its definition. -/
structure SummaryIndex where
  id : Nat
  definitionDigest : Blake3.Digest

def toSqliteU64 (value : Nat) (label : String) : EngineResult Nat :=
  if value < 2 ^ 63 then .ok value
  else .error (.new .numericOutOfRange s!"{label} exceeds SQLite's signed integer range")

section Operations

variable (blake3 : List UInt8 → Blake3.Digest) (index : SummaryIndex)

def beginRebuild : SummaryRow where
  definitionDigest := index.definitionDigest.val
  summaryState := .building
  bloomBits := Bloom.Filter.empty.bits
  bloomSetBits := 0
  minKey := none
  maxKey := none
  observedRows := 0
  additions := 0
  saturated := false

def SummaryAccumulator.mergeSummary (scanned : SummaryAccumulator) (summary : Summary) :
    SummaryAccumulator where
  bloom := scanned.bloom.merge summary.bloom
  minKey := mergeMin scanned.minKey summary.minKey
  maxKey := mergeMax scanned.maxKey summary.maxKey

variable (stored : Option SummaryRow)

def finishRebuild (scanned : SummaryAccumulator) (observedRows : Nat) : EngineResult SummaryRow :=
  match stored with
  | none => .error (summaryCorrupt "shard summary disappeared during rebuild")
  | some row => do
    let current ← row.readSummary
    if current.state ≠ .building ∨ current.definitionDigest ≠ index.definitionDigest.val then
      throw (.new .busy s!"global-index shard summary {index.id} changed during rebuild")
    let scanned := scanned.mergeSummary current
    let observedRows ← toSqliteU64 observedRows "summary observed rows"
    return { row with
      summaryState := .ready
      bloomBits := scanned.bloom.bits
      bloomSetBits := scanned.bloom.setBits
      minKey := scanned.minKey
      maxKey := scanned.maxKey
      observedRows
      saturated := scanned.bloom.saturated }

/-- Record one key. -/
def recordAddition (key : CanonicalIndexKey) : EngineResult (Option SummaryRow) :=
  match stored with
  | none => return none
  | some row =>
    match row.readSummary with
    | .error error =>
      if error.kind = .dataCorruption then return some row.markStale else throw error
    | .ok summary =>
      if summary.state = .stale then return some row
      else do
        let accumulator :=
          SummaryAccumulator.insert blake3 ⟨summary.bloom, summary.minKey, summary.maxKey⟩ key
        let additions ← toSqliteU64 (summary.additions + 1) "summary additions"
        return some { row with
          bloomBits := accumulator.bloom.bits
          bloomSetBits := accumulator.bloom.setBits
          minKey := accumulator.minKey
          maxKey := accumulator.maxKey
          additions
          saturated := accumulator.bloom.saturated }

def recordAdditions (additions : List CanonicalIndexKey) : EngineResult (Option SummaryRow) :=
  additions.foldlM (recordAddition blake3) stored

end Operations

structure SummaryBound where
  key : CanonicalIndexKey
  inclusive : Bool

inductive SummaryPredicate
  | equality (keys : List CanonicalIndexKey)
  | range (lower upper : Option SummaryBound)

inductive PruningReason
  | emptySummary
  | bloomMiss
  | maximumBelowLowerBound
  | minimumAboveUpperBound
  deriving DecidableEq, Repr

def SummaryBound.excludesMax (bound : SummaryBound) (maxKey : List UInt8) : Bool :=
  maxKey < bound.key.bytes || (!bound.inclusive && maxKey == bound.key.bytes)

def SummaryBound.excludesMin (bound : SummaryBound) (minKey : List UInt8) : Bool :=
  bound.key.bytes < minKey || (!bound.inclusive && minKey == bound.key.bytes)

def exclusionReason (blake3 : List UInt8 → Blake3.Digest) (summary : Summary)
    (predicate : SummaryPredicate) : Option PruningReason :=
  if summary.observedRows = 0 ∧ summary.additions = 0 then some .emptySummary
  else
    match predicate with
    | .equality keys =>
      if summary.saturated then none
      else if keys.any fun key => summary.bloom.mayContain (bloomPositions blake3 key.bytes) then
        none
      else some .bloomMiss
    | .range lower upper =>
      match summary.minKey, summary.maxKey with
      | some minKey, some maxKey =>
        if lower.any (·.excludesMax maxKey) then some .maximumBelowLowerBound
        else if upper.any (·.excludesMin minKey) then some .minimumAboveUpperBound
        else none
      | _, _ => none

structure SummaryResolution where
  retained : List Nat
  pruned : List (Nat × PruningReason)
  examined : Nat

/-- Split the target shards into those to be read and those that a summary excludes. -/
def resolve (blake3 : List UInt8 → Blake3.Digest) (index : SummaryIndex) (shardCount : Nat)
    (summaries : Nat → Option SummaryRow) (predicate : SummaryPredicate) :
    List Nat → SummaryResolution → EngineResult SummaryResolution
  | [], resolution => return resolution
  | shard :: shards, resolution =>
    if shard ≥ shardCount then
      throw (.new .internal "shard-summary routing received an out-of-range shard")
    else
      match (summaries shard).map SummaryRow.readSummary with
      | some (.ok summary) =>
        if summary.state = .ready ∧ summary.definitionDigest = index.definitionDigest.val then
          match exclusionReason blake3 summary predicate with
          | some reason =>
            resolve blake3 index shardCount summaries predicate shards
              { resolution with
                pruned := resolution.pruned ++ [(shard, reason)]
                examined := resolution.examined + 1 }
          | none =>
            resolve blake3 index shardCount summaries predicate shards
              { resolution with
                retained := resolution.retained ++ [shard]
                examined := resolution.examined + 1 }
        else
          resolve blake3 index shardCount summaries predicate shards
            { resolution with retained := resolution.retained ++ [shard] }
      | _ =>
        resolve blake3 index shardCount summaries predicate shards
          { resolution with retained := resolution.retained ++ [shard] }

def SummaryPredicate.Satisfied : SummaryPredicate → CanonicalIndexKey → Prop
  | .equality keys, key => ∃ candidate ∈ keys, candidate.bytes = key.bytes
  | .range lower upper, key =>
    (∀ bound ∈ lower, bound.key.bytes < key.bytes ∨
      bound.inclusive = true ∧ bound.key.bytes = key.bytes) ∧
    ∀ bound ∈ upper, key.bytes < bound.key.bytes ∨
      bound.inclusive = true ∧ key.bytes = bound.key.bytes

inductive RebuildPhase
  | idle
  | begun
  | scanned (accumulator : SummaryAccumulator) (rows : Nat)
  | stopped

structure SummarySystem {ρ : Type} (source : IndexSource ρ) where
  table : RowTable source
  summary : Option SummaryRow
  rebuilds : Nat → RebuildPhase

inductive SummaryAction (ρ : Type)
  | write (changes : List (CapturedPhysicalChange ρ))
  | markStale
  | begin (call : Nat)
  | scan (call : Nat)
  | finish (call : Nat)
  | stop (call : Nat)

namespace SummarySystem

variable {ρ : Type} [DecidableEq ρ] {source : IndexSource ρ}

def scanSourceKeys (table : RowTable source) : EngineResult (List CanonicalIndexKey) := do
  let keys ← table.rows.mapM source.key
  return keys.filterMap id

def initial (table : RowTable source) : SummarySystem source where
  table := table
  summary := none
  rebuilds _ := .idle

def setRebuild (system : SummarySystem source) (call : Nat) (phase : RebuildPhase) :
    SummarySystem source :=
  { system with rebuilds := Function.update system.rebuilds call phase }

variable (blake3 : List UInt8 → Blake3.Digest) (index : SummaryIndex) (shard : Nat)

def maintain (system : SummarySystem source) (changes : List (CapturedPhysicalChange ρ)) :
    EngineResult (Option SummaryRow) := do
  let additions ← planGlobalIndexWriteImpact source shard changes
  recordAdditions blake3 system.summary additions

def step (system : SummarySystem source) : SummaryAction ρ → Option (SummarySystem source)
  | .write changes =>
    match system.table.applyChanges changes with
    | none => none
    | some table =>
      match system.maintain blake3 shard changes with
      | .ok summary => some { system with table, summary }
      | .error _ => some system
  | .markStale => some { system with summary := system.summary.map SummaryRow.markStale }
  | .begin call =>
    match system.rebuilds call with
    | .idle => some ({ system with summary := some (beginRebuild index) }.setRebuild call .begun)
    | _ => none
  | .scan call =>
    match system.rebuilds call with
    | .begun =>
      match scanSourceKeys system.table with
      | .ok keys =>
        some (system.setRebuild call
          (.scanned (keys.foldl (SummaryAccumulator.insert blake3) .new) keys.length))
      | .error _ => some (system.setRebuild call .stopped)
    | _ => none
  | .finish call =>
    match system.rebuilds call with
    | .scanned accumulator rows =>
      match finishRebuild index system.summary accumulator rows with
      | .ok row => some ({ system with summary := some row }.setRebuild call .stopped)
      | .error _ => some (system.setRebuild call .stopped)
    | _ => none
  | .stop call => some (system.setRebuild call .stopped)

end SummarySystem

end BriskDB.Storage
