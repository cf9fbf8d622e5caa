import BriskDB.Document.IndexPreparation
import BriskDB.Lib.Table
import BriskDB.Storage.OrderedReads

/-! # Stored index entries

A shard keeps the records of its collections, the equality entries of their indexes and, once
an index with ordered keys has been built, the ordered entries. Every entry is bound to its
record by a checksum over the entry and the checksum of the record. The validator compares the
entries of one record with those that its document prepares, in both directions.
-/

namespace BriskDB.Storage

open Document Result List

def DocumentRow.isOf (row : DocumentRow) (collectionId : Nat) (idKey : List UInt8) : Bool :=
  row.collectionId = collectionId ∧ row.idKey = idKey

/-- The primary key and the unique natural order of `briskdb_documents_v1`. -/
def DocumentRow.Conflicts (left right : DocumentRow) : Prop :=
  left.collectionId = right.collectionId ∧
    (left.idKey = right.idKey ∨ left.naturalOrder = right.naturalOrder)

instance : DecidableRel DocumentRow.Conflicts := fun _ _ => inferInstanceAs (Decidable (_ ∧ _))

/-- The lengths that the schema allows for a canonical `_id`. -/
def IdKeyAllowed (idKey : List UInt8) : Prop := 9 ≤ idKey.length ∧ idKey.length ≤ 16777216

instance : DecidablePred IdKeyAllowed := fun _ => inferInstanceAs (Decidable (_ ∧ _))

def DocumentRow.Allowed (row : DocumentRow) : Prop :=
  0 < row.collectionId ∧ IdKeyAllowed row.idKey ∧ 0 < row.naturalOrder ∧
    (5 ≤ row.documentBson.length ∧ row.documentBson.length ≤ 16777216) ∧
    row.documentChecksum.length = 32 ∧ row.storageFormatVersion = 1

instance : DecidablePred DocumentRow.Allowed := fun _ => inferInstanceAs (Decidable (_ ∧ _))

/-- A row of `briskdb_document_index_entries_v1`. -/
structure EqualityEntry where
  collectionId : Nat
  indexId : Nat
  idKey : List UInt8
  indexKey : List UInt8
  entryChecksum : List UInt8
  entryFormatVersion : Int
  deriving DecidableEq

namespace EqualityEntry

def isOf (entry : EqualityEntry) (collectionId : Nat) (idKey : List UInt8) : Bool :=
  entry.collectionId = collectionId ∧ entry.idKey = idKey

def Conflicts (left right : EqualityEntry) : Prop :=
  left.collectionId = right.collectionId ∧ left.indexId = right.indexId ∧
    left.indexKey = right.indexKey ∧ left.idKey = right.idKey

instance : DecidableRel Conflicts := fun _ _ => inferInstanceAs (Decidable (_ ∧ _))

def Allowed (entry : EqualityEntry) : Prop :=
  0 < entry.collectionId ∧ 0 < entry.indexId ∧ IdKeyAllowed entry.idKey ∧
    (13 ≤ entry.indexKey.length ∧ entry.indexKey.length ≤ 67108864) ∧
    entry.entryChecksum.length = 32 ∧ entry.entryFormatVersion = 1

instance : DecidablePred Allowed := fun _ => inferInstanceAs (Decidable (_ ∧ _))

end EqualityEntry

namespace OrderedEntry

def ofRecord (entry : OrderedEntry) (collectionId : Nat) (idKey : List UInt8) : Bool :=
  entry.collectionId = collectionId ∧ entry.idKey = idKey

def Conflicts (left right : OrderedEntry) : Prop :=
  left.collectionId = right.collectionId ∧ left.idKey = right.idKey ∧
    left.indexId = right.indexId ∧ left.direction = right.direction

instance : DecidableRel Conflicts := fun _ _ => inferInstanceAs (Decidable (_ ∧ _))

def sortKeyAllowed : Option (List UInt8) → Bool
  | none => true
  | some key => 9 ≤ key.length ∧ key.length ≤ 65536

def Allowed (entry : OrderedEntry) : Prop :=
  0 < entry.collectionId ∧ IdKeyAllowed entry.idKey ∧ 0 < entry.indexId ∧ entry.direction ≤ 1 ∧
    sortKeyAllowed entry.sortKey ∧ 0 < entry.naturalOrder ∧ entry.entryChecksum.length = 32 ∧
    entry.entryFormatVersion = 1

instance : DecidablePred Allowed := fun _ => inferInstanceAs (Decidable (_ ∧ _))

end OrderedEntry

/-- The document tables of a shard. -/
structure IndexedShard where
  documents : Table DocumentRow.Conflicts DocumentRow.Allowed
  equalityEntries : Table EqualityEntry.Conflicts EqualityEntry.Allowed
  orderedEntries : Option (Table OrderedEntry.Conflicts OrderedEntry.Allowed)

namespace IndexedShard

def orderedRows (shard : IndexedShard) : List OrderedEntry :=
  match shard.orderedEntries with
  | none => []
  | some table => table.rows

def documentRow (shard : IndexedShard) (collectionId : Nat) (idKey : List UInt8) :
    Option DocumentRow :=
  shard.documents.rows.find? (·.isOf collectionId idKey)

end IndexedShard

/-- What the checksum of an equality entry is taken over. -/
def entryBytes (collectionId indexId shard : Nat) (idKey indexKey record : List UInt8) :
    List UInt8 :=
  Utf8.bytes "briskdb.document-index-entry.v1\x00" ++ Bytes.ofLe 4 1 ++
    Bytes.ofLe 8 collectionId ++ Bytes.ofLe 8 indexId ++ Bytes.ofLe 2 shard ++
    hashBytes idKey ++ hashBytes indexKey ++ record

section Definitions

variable (blake3 : List UInt8 → Digest)

def entryChecksum (collectionId indexId shard : Nat) (idKey indexKey record : List UInt8) :
    List UInt8 :=
  (blake3 (entryBytes collectionId indexId shard idKey indexKey record)).1

variable (collectionId shardId : Nat) (idKey record : List UInt8)

def equalityEntry (indexId : Nat) (key : List UInt8) : EqualityEntry where
  collectionId := collectionId
  indexId := indexId
  idKey := idKey
  indexKey := key
  entryChecksum := entryChecksum blake3 collectionId indexId shardId idKey key record
  entryFormatVersion := 1

def equalityRows (indexes : List PreparedDocumentIndexKeys) : List EqualityEntry :=
  indexes.flatMap fun index =>
    index.keys.map (equalityEntry blake3 collectionId shardId idKey record index.indexId)

variable (natural : Int)

def orderedEntry (indexId : Nat) (key : Option (List UInt8) × Nat) : OrderedEntry where
  collectionId := collectionId
  idKey := idKey
  indexId := indexId
  direction := key.2
  sortKey := key.1
  naturalOrder := natural
  entryChecksum :=
    orderedChecksum blake3 collectionId indexId shardId idKey key.2 key.1 natural record
  entryFormatVersion := 1

/-- One entry for each direction of each index that keeps ordered keys. -/
def orderedRows (indexes : List PreparedDocumentIndexKeys) : List OrderedEntry :=
  indexes.flatMap fun index =>
    match index.ordered with
    | none => []
    | some keys =>
      keys.zipIdx.map (orderedEntry blake3 collectionId shardId idKey record natural index.indexId)

variable (shard : IndexedShard)

def insertSelectedOrdered (selected : List PreparedDocumentIndexKeys) : EngineResult IndexedShard :=
  if selected.all (·.ordered.isNone) then .ok shard
  else
    match shard.documentRow collectionId idKey, shard.orderedEntries with
    | none, _ => .error (corrupt "ordered index record is missing")
    | _, none => .error (.new .internal "no such table: briskdb_document_ordered_entries_v1")
    | some row, some table =>
      match table.insertAll
        (orderedRows blake3 collectionId shardId idKey record row.naturalOrder selected) with
      | none => .error (corrupt "failed to store ordered document index entry")
      | some table => .ok { shard with orderedEntries := some table }

variable (prepared : PreparedDocumentIndexEntries)

/-- The indexes whose entries are written: all of them, or the one that is being built. -/
def selectedIndexes (only : Option Nat) : List PreparedDocumentIndexKeys :=
  prepared.indexes.filter fun index => only.all (· = index.indexId)

def insertSelectedEntries (only : Option Nat) : EngineResult IndexedShard := do
  if prepared.collectionId ≠ collectionId then
    throw (corrupt "prepared document index entries belong to another collection")
  if only.any fun id => !prepared.indexes.any (·.indexId = id) then
    throw (corrupt "document index build preparation omitted its target")
  let selected := selectedIndexes prepared only
  match shard.equalityEntries.insertAll
    (equalityRows blake3 collectionId shardId idKey record selected) with
  | none => throw (corrupt "failed to store a document index entry")
  | some equalityEntries =>
    insertSelectedOrdered blake3 collectionId shardId idKey record
      { shard with equalityEntries } selected

def insertEntries : EngineResult IndexedShard :=
  insertSelectedEntries blake3 collectionId shardId idKey record shard prepared none

def removeRecordEntries : IndexedShard where
  documents := shard.documents
  equalityEntries := shard.equalityEntries.delete (·.isOf collectionId idKey)
  orderedEntries := shard.orderedEntries.map fun table =>
    table.delete (·.ofRecord collectionId idKey)

def maxRecordEntries : Nat := 16384

/-- The keys of one index that are expected; `found` keys are expected already. -/
def expectKey (found : Nat) (keys : List (List UInt8)) (key : List UInt8) :
    EngineResult (List (List UInt8)) := do
  if found + keys.length ≥ maxRecordEntries then
    throw (corrupt "document index entry coverage exceeds its bound")
  if key ∈ keys then throw (corrupt "prepared document index keys contain a duplicate")
  return keys ++ [key]

/-- The missing keys, each with its index, and the indexes that were seen. -/
structure Missing where
  ids : List Nat
  keys : List (Nat × List UInt8)

def expectIndex (missing : Missing) (index : PreparedDocumentIndexKeys) : EngineResult Missing := do
  let keys ← index.keys.foldlM (expectKey missing.keys.length) []
  if index.indexId ∈ missing.ids then
    throw (corrupt "prepared document index identities contain a duplicate")
  return ⟨missing.ids ++ [index.indexId], missing.keys ++ keys.map (index.indexId, ·)⟩

variable (expected : Option PreparedDocumentIndexEntries)

def expectedKeys : EngineResult (List (Nat × List UInt8)) :=
  match expected with
  | none => .ok []
  | some entries => do
    if entries.collectionId ≠ collectionId then
      throw (corrupt "document index validation used a different collection")
    let missing ← entries.indexes.foldlM expectIndex ⟨[], []⟩
    return missing.keys

/-- A stored row takes its key from the missing ones. -/
def validateEqualityRow (missing : List (Nat × List UInt8)) (row : EqualityEntry) :
    EngineResult (List (Nat × List UInt8)) := do
  if row.indexId = 0 then throw (corrupt "invalid document index identity")
  if row.entryFormatVersion ≠ 1 ∨ (row.indexId, row.indexKey) ∉ missing ∨
      row.entryChecksum ≠
        entryChecksum blake3 collectionId row.indexId shardId idKey row.indexKey record then
    throw (corrupt "document index entries are stale, damaged, or lack catalog authority")
  return missing.erase (row.indexId, row.indexKey)

def validateEqualityRows (rows : List EqualityEntry) : EngineResult Unit := do
  let missing ← expectedKeys collectionId expected
  let missing ← rows.foldlM (validateEqualityRow blake3 collectionId shardId idKey record) missing
  if missing.length ≠ 0 then
    throw (corrupt "document index is missing authoritative record entries")

def compareEquality (left right : EqualityEntry) : Bool :=
  ((compare left.indexId right.indexId).then (compare left.indexKey right.indexKey)).isLE

/-- The equality entries of a record, as the bounded query returns them. -/
def recordEntries : List EqualityEntry :=
  ((shard.equalityEntries.rows.filter (·.isOf collectionId idKey)).mergeSort compareEquality).take
    (maxRecordEntries + 1)

def validateOrderedRow (row : OrderedEntry) (count : Nat) : EngineResult Unit := do
  if !OrderedEntry.sortKeyAllowed row.sortKey then
    throw (corrupt "ordered index key has an invalid type or size")
  match (expected.elim [] (·.indexes)).find? (·.indexId = row.indexId) >>= (·.ordered) with
  | none => throw (corrupt "ordered index entry has no active authority")
  | some keys =>
    if row.direction > 1 ∨ natural ≤ 0 ∨ count > 128 ∨ row.entryFormatVersion ≠ 1 ∨
        row.naturalOrder ≠ natural ∨ keys[row.direction]? ≠ some row.sortKey ∨
        row.entryChecksum ≠ orderedChecksum blake3 collectionId row.indexId shardId idKey
          row.direction row.sortKey natural record then
      throw (corrupt "ordered document index entry is stale or damaged")

def expectedOrderedCount : Nat :=
  ((expected.elim [] (·.indexes)).filter (·.ordered.isSome)).length * 2

def compareOrdered (left right : OrderedEntry) : Bool :=
  ((compare left.indexId right.indexId).then (compare left.direction right.direction)).isLE

def recordOrderedEntries (table : Table OrderedEntry.Conflicts OrderedEntry.Allowed) :
    List OrderedEntry :=
  ((table.rows.filter (·.ofRecord collectionId idKey)).mergeSort compareOrdered).take 129

/-- The number of validated rows, with the natural order of the record. -/
def validateOrderedRows (count : Nat) (row : OrderedEntry) : EngineResult Nat :=
  match shard.documentRow collectionId idKey with
  | none => .error (corrupt "ordered index record is missing")
  | some found => do
    validateOrderedRow blake3 collectionId shardId idKey record found.naturalOrder expected row
      (count + 1)
    return count + 1

def validateOrderedRecord : EngineResult Unit :=
  match shard.orderedEntries with
  | none =>
    if expectedOrderedCount expected = 0 then .ok ()
    else .error (corrupt "ordered index coverage is missing")
  | some table => do
    let count ← (recordOrderedEntries collectionId idKey table).foldlM
      (validateOrderedRows blake3 collectionId shardId idKey record shard expected) 0
    if count ≠ expectedOrderedCount expected then
      throw (corrupt "ordered document index coverage is incomplete")

def validateRecordEntries :
    EngineResult Unit := do
  validateEqualityRows blake3 collectionId shardId idKey record expected
    (recordEntries collectionId idKey shard)
  validateOrderedRecord blake3 collectionId shardId idKey record shard expected

end Definitions

section Bindings

open PrefixCode Separates

variable {blake3 : List UInt8 → Digest} {hashed : Set (List UInt8)}

/-- The place, the key and the record that an equality entry is written for. -/
@[ext]
structure EntryBinding where
  collectionId : Nat
  indexId : Nat
  shard : Nat
  idKey : List UInt8
  indexKey : List UInt8
  record : List UInt8
  collectionId_lt : collectionId < 256 ^ 8
  indexId_lt : indexId < 256 ^ 8
  shard_lt : shard < 256 ^ 2
  idKey_lt : idKey.length < 256 ^ 8
  indexKey_lt : indexKey.length < 256 ^ 8

namespace EntryBinding

def bytes (binding : EntryBinding) : List UInt8 :=
  entryBytes binding.collectionId binding.indexId binding.shard binding.idKey binding.indexKey
    binding.record

def checksum (blake3 : List UInt8 → Digest) (binding : EntryBinding) : List UInt8 :=
  entryChecksum blake3 binding.collectionId binding.indexId binding.shard binding.idKey
    binding.indexKey binding.record

theorem bytes_injective : Function.Injective bytes := by
  intro left right heq
  have hwords :=
    (of_length_eq (x := Utf8.bytes "briskdb.document-index-entry.v1\x00") rfl).append fun _ =>
    (of_length_eq (x := Bytes.ofLe 4 1) rfl).append fun _ =>
    (separates_ofLe left.collectionId_lt right.collectionId_lt).append fun _ =>
    (separates_ofLe left.indexId_lt right.indexId_lt).append fun _ =>
    (separates_ofLe left.shard_lt right.shard_lt).append fun _ =>
    (separates_sized left.idKey_lt right.idKey_lt).append fun _ =>
    separates_sized left.indexKey_lt right.indexKey_lt
  obtain ⟨⟨-, -, hcollection, hindex, hshard, hid, hkey⟩, hrecord⟩ :=
    hwords left.record right.record
      (by simpa only [bytes, entryBytes, hashBytes, append_assoc] using heq)
  exact EntryBinding.ext hcollection hindex hshard hid hkey hrecord

/-- Among hashed inputs that do not collide a checksum belongs to one record and key. -/
theorem eq_of_checksum (hfree : hashed.InjOn blake3) {left right : EntryBinding}
    (hleft : left.bytes ∈ hashed) (hright : right.bytes ∈ hashed)
    (h : left.checksum blake3 = right.checksum blake3) : left = right :=
  bytes_injective (hfree hleft hright (Subtype.ext h))

end EntryBinding

/-- The place, the direction, the key, the natural order and the record that an ordered entry is
written for. -/
@[ext]
structure OrderedBinding where
  collectionId : Nat
  indexId : Nat
  shard : Nat
  idKey : List UInt8
  direction : Nat
  key : Option (List UInt8)
  naturalOrder : Int
  record : List UInt8
  collectionId_lt : collectionId < 256 ^ 8
  indexId_lt : indexId < 256 ^ 8
  shard_lt : shard < 256 ^ 2
  idKey_lt : idKey.length < 256 ^ 8
  direction_lt : direction < 256
  key_lt : ∀ bytes ∈ key, bytes.length < 256 ^ 8
  naturalOrder_ge : -2 ^ 63 ≤ naturalOrder
  naturalOrder_lt : naturalOrder < 2 ^ 63

namespace OrderedBinding

def bytes (binding : OrderedBinding) : List UInt8 :=
  orderedBytes binding.collectionId binding.indexId binding.shard binding.idKey binding.direction
    binding.key binding.naturalOrder binding.record

def checksum (blake3 : List UInt8 → Digest) (binding : OrderedBinding) : List UInt8 :=
  orderedChecksum blake3 binding.collectionId binding.indexId binding.shard binding.idKey
    binding.direction binding.key binding.naturalOrder binding.record

theorem separates_flags (left right : OrderedBinding) :
    Separates (left.direction = right.direction ∧ left.key.isSome = right.key.isSome)
      [UInt8.ofNat left.direction, if left.key.isSome then 1 else 0]
      [UInt8.ofNat right.direction, if right.key.isSome then 1 else 0] := by
  have hlength : [UInt8.ofNat left.direction, if left.key.isSome then 1 else 0].length =
      [UInt8.ofNat right.direction, if right.key.isSome then 1 else 0].length := rfl
  refine (of_length_eq hlength).imp fun heq => ?_
  simp only [List.cons.injEq, and_true] at heq
  have hdirection : left.direction % 256 = right.direction % 256 := congrArg UInt8.toNat heq.1
  rw [Nat.mod_eq_of_lt left.direction_lt, Nat.mod_eq_of_lt right.direction_lt] at hdirection
  refine ⟨hdirection, ?_⟩
  cases hleft : left.key.isSome <;> cases hright : right.key.isSome <;> simp_all

theorem separates_key {left right : OrderedBinding} (h : left.key.isSome = right.key.isSome) :
    Separates (left.key = right.key) (hashSortKey left.key) (hashSortKey right.key) := by
  cases hleft : left.key with
  | none =>
    cases hright : right.key with
    | none => exact (of_length_eq rfl).imp fun _ => rfl
    | some key => simp [hleft, hright] at h
  | some key =>
    cases hright : right.key with
    | none => simp [hleft, hright] at h
    | some other =>
      exact (separates_sized (left.key_lt key hleft) (right.key_lt other hright)).imp
        (congrArg some)

theorem separates_naturalOrder (left right : OrderedBinding) :
    Separates (left.naturalOrder = right.naturalOrder) (int64Bytes left.naturalOrder)
      (int64Bytes right.naturalOrder) := by
  have hleft := left.naturalOrder_ge
  have hleft' := left.naturalOrder_lt
  have hright := right.naturalOrder_ge
  have hright' := right.naturalOrder_lt
  refine (separates_ofLe (by omega) (by omega)).imp fun heq => ?_
  omega

theorem bytes_injective : Function.Injective bytes := by
  intro left right heq
  have hwords :=
    (of_length_eq (x := Utf8.bytes "briskdb.document-ordered-entry.v1\x00") rfl).append fun _ =>
    (of_length_eq (x := Bytes.ofLe 4 1) rfl).append fun _ =>
    (separates_ofLe left.collectionId_lt right.collectionId_lt).append fun _ =>
    (separates_ofLe left.indexId_lt right.indexId_lt).append fun _ =>
    (separates_ofLe left.shard_lt right.shard_lt).append fun _ =>
    (separates_sized left.idKey_lt right.idKey_lt).append fun _ =>
    (separates_flags left right).append fun hflags =>
    (separates_key hflags.2).append fun _ => separates_naturalOrder left right
  obtain ⟨⟨-, -, hcollection, hindex, hshard, hid, ⟨hdirection, -⟩, hkey, hnatural⟩, hrecord⟩ :=
    hwords left.record right.record
      (by simpa only [bytes, orderedBytes, hashBytes, append_assoc] using heq)
  exact OrderedBinding.ext hcollection hindex hshard hid hdirection hkey hnatural hrecord

theorem eq_of_checksum (hfree : hashed.InjOn blake3) {left right : OrderedBinding}
    (hleft : left.bytes ∈ hashed) (hright : right.bytes ∈ hashed)
    (h : left.checksum blake3 = right.checksum blake3) : left = right :=
  bytes_injective (hfree hleft hright (Subtype.ext h))

end OrderedBinding

end Bindings

section Equality

variable {blake3 : List UInt8 → Digest} {collectionId shardId : Nat} {idKey record : List UInt8}

theorem foldlM_expectKey {found : Nat} {done keys : List (List UInt8)}
    (hnodup : (done ++ keys).Nodup) (hle : found + (done ++ keys).length ≤ maxRecordEntries) :
    keys.foldlM (expectKey found) done = .ok (done ++ keys) := by
  induction keys generalizing done with
  | nil => simp
  | cons key keys ih =>
    rw [append_cons] at hnodup hle ⊢
    have hkey : key ∉ done := by
      intro hmem
      have hdone := (nodup_append.mp (nodup_append.mp hnodup).1).2.2
      exact hdone key hmem key (mem_singleton_self key) rfl
    have hroom : ¬ found + done.length ≥ maxRecordEntries := by
      simp only [length_append, length_cons, length_nil] at hle
      omega
    have hstep : expectKey found done key = .ok (done ++ [key]) := by
      unfold expectKey
      rw [if_neg hroom, if_neg hkey]
      rfl
    rw [foldlM_cons, hstep]
    exact ih hnodup hle

def indexedKeys (indexes : List PreparedDocumentIndexKeys) : List (Nat × List UInt8) :=
  indexes.flatMap fun index => index.keys.map (index.indexId, ·)

variable {indexes : List PreparedDocumentIndexKeys} {row : EqualityEntry}
    {missing : List (Nat × List UInt8)} {rows : List EqualityEntry}

theorem foldlM_expectIndex {missing : Missing}
    (hids : (missing.ids ++ indexes.map (·.indexId)).Nodup)
    (hkeys : ∀ index ∈ indexes, index.keys.Nodup)
    (hle : missing.keys.length + (indexes.map (·.keys.length)).sum ≤ maxRecordEntries) :
    indexes.foldlM expectIndex missing =
      .ok ⟨missing.ids ++ indexes.map (·.indexId), missing.keys ++ indexedKeys indexes⟩ := by
  induction indexes generalizing missing with
  | nil => simp [indexedKeys]
  | cons index indexes ih =>
    obtain ⟨hhead, hrest⟩ := forall_mem_cons.mp hkeys
    rw [map_cons, append_cons] at hids ⊢
    rw [map_cons, sum_cons] at hle
    have hid : index.indexId ∉ missing.ids := by
      intro hmem
      have hdone := (nodup_append.mp (nodup_append.mp hids).1).2.2
      exact hdone _ hmem _ (mem_singleton_self _) rfl
    have hexpect : index.keys.foldlM (expectKey missing.keys.length) [] = .ok index.keys :=
      foldlM_expectKey hhead (by grind)
    have hstep : expectIndex missing index =
        .ok ⟨missing.ids ++ [index.indexId], missing.keys ++ index.keys.map
          (index.indexId, ·)⟩ := by
      unfold expectIndex
      rw [hexpect, ok_bind, if_neg hid]
      rfl
    rw [foldlM_cons, hstep, ok_bind, ih hids hrest]
    · simp [indexedKeys]
    · simp only [length_append, length_map]
      omega

/-- The entries that are expected of a record: nothing without indexes. -/
def expectedIndexes (expected : Option PreparedDocumentIndexEntries) :
    List PreparedDocumentIndexKeys :=
  expected.elim [] (·.indexes)

def Expected (collectionId : Nat) (expected : Option PreparedDocumentIndexEntries) : Prop :=
  ∀ entries, expected = some entries → entries.WellFormed ∧ entries.collectionId = collectionId

variable {expected : Option PreparedDocumentIndexEntries}

theorem expectedKeys_eq (h : Expected collectionId expected) :
    expectedKeys collectionId expected = .ok (indexedKeys (expectedIndexes expected)) := by
  cases expected with
  | none => rfl
  | some entries =>
    obtain ⟨hwell, hcollection⟩ := h entries rfl
    have hfold : entries.indexes.foldlM expectIndex ⟨[], []⟩ = .ok
        ⟨entries.indexes.map (·.indexId), indexedKeys entries.indexes⟩ := by
      have hle : 0 + (entries.indexes.map (·.keys.length)).sum ≤ maxRecordEntries := by
        rw [Nat.zero_add]
        exact hwell.keys_le
      exact @foldlM_expectIndex _ ⟨[], []⟩ hwell.ids_nodup hwell.keys_nodup hle
    unfold expectedKeys
    simp only [hcollection, ne_eq, not_true_eq_false, if_false]
    rw [hfold]
    rfl

theorem eq_equalityEntry_iff (hrow : row.isOf collectionId idKey = true) :
    row = equalityEntry blake3 collectionId shardId idKey record row.indexId row.indexKey ↔
      row.entryFormatVersion = 1 ∧ row.entryChecksum =
        entryChecksum blake3 collectionId row.indexId shardId idKey row.indexKey record := by
  simp only [EqualityEntry.isOf, decide_eq_true_eq] at hrow
  obtain ⟨rfl, rfl⟩ := hrow
  constructor
  · intro heq
    rw [heq]
    exact ⟨rfl, rfl⟩
  · rintro ⟨hversion, hchecksum⟩
    cases row
    cases hversion
    simp only at hchecksum
    rw [hchecksum]
    rfl

theorem validateEqualityRow_iff {next : List (Nat × List UInt8)}
    (hrow : row.isOf collectionId idKey = true) :
    validateEqualityRow blake3 collectionId shardId idKey record missing row = .ok next ↔
      (row.indexId ≠ 0 ∧ row = equalityEntry blake3 collectionId shardId idKey record row.indexId
        row.indexKey) ∧ (row.indexId, row.indexKey) ∈ missing ∧
        next = missing.erase (row.indexId, row.indexKey) := by
  rw [eq_equalityEntry_iff hrow]
  unfold validateEqualityRow
  rw [ite_throw_eq_ok, ite_throw_eq_ok]
  simp only [not_or, ne_eq, not_not, pure_eq, Except.ok.injEq]
  grind

/-- The rows use up the missing keys exactly when they are the rows of those keys. -/
theorem foldlM_validateEqualityRow (hrows : ∀ row ∈ rows, row.isOf collectionId idKey = true) :
    rows.foldlM (validateEqualityRow blake3 collectionId shardId idKey record) missing = .ok [] ↔
      (∀ row ∈ rows, row.indexId ≠ 0 ∧ row =
        equalityEntry blake3 collectionId shardId idKey record row.indexId row.indexKey) ∧
        (rows.map fun row => (row.indexId, row.indexKey)).Perm missing := by
  induction rows generalizing missing with
  | nil =>
    simp [*]
  | cons row rows ih =>
    obtain ⟨hrow, hrest⟩ := forall_mem_cons.mp hrows
    rw [foldlM_cons, bind_eq_ok]
    simp only [validateEqualityRow_iff hrow]
    rw [forall_mem_cons, map_cons, cons_perm_iff_perm_erase]
    grind

theorem equalityRows_eq (indexes : List PreparedDocumentIndexKeys) :
    equalityRows blake3 collectionId shardId idKey record indexes =
      (indexedKeys indexes).map fun key =>
        equalityEntry blake3 collectionId shardId idKey record key.1 key.2 := by
  unfold equalityRows indexedKeys
  rw [map_flatMap]
  simp only [map_map, Function.comp_def]

theorem isOf_of_mem_equalityRows
    (h : row ∈ equalityRows blake3 collectionId shardId idKey record indexes) :
    row.isOf collectionId idKey = true := by
  rw [equalityRows_eq] at h
  obtain ⟨key, -, rfl⟩ := mem_map.mp h
  simp [EqualityEntry.isOf, equalityEntry]

/-- The rows of a record are accepted exactly when they are the expected ones. -/
theorem validateEqualityRows_iff (hexpected : Expected collectionId expected)
    (hrows : ∀ row ∈ rows, row.isOf collectionId idKey = true) :
    validateEqualityRows blake3 collectionId shardId idKey record expected rows = .ok () ↔
      rows.Perm (equalityRows blake3 collectionId shardId idKey record
        (expectedIndexes expected)) := by
  have hfold : validateEqualityRows blake3 collectionId shardId idKey record expected rows = .ok
    () ↔
      rows.foldlM (validateEqualityRow blake3 collectionId shardId idKey record)
        (indexedKeys (expectedIndexes expected)) = .ok [] := by
    unfold validateEqualityRows
    rw [expectedKeys_eq hexpected, ok_bind, bind_eq_ok]
    constructor
    · simp
    · simp
  rw [hfold, foldlM_validateEqualityRow hrows, equalityRows_eq]
  constructor
  · rintro ⟨hwritten, hperm⟩
    have hmap : rows = (rows.map fun row => (row.indexId, row.indexKey)).map fun key =>
        equalityEntry blake3 collectionId shardId idKey record key.1 key.2 := by
      rw [map_map]
      refine (map_id _).symm.trans (map_congr_left fun row hrow => ?_)
      exact (hwritten row hrow).2
    grind
  · intro hperm
    constructor
    · intro row hrow
      obtain ⟨key, hkey, rfl⟩ := mem_map.mp (hperm.mem_iff.mp hrow)
      refine ⟨?_, rfl⟩
      obtain ⟨index, hindex, hkey⟩ := mem_flatMap.mp hkey
      obtain ⟨bytes, -, rfl⟩ := mem_map.mp hkey
      cases expected with
      | none => cases hindex
      | some entries => exact ((hexpected entries rfl).1.ids_pos index hindex).ne'
    · have hkeys := hperm.map fun row => (row.indexId, row.indexKey)
      rw [map_map] at hkeys
      refine hkeys.trans (List.Perm.of_eq ?_)
      exact (map_congr_left fun key _ => rfl).trans (map_id _)

theorem take_perm_iff {α : Type} {rows sorted expected : List α} {limit : Nat}
    (hsorted : sorted.Perm rows) (hlimit : expected.length < limit) :
    (sorted.take limit).Perm expected ↔ rows.Perm expected := by
  constructor
  · intro hperm
    have hlength := hperm.length_eq
    rw [length_take] at hlength
    rw [take_of_length_le (by omega)] at hperm
    exact hsorted.symm.trans hperm
  · intro hperm
    have hlength := (hsorted.trans hperm).length_eq
    rw [take_of_length_le (by omega)]
    exact hsorted.trans hperm

theorem length_equalityRows_le (hexpected : Expected collectionId expected) :
    (equalityRows blake3 collectionId shardId idKey record (expectedIndexes expected)).length ≤
      maxRecordEntries := by
  cases expected with
  | none => exact Nat.zero_le _
  | some entries =>
    have hle : (entries.indexes.map (·.keys.length)).sum ≤ maxRecordEntries :=
      (hexpected entries rfl).1.keys_le
    simpa [equalityRows, expectedIndexes, length_flatMap] using hle

/-- The stored equality entries are accepted exactly when they are the expected ones. -/
theorem validateEqualityRows_recordEntries {shard : IndexedShard}
    (hexpected : Expected collectionId expected) :
    validateEqualityRows blake3 collectionId shardId idKey record expected
        (recordEntries collectionId idKey shard) = .ok () ↔
      (shard.equalityEntries.rows.filter (·.isOf collectionId idKey)).Perm
        (equalityRows blake3 collectionId shardId idKey record (expectedIndexes expected)) := by
  have hsorted : ((shard.equalityEntries.rows.filter (·.isOf collectionId idKey)).mergeSort
      compareEquality).Perm (shard.equalityEntries.rows.filter (·.isOf collectionId idKey)) :=
    mergeSort_perm _ _
  rw [validateEqualityRows_iff hexpected]
  · exact take_perm_iff hsorted (Nat.lt_succ_of_le (length_equalityRows_le hexpected))
  · intro row hrow
    exact (mem_filter.mp (hsorted.mem_iff.mp (mem_of_mem_take hrow))).2

end Equality

section Ordered

variable {blake3 : List UInt8 → Digest} {collectionId shardId : Nat} {idKey record : List UInt8}
  {natural : Int} {expected : Option PreparedDocumentIndexEntries}
  {indexes : List PreparedDocumentIndexKeys} {row : OrderedEntry}
    {keys : List (Option (List UInt8))} {count : Nat} {shard : IndexedShard} {found : DocumentRow}

theorem mem_orderedRows :
    row ∈ orderedRows blake3 collectionId shardId idKey record natural indexes ↔
      ∃ index ∈ indexes, ∃ keys, index.ordered = some keys ∧ ∃ key direction,
        keys[direction]? = some key ∧ row = orderedEntry blake3 collectionId shardId idKey record
          natural index.indexId (key, direction) := by
  unfold orderedRows
  rw [mem_flatMap]
  refine exists_congr fun index => and_congr_right fun _ => ?_
  cases hordered : index.ordered with
  | none => simp
  | some keys =>
    grind

theorem ofRecord_of_mem_orderedRows
    (h : row ∈ orderedRows blake3 collectionId shardId idKey record natural indexes) :
    row.ofRecord collectionId idKey = true := by
  obtain ⟨index, -, keys, -, key, direction, -, rfl⟩ := mem_orderedRows.mp h
  simp [OrderedEntry.ofRecord, orderedEntry]

theorem find_ordered_iff (hexpected : Expected collectionId expected) {indexId : Nat} :
    ((expected.elim [] (·.indexes)).find? (·.indexId = indexId) >>= (·.ordered)) = some keys ↔
      ∃ index ∈ expectedIndexes expected, index.indexId = indexId ∧ index.ordered = some keys := by
  cases expected with
  | none => simp [expectedIndexes]
  | some entries =>
    have hids := (hexpected entries rfl).1.ids_nodup
    change (entries.indexes.find? (·.indexId = indexId)).bind (·.ordered) = some keys ↔
      ∃ index ∈ entries.indexes, _
    rw [Option.bind_eq_some_iff]
    constructor
    · grind
    · rintro ⟨index, hindex, rfl, hordered⟩
      refine ⟨index, ?_, hordered⟩
      cases hfind : entries.indexes.find? (·.indexId = index.indexId) with
      | none => exact absurd (by simp) (find?_eq_none.mp hfind index hindex)
      | some other =>
        have hother : other.indexId = index.indexId := by simpa using find?_some hfind
        exact congrArg some (inj_on_of_nodup_map hids (mem_of_find?_eq_some hfind)
          hindex hother)

theorem orderKeysBounded_of_mem (hexpected : Expected collectionId expected)
    {index : PreparedDocumentIndexKeys} (hindex : index ∈ expectedIndexes expected)
    (hkeys : index.ordered = some keys) : OrderKeysBounded keys := by
  cases expected with
  | none => cases hindex
  | some entries => exact (hexpected entries rfl).1.ordered index hindex keys hkeys

/-- A row of the record that was written for the key of its index and direction. -/
theorem eq_orderedEntry_iff (hrow : row.ofRecord collectionId idKey = true) :
    row = orderedEntry blake3 collectionId shardId idKey record natural row.indexId
        (row.sortKey, row.direction) ↔
      row.entryFormatVersion = 1 ∧ row.naturalOrder = natural ∧ row.entryChecksum =
        orderedChecksum blake3 collectionId row.indexId shardId idKey row.direction row.sortKey
          natural record := by
  simp only [OrderedEntry.ofRecord, decide_eq_true_eq] at hrow
  obtain ⟨rfl, rfl⟩ := hrow
  constructor
  · intro heq
    rw [heq]
    exact ⟨rfl, rfl, rfl⟩
  · rintro ⟨hversion, hnatural, hchecksum⟩
    cases row
    cases hversion
    cases hnatural
    simp only at hchecksum
    rw [hchecksum]
    rfl

/-- A row of the record is accepted exactly when it is an expected one. -/
theorem validateOrderedRow_iff (hexpected : Expected collectionId expected) (hnatural : 0 < natural)
    (hrow : row.ofRecord collectionId idKey = true) :
    validateOrderedRow blake3 collectionId shardId idKey record natural expected row count = .ok
      () ↔
      count ≤ 128 ∧ row ∈ orderedRows blake3 collectionId shardId idKey record natural
        (expectedIndexes expected) := by
  unfold validateOrderedRow
  rw [ite_throw_eq_ok, mem_orderedRows]
  constructor
  · rintro ⟨-, h⟩
    split at h
    next => cases h
    next keys hfind =>
      obtain ⟨index, hindex, hid, hkeys⟩ := (find_ordered_iff hexpected).mp hfind
      split at h
      next => cases h
      next hcheck =>
        simp only [not_or, not_lt, not_le, ne_eq, not_not] at hcheck
        obtain ⟨hdirection, -, hcount, hversion, hstored, hkey, hchecksum⟩ := hcheck
        refine ⟨hcount, index, hindex, keys, hkeys, row.sortKey, row.direction, hkey, ?_⟩
        simp [*, eq_orderedEntry_iff]
  · rintro ⟨hcount, index, hindex, keys, hkeys, key, direction, hkey, rfl⟩
    obtain ⟨hlength, hbounds⟩ := orderKeysBounded_of_mem hexpected hindex hkeys
    have hfind := (find_ordered_iff hexpected).mpr ⟨index, hindex, rfl, hkeys⟩
    have hdirection : direction < 2 := hlength ▸ (List.getElem?_eq_some_iff.mp hkey).1
    refine ⟨?_, ?_⟩
    · have hallowed : OrderedEntry.sortKeyAllowed key = true := by
        cases key with
        | none => rfl
        | some bytes =>
          grind [OrderedEntry.sortKeyAllowed, maxOrderKeyBytes]
      simpa [orderedEntry] using hallowed
    · split
      next hnone => cases hnone.symm.trans hfind
      next others hothers =>
        cases hothers.symm.trans hfind
        rw [if_neg]
        · rfl
        · simp only [orderedEntry, not_or, not_lt, not_le, ne_eq, not_not]
          exact ⟨by omega, hnatural, hcount, trivial, trivial, hkey, trivial⟩

theorem foldlM_validateOrderedRows (hfound : shard.documentRow collectionId idKey = some found)
    (hexpected : Expected collectionId expected) {rows : List OrderedEntry}
    (hrows : ∀ row ∈ rows, row.ofRecord collectionId idKey = true) {total : Nat} :
    rows.foldlM (validateOrderedRows blake3 collectionId shardId idKey record shard expected)
        count = .ok total ↔
      total = count + rows.length ∧ (rows = [] ∨ total ≤ 128) ∧ ∀ row ∈ rows,
        row ∈ orderedRows blake3 collectionId shardId idKey record found.naturalOrder
          (expectedIndexes expected) := by
  have hnatural : 0 < found.naturalOrder :=
    (shard.documents.checked found (mem_of_find?_eq_some hfound)).2.2.1
  induction rows generalizing count with
  | nil =>
    simp only [foldlM_nil, pure_eq, Except.ok.injEq, length_nil, Nat.add_zero,
      true_or, not_mem_nil, false_imp_iff, implies_true, and_true]
    exact eq_comm
  | cons row rows ih =>
    obtain ⟨hrow, hrest⟩ := forall_mem_cons.mp hrows
    have hstep (next : Nat) :
        validateOrderedRows blake3 collectionId shardId idKey record shard expected count row =
          .ok next ↔ next = count + 1 ∧ count + 1 ≤ 128 ∧
            row ∈ orderedRows blake3 collectionId shardId idKey record found.naturalOrder
              (expectedIndexes expected) := by
      unfold validateOrderedRows
      rw [hfound]
      simp only
      rw [bind_eq_ok]
      constructor
      · rintro ⟨⟨⟩, hvalid, h⟩
        cases h
        exact ⟨rfl, (validateOrderedRow_iff hexpected hnatural hrow).mp hvalid⟩
      · rintro ⟨rfl, hvalid⟩
        exact ⟨(), (validateOrderedRow_iff hexpected hnatural hrow).mpr hvalid, rfl⟩
    rw [foldlM_cons, bind_eq_ok]
    simp only [hstep, ih hrest, forall_mem_cons, length_cons]
    constructor
    · grind
    · grind

theorem length_orderedRows (hexpected : Expected collectionId expected) :
    (orderedRows blake3 collectionId shardId idKey record natural
      (expectedIndexes expected)).length = expectedOrderedCount expected := by
  have hkeys : ∀ index ∈ expectedIndexes expected, ∀ keys, index.ordered = some keys →
      OrderKeysBounded keys := fun _ hindex _ => orderKeysBounded_of_mem hexpected hindex
  change _ = ((expectedIndexes expected).filter (·.ordered.isSome)).length * 2
  generalize expectedIndexes expected = indexes at hkeys ⊢
  induction indexes with
  | nil => rfl
  | cons index indexes ih =>
    obtain ⟨hhead, hrest⟩ := forall_mem_cons.mp hkeys
    have htail := ih hrest
    unfold orderedRows at htail ⊢
    rw [flatMap_cons, length_append, htail, filter_cons]
    cases hordered : index.ordered with
    | none => simp
    | some keys =>
      simp [(hhead keys hordered).1]
      omega

theorem expectedOrderedCount_le (hexpected : Expected collectionId expected) :
    expectedOrderedCount expected ≤ 128 := by
  cases expected with
  | none => exact Nat.zero_le _
  | some entries =>
    have hle : entries.indexes.length ≤ 64 := (hexpected entries rfl).1.length_le
    grind [expectedOrderedCount]

/-- The stored ordered entries are accepted exactly when they are the expected ones. -/
theorem validateOrderedRecord_iff (hfound : shard.documentRow collectionId idKey = some found)
    (hexpected : Expected collectionId expected) :
    validateOrderedRecord blake3 collectionId shardId idKey record shard expected = .ok () ↔
      (shard.orderedRows.filter (·.ofRecord collectionId idKey)).Perm
        (orderedRows blake3 collectionId shardId idKey record found.naturalOrder
          (expectedIndexes expected)) := by
  cases htable : shard.orderedEntries with
  | none =>
    have hnone : shard.orderedRows = [] := by
      unfold IndexedShard.orderedRows
      rw [htable]
    unfold validateOrderedRecord
    rw [htable, hnone, filter_nil, nil_perm, ← length_eq_zero_iff,
      length_orderedRows hexpected]
    simp [*]
  | some table =>
    have hrows : shard.orderedRows = table.rows := by
      unfold IndexedShard.orderedRows
      rw [htable]
    have hsorted : ((table.rows.filter (·.ofRecord collectionId idKey)).mergeSort
        compareOrdered).Perm (table.rows.filter (·.ofRecord collectionId idKey)) :=
      mergeSort_perm _ _
    have hlimit : (orderedRows blake3 collectionId shardId idKey record found.naturalOrder
        (expectedIndexes expected)).length < 129 := by
      rw [length_orderedRows hexpected]
      exact Nat.lt_succ_of_le (expectedOrderedCount_le hexpected)
    rw [hrows, ← take_perm_iff hsorted hlimit]
    have hof : ∀ row ∈ recordOrderedEntries collectionId idKey table,
        row.ofRecord collectionId idKey = true := fun row hrow =>
      (mem_filter.mp (hsorted.mem_iff.mp (mem_of_mem_take hrow))).2
    have hnodup : (recordOrderedEntries collectionId idKey table).Nodup := by
      refine (List.Nodup.sublist (take_sublist _ _) (hsorted.nodup_iff.mpr ?_))
      refine List.Nodup.filter _ (table.apart.imp ?_)
      rintro left right hapart rfl
      exact hapart ⟨rfl, rfl, rfl, rfl⟩
    change _ ↔ (recordOrderedEntries collectionId idKey table).Perm _
    unfold validateOrderedRecord
    rw [htable]
    simp only
    rw [bind_eq_ok]
    simp only [foldlM_validateOrderedRows hfound hexpected hof]
    constructor
    · rintro ⟨total, ⟨htotal, -, hmems⟩, h⟩
      split at h
      next => cases h
      next hcount =>
        -- distinct expected rows, as many as are expected, are all of them
        refine (hnodup.subperm hmems).perm_of_length_le ?_
        rw [length_orderedRows hexpected]
        omega
    · intro hperm
      have hlength := hperm.length_eq
      rw [length_orderedRows hexpected] at hlength
      have hle := expectedOrderedCount_le hexpected
      refine ⟨_, ⟨rfl, .inr (by omega), fun row hrow => hperm.mem_iff.mp hrow⟩, ?_⟩
      simp [*]

end Ordered

section Record

variable {blake3 : List UInt8 → Digest} {collectionId shardId : Nat} {idKey record : List UInt8}
  {shard next : IndexedShard}

/-- The stored entries of a record are exactly the given ones, bound to its checksum and its
natural order. -/
structure EntriesOf (blake3 : List UInt8 → Digest) (shardId : Nat) (shard : IndexedShard)
    (row : DocumentRow) (indexes : List PreparedDocumentIndexKeys) : Prop where
  equality : (shard.equalityEntries.rows.filter (·.isOf row.collectionId row.idKey)).Perm
    (equalityRows blake3 row.collectionId shardId row.idKey row.documentChecksum indexes)
  ordered : (shard.orderedRows.filter (·.ofRecord row.collectionId row.idKey)).Perm
    (orderedRows blake3 row.collectionId shardId row.idKey row.documentChecksum row.naturalOrder
      indexes)

variable {row : DocumentRow} {selected : List PreparedDocumentIndexKeys}

theorem isOf_iff :
    row.isOf collectionId idKey = true ↔ row.collectionId = collectionId ∧ row.idKey = idKey := by
  simp [DocumentRow.isOf]

theorem DocumentRow.Conflicts.symm {left right : DocumentRow} (h : left.Conflicts right) :
    right.Conflicts left :=
  ⟨h.1.symm, h.2.imp Eq.symm Eq.symm⟩

theorem documentRow_eq_some (hrow : row ∈ shard.documents.rows) :
    shard.documentRow row.collectionId row.idKey = some row := by
  unfold IndexedShard.documentRow
  cases hfind : shard.documents.rows.find? (·.isOf row.collectionId row.idKey) with
  | none => exact absurd (isOf_iff.mpr ⟨rfl, rfl⟩) (find?_eq_none.mp hfind row hrow)
  | some other =>
    have hof : other.isOf row.collectionId row.idKey = true := by simpa using find?_some hfind
    obtain ⟨hcollection, hid⟩ := isOf_iff.mp hof
    exact congrArg some (Table.eq_of_conflict (fun _ _ => DocumentRow.Conflicts.symm)
      (mem_of_find?_eq_some hfind) hrow ⟨hcollection, .inl hid⟩)

theorem validateRecordEntries_iff (hrow : row ∈ shard.documents.rows)
    {expected : Option PreparedDocumentIndexEntries}
    (hexpected : Expected row.collectionId expected) :
    validateRecordEntries blake3 row.collectionId shardId row.idKey row.documentChecksum shard
        expected = .ok () ↔
      EntriesOf blake3 shardId shard row (expectedIndexes expected) := by
  unfold validateRecordEntries
  rw [bind_eq_ok]
  constructor
  · rintro ⟨⟨⟩, hequality, hordered⟩
    exact ⟨(validateEqualityRows_recordEntries hexpected).mp hequality,
      (validateOrderedRecord_iff (documentRow_eq_some hrow) hexpected).mp hordered⟩
  · rintro ⟨hequality, hordered⟩
    exact ⟨(), (validateEqualityRows_recordEntries hexpected).mpr hequality,
      (validateOrderedRecord_iff (documentRow_eq_some hrow) hexpected).mpr hordered⟩

/-- Writing the entries of a record leaves everything else. -/
structure Inserted (shard next : IndexedShard) (equality : List EqualityEntry)
    (ordered : List OrderedEntry) : Prop where
  documents : next.documents = shard.documents
  equality : next.equalityEntries.rows = shard.equalityEntries.rows ++ equality
  ordered : next.orderedRows = shard.orderedRows ++ ordered

theorem orderedRows_eq_nil {natural : Int} (h : selected.all (·.ordered.isNone) = true) :
    orderedRows blake3 collectionId shardId idKey record natural selected = [] := by
  refine flatMap_eq_nil_iff.mpr fun index hindex => ?_
  have hnone := all_eq_true.mp h index hindex
  rw [Option.isNone_iff_eq_none.mp hnone]

theorem insertSelectedOrdered_spec (hrow : shard.documentRow collectionId idKey = some row)
    (h : insertSelectedOrdered blake3 collectionId shardId idKey record shard selected = .ok next) :
    Inserted shard next [] (orderedRows blake3 collectionId shardId idKey record row.naturalOrder
      selected) := by
  unfold insertSelectedOrdered at h
  split at h
  next hnone =>
    cases h
    rw [orderedRows_eq_nil hnone]
    exact ⟨rfl, (append_nil _).symm, (append_nil _).symm⟩
  next =>
    rw [hrow] at h
    cases htable : shard.orderedEntries with
    | none =>
      grind
    | some table =>
      rw [htable] at h
      simp only at h
      split at h
      next => cases h
      next stored hstored =>
        cases h
        refine ⟨rfl, (append_nil _).symm, ?_⟩
        grind [IndexedShard.orderedRows, Table.rows_insertAll]

theorem insertSelectedEntries_spec {prepared : PreparedDocumentIndexEntries} {only : Option Nat}
    (hrow : shard.documentRow collectionId idKey = some row)
    (h : insertSelectedEntries blake3 collectionId shardId idKey record shard prepared only =
      .ok next) :
    Inserted shard next
      (equalityRows blake3 collectionId shardId idKey record (selectedIndexes prepared only))
      (orderedRows blake3 collectionId shardId idKey record row.naturalOrder
        (selectedIndexes prepared only)) := by
  unfold insertSelectedEntries at h
  simp only [ite_throw_eq_ok] at h
  obtain ⟨-, -, h⟩ := h
  split at h
  next => cases h
  next table htable =>
    have hfound : ({ shard with equalityEntries := table } : IndexedShard).documentRow collectionId
        idKey = some row := hrow
    obtain ⟨hdocuments, hequality, hordered⟩ := insertSelectedOrdered_spec hfound h
    refine ⟨hdocuments, ?_, hordered⟩
    grind [Table.rows_insertAll]

end Record

end BriskDB.Storage
