import BriskDB.Document.Codec
import BriskDB.Document.Key

/-! # Stored document records

A shard keeps a document as its BSON under the canonical key of its `_id`, with its
place in the natural order and a checksum over all of it. A row is read back only
when its checksum, its format and its `_id` agree.
-/

namespace BriskDB.Storage

open Document Result

def corrupt (diagnostic : String) : EngineError := .new .dataCorruption diagnostic

abbrev Digest := { digest : List UInt8 // digest.length = 32 }

/-- A row of `briskdb_documents_v1`. -/
structure DocumentRow where
  collectionId : Nat
  idKey : List UInt8
  naturalOrder : Int
  documentBson : List UInt8
  documentChecksum : List UInt8
  storageFormatVersion : Int

structure DocumentStorageRecord where
  collectionId : Nat
  shard : Nat
  naturalOrder : Nat
  idKey : CanonicalBsonKey
  document : BsonDocument
  encodedLen : Nat
  checksum : List UInt8

def int64Bytes (value : Int) : List UInt8 := Bytes.ofLe 8 (value % 2 ^ 64).toNat

def hashBytes (bytes : List UInt8) : List UInt8 := Bytes.ofLe 8 bytes.length ++ bytes

def recordChecksumDomain : List UInt8 := Utf8.bytes "briskdb.document-record.v1\x00"

variable (blake3 : List UInt8 → Digest) [BsonWire.Crate]

def recordChecksum (collectionId shard : Nat) (naturalOrder : Int) (idKey bson : List UInt8) :
    List UInt8 :=
  (blake3 (recordChecksumDomain ++ Bytes.ofLe 8 collectionId ++ Bytes.ofLe 2 shard ++
    int64Bytes naturalOrder ++ hashBytes idKey ++ hashBytes bson)).1

/-- Exactly one top-level `_id`. -/
def requiredDocumentId (document : BsonDocument) : EngineResult BsonValue := do
  match ← (document.getUnique "_id").toEngine .clientInput with
  | some id => return id
  | none =>
    throw (.new .invalidArgument "document storage requires exactly one top-level _id field")

def decodeRecord (sizes : DecodedSizes) (collectionId shard : Nat) (row : DocumentRow) :
    EngineResult BsonDocument := do
  if row.naturalOrder ≤ 0 ∨ row.storageFormatVersion ≠ 1 ∨
      row.documentChecksum ≠ recordChecksum blake3 collectionId shard row.naturalOrder row.idKey
        row.documentBson then
    throw (corrupt "stored BSON document checksum or format is invalid")
  let document ← (decodeDocument sizes row.documentBson).toEngine .storedData
  let id ← (requiredDocumentId document).mapError fun _ =>
    corrupt "stored BSON document has no unambiguous _id"
  let expected ← (CanonicalBsonKey.encode id).toEngine .storedData
  if expected.bytes ≠ row.idKey then
    throw (corrupt "stored BSON document _id does not match its canonical key")
  return document

def documentNaturalOrderToSqlite (naturalOrder : Nat) : EngineResult Int := do
  if naturalOrder = 0 then
    throw (.new .invalidArgument "document natural order must be greater than zero")
  if naturalOrder ≥ 2 ^ 63 then
    throw (.new .numericOutOfRange "document natural order does not fit SQLite")
  return naturalOrder

def documentNaturalOrderFromSqlite (naturalOrder : Int) : EngineResult Nat :=
  if 0 < naturalOrder then .ok naturalOrder.toNat
  else .error (corrupt "stored BSON document natural order is not positive")

def decodeStorageRecord (sizes : DecodedSizes) (collectionId shard : Nat) (row : DocumentRow) :
    EngineResult DocumentStorageRecord := do
  let canonicalId ← (CanonicalBsonKey.fromBytes row.idKey).toEngine .storedData
  if row.documentChecksum.length ≠ 32 then
    throw (corrupt "stored BSON checksum has an invalid length")
  let document ← decodeRecord blake3 sizes collectionId shard row
  let naturalOrder ← documentNaturalOrderFromSqlite row.naturalOrder
  return ⟨collectionId, shard, naturalOrder, canonicalId, document, row.documentBson.length,
    row.documentChecksum⟩

variable {sizes : DecodedSizes} {collectionId shard : Nat} {row : DocumentRow}
    {record : DocumentStorageRecord}

theorem of_decodeStorageRecord
    (h : decodeStorageRecord blake3 sizes collectionId shard row = .ok record) :
    (record.naturalOrder : Int) = row.naturalOrder ∧ 0 < record.naturalOrder ∧
      record.idKey.bytes = row.idKey ∧ record.checksum = row.documentChecksum := by
  obtain ⟨canonicalId, hid, h⟩ := bind_eq_ok.mp h
  simp only [ite_throw_eq_ok] at h
  obtain ⟨-, h⟩ := h
  obtain ⟨document, -, h⟩ := bind_eq_ok.mp h
  obtain ⟨naturalOrder, hnatural, h⟩ := bind_eq_ok.mp h
  cases h
  have hkey := bytes_of_fromBytes (BsonResult.toEngine_eq_ok.mp hid)
  unfold documentNaturalOrderFromSqlite at hnatural
  grind

theorem scope_of_decodeStorageRecord
    (h : decodeStorageRecord blake3 sizes collectionId shard row = .ok record) :
    record.collectionId = collectionId ∧ record.shard = shard := by
  obtain ⟨canonicalId, -, h⟩ := bind_eq_ok.mp h
  simp only [ite_throw_eq_ok] at h
  obtain ⟨-, h⟩ := h
  obtain ⟨document, -, h⟩ := bind_eq_ok.mp h
  obtain ⟨naturalOrder, -, h⟩ := bind_eq_ok.mp h
  cases h
  exact ⟨rfl, rfl⟩

end BriskDB.Storage
