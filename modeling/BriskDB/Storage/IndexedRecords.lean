import BriskDB.Storage.IndexEntries

/-!
# Writing records with their index entries

Insertions, replacements and deletions keep the records of a shard and the entries of the
Ready indexes in one transaction. A replacement or a deletion first validates the entries of the
record it finds. An error anywhere rolls the whole transaction back.
-/

namespace BriskDB.Storage

open Document Result Table List

structure PreparedDocumentWrite where
  idKey : CanonicalBsonKey
  documentBson : List UInt8
  shard : Nat

/-- The hash, codec crate, sizes, routing, sorter steps, Ready indexes and unique check around a
shard. -/
structure RecordHost where
  blake3 : List UInt8 → Digest
  crate : BsonWire.Crate
  sizes : DecodedSizes
  shardForKey : List UInt8 → Nat
  sorterCosts : SorterCosts
  indexes : Nat → Option DocumentIndexPreparation
  collectionId_eq : ∀ collectionId preparation, indexes collectionId = some preparation →
    preparation.collectionId = collectionId
  validateUniqueEntries : IndexedShard → Nat → CanonicalBsonKey →
    Option PreparedDocumentIndexEntries → EngineResult Unit

namespace RecordHost

variable (host : RecordHost) (shardId : Nat)

def prepareActiveEntries (preparation : Option DocumentIndexPreparation)
    (document : BsonDocument) : EngineResult (Option PreparedDocumentIndexEntries) :=
  match preparation with
  | none => .ok none
  | some preparation => some <$> preparation.prepareForStorage host.sorterCosts document

def prepareWriteEntries (preparation : Option DocumentIndexPreparation)
    (documentBson : List UInt8) : EngineResult (Option PreparedDocumentIndexEntries) :=
  match preparation with
  | none => .ok none
  | some preparation => do
    let document ← (@decodeDocument host.crate host.sizes documentBson).toEngine .storedData
    host.prepareActiveEntries (some preparation) document

def validateDocumentKeyRoute (idKey : CanonicalBsonKey) : EngineResult Unit := do
  if host.shardForKey idKey.bytes ≠ shardId then
    throw (.new .internal "canonical document _id was sent to a non-owning shard lease")

def validatePreparedDocumentRoute (prepared : PreparedDocumentWrite) : EngineResult Unit := do
  if prepared.shard ≠ shardId then
    throw (.new .internal "prepared document was sent to a different shard lease")
  host.validateDocumentKeyRoute shardId prepared.idKey

variable (shard : IndexedShard) (collectionId : Nat)

def getDocument (idKey : CanonicalBsonKey) :
    EngineResult (Option DocumentStorageRecord) := do
  host.validateDocumentKeyRoute shardId idKey
  match shard.documentRow collectionId idKey.bytes with
  | none => return none
  | some row =>
    some <$> @decodeStorageRecord host.blake3 host.crate host.sizes collectionId shardId row

def validateRecordIndexCoverage (record : DocumentStorageRecord) :
    EngineResult Unit := do
  let expected ← (host.prepareActiveEntries (host.indexes record.collectionId)
    record.document).mapError storedIndexError
  validateRecordEntries host.blake3 record.collectionId record.shard record.idKey.bytes
    record.checksum shard expected

def constraintError (row : DocumentRow) : EngineError :=
  if row.Allowed then .new .uniqueViolation "UNIQUE constraint failed"
  else .new .checkViolation "CHECK constraint failed"

def insertRow (row : DocumentRow) : EngineResult IndexedShard :=
  match shard.documents.insert row with
  | none => .error (constraintError row)
  | some documents => .ok { shard with documents }

/-- Without Ready indexes there are no entries to write. -/
def insertPrepared (idKey checksum : List UInt8)
    (entries : Option PreparedDocumentIndexEntries) : EngineResult IndexedShard :=
  match entries with
  | none => .ok shard
  | some entries => insertEntries host.blake3 collectionId shardId idKey checksum shard entries

def insertPreparedDocument (collectionId naturalOrder : Nat)
    (prepared : PreparedDocumentWrite) : EngineResult IndexedShard := do
  host.validatePreparedDocumentRoute shardId prepared
  let entries ← host.prepareWriteEntries (host.indexes collectionId) prepared.documentBson
  host.validateUniqueEntries shard collectionId prepared.idKey entries
  let naturalOrder ← documentNaturalOrderToSqlite naturalOrder
  let checksum := recordChecksum host.blake3 collectionId shardId naturalOrder
    prepared.idKey.bytes prepared.documentBson
  let shard ← insertRow shard
    ⟨collectionId, prepared.idKey.bytes, naturalOrder, prepared.documentBson, checksum, 1⟩
  host.insertPrepared shardId shard collectionId prepared.idKey.bytes checksum entries

def isExactly (idKey : List UInt8) (naturalOrder : Int) (row : DocumentRow) : Bool :=
  row.isOf collectionId idKey && row.naturalOrder = naturalOrder

def updateRow (selected : DocumentRow → Bool)
    (documentBson checksum : List UInt8) : EngineResult IndexedShard :=
  match shard.documents.update selected fun row =>
    { row with documentBson, documentChecksum := checksum } with
  | none => .error (.new .checkViolation "CHECK constraint failed")
  | some documents => .ok { shard with documents }

def replaceDocument (idKey : CanonicalBsonKey)
    (naturalOrder : Nat) (replacement : PreparedDocumentWrite) :
    EngineResult (Bool × IndexedShard) := do
  host.validateDocumentKeyRoute shardId idKey
  if replacement.idKey ≠ idKey then
    throw (.new .invalidArgument "document replacement cannot change the semantic _id")
  host.validatePreparedDocumentRoute shardId replacement
  match ← host.getDocument shardId shard collectionId idKey with
  | none => return (false, shard)
  | some current =>
    if current.naturalOrder ≠ naturalOrder then return (false, shard)
    else do
      host.validateRecordIndexCoverage shard current
      let entries ← host.prepareWriteEntries (host.indexes collectionId) replacement.documentBson
      host.validateUniqueEntries shard collectionId idKey entries
      let naturalOrder ← documentNaturalOrderToSqlite naturalOrder
      let checksum := recordChecksum host.blake3 collectionId shardId naturalOrder idKey.bytes
        replacement.documentBson
      let selected := isExactly collectionId idKey.bytes naturalOrder
      let changed := (shard.documents.rows.filter selected).length
      let shard ← updateRow shard selected replacement.documentBson checksum
      if changed > 1 then
        throw (corrupt "exact document replacement changed more than one stored record")
      if changed = 1 then do
        let shard := removeRecordEntries collectionId idKey.bytes shard
        let shard ← host.insertPrepared shardId shard collectionId idKey.bytes checksum entries
        return (true, shard)
      else return (false, shard)

def deleteDocument (idKey : CanonicalBsonKey) :
    EngineResult (Bool × IndexedShard) := do
  host.validateDocumentKeyRoute shardId idKey
  match ← host.getDocument shardId shard collectionId idKey with
  | none => return (false, shard)
  | some current => do
    host.validateRecordIndexCoverage shard current
    let selected := fun row : DocumentRow => row.isOf collectionId idKey.bytes
    let changed := (shard.documents.rows.filter selected).length
    let shard := { shard with documents := shard.documents.delete selected }
    if changed > 1 then
      throw (corrupt "exact document deletion changed more than one stored record")
    if changed = 1 then return (true, removeRecordEntries collectionId idKey.bytes shard)
    else return (false, shard)

inductive DocumentWrite
  | insert (collectionId naturalOrder : Nat) (prepared : PreparedDocumentWrite)
  | replace (collectionId : Nat) (idKey : CanonicalBsonKey) (naturalOrder : Nat)
      (replacement : PreparedDocumentWrite)
  | delete (collectionId : Nat) (idKey : CanonicalBsonKey)

def write : DocumentWrite → EngineResult IndexedShard
  | .insert collectionId naturalOrder prepared =>
    host.insertPreparedDocument shardId shard collectionId naturalOrder prepared
  | .replace collectionId idKey naturalOrder replacement =>
    Prod.snd <$> host.replaceDocument shardId shard collectionId idKey naturalOrder replacement
  | .delete collectionId idKey => Prod.snd <$> host.deleteDocument shardId shard collectionId idKey

/-- The writes of one transaction, and whether its owner asks for a commit. -/
structure WriteTransaction where
  writes : List DocumentWrite
  commit : Bool

/-- A transaction that is not committed, or in which a write fails, leaves nothing. -/
def transact (transaction : WriteTransaction) : IndexedShard :=
  match transaction.writes.foldlM (host.write shardId) shard with
  | .error _ => shard
  | .ok next => if transaction.commit then next else shard

def history (transactions : List WriteTransaction) : IndexedShard :=
  transactions.foldl (host.transact shardId) shard

section Mirror

variable {host : RecordHost} {shardId : Nat} {shard next : IndexedShard}

/-- The entries that belong to a row: those of the document it stores. -/
def RowEntries (host : RecordHost) (shardId : Nat) (shard : IndexedShard) (row : DocumentRow) :
    Prop :=
  ∃ expected, host.prepareWriteEntries (host.indexes row.collectionId) row.documentBson =
    .ok expected ∧ EntriesOf host.blake3 shardId shard row (expectedIndexes expected)

/-- Every record has exactly the entries of its document, and no entry is without a record. -/
structure Mirrors (host : RecordHost) (shardId : Nat) (shard : IndexedShard) : Prop where
  entries : ∀ row ∈ shard.documents.rows, RowEntries host shardId shard row
  equality_owned : ∀ entry ∈ shard.equalityEntries.rows,
    ∃ row ∈ shard.documents.rows, row.isOf entry.collectionId entry.idKey = true
  ordered_owned : ∀ entry ∈ shard.orderedRows,
    ∃ row ∈ shard.documents.rows, row.isOf entry.collectionId entry.idKey = true

/-- A write concerns the rows and entries of one record only. -/
structure Rewrites (collectionId : Nat) (idKey : List UInt8) (shard next : IndexedShard) :
    Prop where
  documents : ∀ row, row.isOf collectionId idKey = false →
    (row ∈ next.documents.rows ↔ row ∈ shard.documents.rows)
  equality : next.equalityEntries.rows.filter (fun entry => !entry.isOf collectionId idKey) =
    shard.equalityEntries.rows.filter fun entry => !entry.isOf collectionId idKey
  ordered : next.orderedRows.filter (fun entry => !entry.ofRecord collectionId idKey) =
    shard.orderedRows.filter fun entry => !entry.ofRecord collectionId idKey

def NoEntries (collectionId : Nat) (idKey : List UInt8) (shard : IndexedShard) : Prop :=
  shard.equalityEntries.rows.filter (·.isOf collectionId idKey) = [] ∧
    shard.orderedRows.filter (·.ofRecord collectionId idKey) = []

variable {α : Type} {row : DocumentRow} {written : IndexedShard} {selected : DocumentRow → Bool}
    {bson checksum : List UInt8} {key : CanonicalBsonKey} {record : DocumentStorageRecord}

theorem filter_of_filter_not {rows rows' : List α} {of other : α → Bool}
    (hrest : rows'.filter (fun row => !of row) = rows.filter fun row => !of row)
    (hother : ∀ row, other row = true → of row = false) :
    rows'.filter other = rows.filter other := by
  have hrestrict (rows : List α) :
      (rows.filter fun row => !of row).filter other = rows.filter other := by
    rw [filter_filter]
    refine filter_congr fun row _ => ?_
    cases hrow : other row with
    | false => simp
    | true => simp [hother row hrow]
  rw [← hrestrict rows', hrest, hrestrict]

theorem mem_of_filter_not {rows rows' : List α} {of : α → Bool} {row : α}
    (hrest : rows'.filter (fun row => !of row) = rows.filter fun row => !of row)
    (hmem : row ∈ rows') : row ∈ rows'.filter of ∨ of row = false ∧ row ∈ rows := by
  cases hof : of row with
  | true => exact .inl (mem_filter.mpr ⟨hmem, hof⟩)
  | false =>
    grind [mem_of_mem_filter]

variable {collectionId : Nat} {idKey : List UInt8}

theorem Rewrites.entriesOf (h : Rewrites collectionId idKey shard next)
    (hrow : row.isOf collectionId idKey = false) {blake3 : List UInt8 → Digest}
    {indexes : List PreparedDocumentIndexKeys}
    (hentries : EntriesOf blake3 shardId shard row indexes) :
    EntriesOf blake3 shardId next row indexes := by
  have hkey : ¬ (row.collectionId = collectionId ∧ row.idKey = idKey) := by
    rw [← isOf_iff, hrow]
    exact Bool.false_ne_true
  have hequality : next.equalityEntries.rows.filter (·.isOf row.collectionId row.idKey) =
      shard.equalityEntries.rows.filter (·.isOf row.collectionId row.idKey) := by
    refine filter_of_filter_not h.equality fun entry hentry => ?_
    simp only [EqualityEntry.isOf, decide_eq_true_eq, decide_eq_false_iff_not] at hentry ⊢
    rwa [hentry.1, hentry.2]
  have hordered : next.orderedRows.filter (·.ofRecord row.collectionId row.idKey) =
      shard.orderedRows.filter (·.ofRecord row.collectionId row.idKey) := by
    refine filter_of_filter_not h.ordered fun entry hentry => ?_
    simp only [OrderedEntry.ofRecord, decide_eq_true_eq, decide_eq_false_iff_not] at hentry ⊢
    rwa [hentry.1, hentry.2]
  exact ⟨hequality ▸ hentries.equality, hordered ▸ hentries.ordered⟩

/-- A write keeps the mirror when its record has its entries afterwards, or both are gone. -/
theorem Mirrors.rewrite (hmirrors : Mirrors host shardId shard)
    (h : Rewrites collectionId idKey shard next)
    (hentries : ∀ row ∈ next.documents.rows, row.isOf collectionId idKey = true →
      RowEntries host shardId next row) (hgone : NoEntries collectionId idKey next ∨
      ∃ row ∈ next.documents.rows, row.isOf collectionId idKey = true) :
    Mirrors host shardId next := by
  have howned {collectionId' : Nat} {idKey' : List UInt8}
      (hother : ¬ (collectionId' = collectionId ∧ idKey' = idKey))
      (hrow : ∃ row ∈ shard.documents.rows, row.isOf collectionId' idKey' = true) :
      ∃ row ∈ next.documents.rows, row.isOf collectionId' idKey' = true := by
    obtain ⟨row, hmem, hof⟩ := hrow
    obtain ⟨rfl, rfl⟩ := isOf_iff.mp hof
    refine ⟨row, (h.documents row ?_).mpr hmem, hof⟩
    rwa [← Bool.not_eq_true, isOf_iff]
  refine ⟨?_, ?_, ?_⟩
  · intro row hrow
    cases hof : row.isOf collectionId idKey with
    | true => exact hentries row hrow hof
    | false =>
      obtain ⟨expected, hexpected, hstored⟩ := hmirrors.entries row ((h.documents row hof).mp hrow)
      exact ⟨expected, hexpected, h.entriesOf hof hstored⟩
  · intro entry hentry
    rcases mem_of_filter_not h.equality hentry with hmem | ⟨hof, hmem⟩
    · rcases hgone with hgone | hrow
      · rw [hgone.1] at hmem
        cases hmem
      · have hof := (mem_filter.mp hmem).2
        simp only [EqualityEntry.isOf, decide_eq_true_eq] at hof
        rwa [hof.1, hof.2]
    · refine howned ?_ (hmirrors.equality_owned entry hmem)
      simpa [EqualityEntry.isOf] using hof
  · intro entry hentry
    rcases mem_of_filter_not h.ordered hentry with hmem | ⟨hof, hmem⟩
    · rcases hgone with hgone | hrow
      · rw [hgone.2] at hmem
        cases hmem
      · have hof := (mem_filter.mp hmem).2
        simp only [OrderedEntry.ofRecord, decide_eq_true_eq] at hof
        rwa [hof.1, hof.2]
    · refine howned ?_ (hmirrors.ordered_owned entry hmem)
      simpa [OrderedEntry.ofRecord] using hof

variable {expected : Option PreparedDocumentIndexEntries}

/-- The record is written together with its entries over a shard without entries for it. -/
theorem mirrors_of_inserted (hmirrors : Mirrors host shardId shard)
    (h : Rewrites collectionId idKey shard written) (hnone : NoEntries collectionId idKey written)
    (hrow : row ∈ written.documents.rows) (hof : row.isOf collectionId idKey = true)
    (hexpected : host.prepareWriteEntries (host.indexes collectionId) row.documentBson =
      .ok expected)
    (hinsert : host.insertPrepared shardId written collectionId idKey row.documentChecksum
    expected =
      .ok next) : Mirrors host shardId next := by
  obtain ⟨rfl, rfl⟩ := isOf_iff.mp hof
  have hspec : Inserted written next
      (equalityRows host.blake3 row.collectionId shardId row.idKey row.documentChecksum
        (expectedIndexes expected))
      (orderedRows host.blake3 row.collectionId shardId row.idKey row.documentChecksum
        row.naturalOrder (expectedIndexes expected)) := by
    unfold insertPrepared at hinsert
    cases expected with
    | none =>
      cases hinsert
      exact ⟨rfl, (append_nil _).symm, (append_nil _).symm⟩
    | some entries =>
      have hall : selectedIndexes entries none = entries.indexes :=
        filter_eq_self.mpr fun _ _ => rfl
      have hspec := insertSelectedEntries_spec (documentRow_eq_some hrow) hinsert
      rwa [hall] at hspec
  have hequality : ∀ entry ∈ equalityRows host.blake3 row.collectionId shardId row.idKey
      row.documentChecksum (expectedIndexes expected),
      entry.isOf row.collectionId row.idKey = true := fun _ => isOf_of_mem_equalityRows
  have hordered : ∀ entry ∈ orderedRows host.blake3 row.collectionId shardId row.idKey
      row.documentChecksum row.naturalOrder (expectedIndexes expected),
      entry.ofRecord row.collectionId row.idKey = true := fun _ => ofRecord_of_mem_orderedRows
  have hrewrites : Rewrites row.collectionId row.idKey shard next := by
    refine ⟨?_, ?_, ?_⟩
    · intro other hother
      rw [hspec.documents]
      exact h.documents other hother
    · rw [hspec.equality, filter_append, h.equality, append_right_eq_self]
      exact filter_eq_nil_iff.mpr fun entry hentry => by simp [hequality entry hentry]
    · rw [hspec.ordered, filter_append, h.ordered, append_right_eq_self]
      exact filter_eq_nil_iff.mpr fun entry hentry => by simp [hordered entry hentry]
  refine hmirrors.rewrite hrewrites ?_ (.inr ⟨row, hspec.documents ▸ hrow, hof⟩)
  · intro other hother hsame
    rw [hspec.documents] at hother
    obtain ⟨hcollection, hid⟩ := isOf_iff.mp hsame
    obtain rfl : other = row := eq_of_conflict (fun _ _ => .symm) hother
      hrow ⟨hcollection, .inl hid⟩
    refine ⟨expected, hexpected, ?_, ?_⟩
    · rw [hspec.equality, filter_append, hnone.1, nil_append,
        filter_eq_self.mpr hequality]
    · rw [hspec.ordered, filter_append, hnone.2, nil_append,
        filter_eq_self.mpr hordered]

theorem rows_eq_of_insertRow (h : insertRow shard row = .ok next) :
    ∃ documents, shard.documents.insert row = some documents ∧ next = { shard with documents } := by
  unfold insertRow at h
  split at h
  next => cases h
  next documents hdocuments =>
    grind

section

variable (hmirrors : Mirrors host shardId shard)
include hmirrors

theorem Mirrors.noEntries
    (hnone : ∀ row ∈ shard.documents.rows, row.isOf collectionId idKey = false) :
    NoEntries collectionId idKey shard := by
  refine ⟨filter_eq_nil_iff.mpr fun entry hentry hof => ?_,
    filter_eq_nil_iff.mpr fun entry hentry hof => ?_⟩
  · obtain ⟨row, hrow, howner⟩ := hmirrors.equality_owned entry hentry
    simp only [EqualityEntry.isOf, decide_eq_true_eq] at hof
    grind
  · obtain ⟨row, hrow, howner⟩ := hmirrors.ordered_owned entry hentry
    simp only [OrderedEntry.ofRecord, decide_eq_true_eq] at hof
    grind

theorem mirrors_of_insertRow (hwritten : insertRow shard row = .ok written)
    (hexpected : host.prepareWriteEntries (host.indexes row.collectionId) row.documentBson =
      .ok expected)
    (hinsert : host.insertPrepared shardId written row.collectionId row.idKey row.documentChecksum
      expected = .ok next) : Mirrors host shardId next := by
  obtain ⟨documents, hdocuments, rfl⟩ := rows_eq_of_insertRow hwritten
  have hrows := rows_insert hdocuments
  have hself : row.isOf row.collectionId row.idKey = true := isOf_iff.mpr ⟨rfl, rfl⟩
  have hnone : ∀ other ∈ shard.documents.rows, other.isOf row.collectionId row.idKey = false := by
    intro other hother
    rw [← Bool.not_eq_true, isOf_iff]
    rintro ⟨hcollection, hid⟩
    exact apart_of_insert hdocuments other hother ⟨hcollection, .inl hid⟩
  have hmem : row ∈ documents.rows := by
    rw [hrows]
    exact mem_append_right _ (mem_singleton_self row)
  have hrewrites : Rewrites row.collectionId row.idKey shard { shard with documents } := by
    refine ⟨fun other hother => ?_, rfl, rfl⟩
    change other ∈ documents.rows ↔ _
    rw [hrows, mem_append, mem_singleton]
    refine or_iff_left ?_
    rintro rfl
    rw [hself] at hother
    cases hother
  exact mirrors_of_inserted hmirrors hrewrites (hmirrors.noEntries hnone) hmem hself hexpected
    hinsert

theorem mirrors_insertPreparedDocument {naturalOrder : Nat} {prepared : PreparedDocumentWrite}
    (h : host.insertPreparedDocument shardId shard collectionId naturalOrder prepared = .ok next) :
    Mirrors host shardId next := by
  unfold insertPreparedDocument at h
  obtain ⟨⟨⟩, -, h⟩ := bind_eq_ok.mp h
  obtain ⟨entries, hentries, h⟩ := bind_eq_ok.mp h
  obtain ⟨⟨⟩, -, h⟩ := bind_eq_ok.mp h
  obtain ⟨natural, -, h⟩ := bind_eq_ok.mp h
  obtain ⟨written, hwritten, h⟩ := bind_eq_ok.mp h
  exact mirrors_of_insertRow hmirrors hwritten hentries h

end

theorem noEntries_removeRecordEntries :
    NoEntries collectionId idKey (removeRecordEntries collectionId idKey shard) := by
  refine ⟨filter_delete _ _, ?_⟩
  unfold removeRecordEntries IndexedShard.orderedRows
  cases shard.orderedEntries with
  | none => rfl
  | some table => exact filter_delete _ table

theorem rewrites_removeRecordEntries {written : IndexedShard}
    (hdocuments : ∀ row, row.isOf collectionId idKey = false →
      (row ∈ written.documents.rows ↔ row ∈ shard.documents.rows))
    (hequality : written.equalityEntries = shard.equalityEntries)
    (hordered : written.orderedEntries = shard.orderedEntries) :
    Rewrites collectionId idKey shard (removeRecordEntries collectionId idKey written) := by
  refine ⟨hdocuments, ?_, ?_⟩
  · rw [← hequality]
    exact filter_not_delete _ _
  · unfold removeRecordEntries IndexedShard.orderedRows
    rw [hordered]
    cases shard.orderedEntries with
    | none => rfl
    | some table => exact filter_not_delete _ table

theorem rows_eq_of_updateRow (h : updateRow shard selected bson checksum = .ok next) :
    next.equalityEntries = shard.equalityEntries ∧ next.orderedEntries = shard.orderedEntries ∧
      next.documents.rows = shard.documents.rows.map fun row => if selected row then
        { row with documentBson := bson, documentChecksum := checksum } else row := by
  unfold updateRow at h
  split at h
  next => cases h
  next documents hdocuments =>
    cases h
    exact ⟨rfl, rfl, rows_update hdocuments⟩

theorem mirrors_of_updateRow (hmirrors : Mirrors host shardId shard) {natural : Int}
    (hwritten : updateRow shard (isExactly collectionId idKey natural) bson checksum = .ok written)
    (hfound : (shard.documents.rows.filter (isExactly collectionId idKey natural)).length = 1)
    (hexpected : host.prepareWriteEntries (host.indexes collectionId) bson = .ok expected)
    (hinsert : host.insertPrepared shardId (removeRecordEntries collectionId idKey written)
      collectionId idKey checksum expected = .ok next) : Mirrors host shardId next := by
  obtain ⟨hequality, hordered, hrows⟩ := rows_eq_of_updateRow hwritten
  obtain ⟨row, hrow⟩ := length_eq_one_iff.mp hfound
  have hmem : row ∈ shard.documents.rows.filter (isExactly collectionId idKey natural) := by
    rw [hrow]
    exact mem_singleton_self row
  obtain ⟨hstored, hexactly⟩ := mem_filter.mp hmem
  have hof : row.isOf collectionId idKey = true := (Bool.and_eq_true_iff.mp hexactly).1
  -- the record keeps its key, so the rows of the other records stay
  have hothers : ∀ other : DocumentRow, other.isOf collectionId idKey = false →
      (other ∈ written.documents.rows ↔ other ∈ shard.documents.rows) := by
    intro other hother
    rw [hrows, mem_map]
    constructor
    · rintro ⟨original, horiginal, rfl⟩
      split at hother
      next hselected =>
        have hsame := (Bool.and_eq_true_iff.mp hselected).1
        rw [show ({ original with documentBson := bson, documentChecksum := checksum } :
          DocumentRow).isOf collectionId idKey = original.isOf collectionId idKey from rfl,
          hsame] at hother
        cases hother
      · simp [*]
    · intro hmem
      refine ⟨other, hmem, if_neg ?_⟩
      simp [*, isExactly]
  have hnew : { row with documentBson := bson, documentChecksum := checksum } ∈
      written.documents.rows := by
    rw [hrows, mem_map]
    exact ⟨row, hstored, if_pos hexactly⟩
  exact mirrors_of_inserted hmirrors (rewrites_removeRecordEntries hothers hequality hordered)
    noEntries_removeRecordEntries hnew hof hexpected hinsert

theorem eq_of_updateRow (h : updateRow shard selected bson checksum = .ok next)
    (hnone : shard.documents.rows.filter selected = []) : next = shard := by
  obtain ⟨hequality, hordered, hrows⟩ := rows_eq_of_updateRow h
  have hdocuments : next.documents = shard.documents := by
    refine ext (hrows.trans ?_)
    refine (map_congr_left fun row hrow => ?_).trans (map_id _)
    exact if_neg (filter_eq_nil_iff.mp hnone row hrow)
  cases next
  cases shard
  grind

section

variable (hmirrors : Mirrors host shardId shard)
include hmirrors

variable {key : CanonicalBsonKey} {changed : Bool}

theorem mirrors_replaceDocument {naturalOrder : Nat} {replacement : PreparedDocumentWrite}
    (h : host.replaceDocument shardId shard collectionId key naturalOrder replacement =
      .ok (changed, next)) : Mirrors host shardId next := by
  unfold replaceDocument at h
  obtain ⟨⟨⟩, -, h⟩ := bind_eq_ok.mp h
  rw [ite_throw_eq_ok] at h
  obtain ⟨-, h⟩ := h
  obtain ⟨⟨⟩, -, h⟩ := bind_eq_ok.mp h
  obtain ⟨current, -, h⟩ := bind_eq_ok.mp h
  split at h
  next =>
    cases h
    exact hmirrors
  next current =>
    split at h
    next =>
      cases h
      exact hmirrors
    next =>
      obtain ⟨⟨⟩, -, h⟩ := bind_eq_ok.mp h
      obtain ⟨entries, hentries, h⟩ := bind_eq_ok.mp h
      obtain ⟨⟨⟩, -, h⟩ := bind_eq_ok.mp h
      obtain ⟨natural, -, h⟩ := bind_eq_ok.mp h
      obtain ⟨written, hwritten, h⟩ := bind_eq_ok.mp h
      rw [ite_throw_eq_ok] at h
      obtain ⟨hmany, h⟩ := h
      split at h
      next hone =>
        obtain ⟨stored, hstored, h⟩ := bind_eq_ok.mp h
        cases h
        exact mirrors_of_updateRow hmirrors hwritten hone hentries hstored
      next hone =>
        cases h
        have hnone : (shard.documents.rows.filter
            (isExactly collectionId key.bytes natural)).length = 0 := by omega
        grind [eq_of_updateRow]

theorem mirrors_deleteDocument
    (h : host.deleteDocument shardId shard collectionId key = .ok (changed, next)) :
    Mirrors host shardId next := by
  unfold deleteDocument at h
  obtain ⟨⟨⟩, -, h⟩ := bind_eq_ok.mp h
  obtain ⟨current, -, h⟩ := bind_eq_ok.mp h
  split at h
  next =>
    cases h
    exact hmirrors
  next current =>
    obtain ⟨⟨⟩, -, h⟩ := bind_eq_ok.mp h
    rw [ite_throw_eq_ok] at h
    obtain ⟨hmany, h⟩ := h
    have hgone : ∀ row ∈ (shard.documents.delete (·.isOf collectionId key.bytes)).rows,
        row.isOf collectionId key.bytes = false := fun row hrow => by
      simpa using (mem_filter.mp hrow).2
    have hothers : ∀ row : DocumentRow, row.isOf collectionId key.bytes = false →
        (row ∈ (shard.documents.delete (·.isOf collectionId key.bytes)).rows ↔
          row ∈ shard.documents.rows) := by
      intro row hrow
      change row ∈ shard.documents.rows.filter _ ↔ _
      simp [hrow]
    split at h
    next hone =>
      cases h
      have hrewrites := @rewrites_removeRecordEntries shard collectionId key.bytes
        ⟨shard.documents.delete (·.isOf collectionId key.bytes), shard.equalityEntries,
          shard.orderedEntries⟩ hothers rfl rfl
      refine hmirrors.rewrite hrewrites ?_ (.inl noEntries_removeRecordEntries)
      intro row hrow hof
      rw [hgone row hrow] at hof
      cases hof
    next hone =>
      cases h
      have hnone : (shard.documents.rows.filter (·.isOf collectionId key.bytes)).length = 0 := by
        omega
      have hall : ∀ row ∈ shard.documents.rows, row.isOf collectionId key.bytes = false :=
        fun row hrow => by
          simpa using filter_eq_nil_iff.mp (length_eq_zero_iff.mp hnone) row hrow
      refine hmirrors.rewrite ⟨hothers, rfl, rfl⟩ ?_ (.inl (hmirrors.noEntries hall))
      grind

theorem mirrors_write {write : DocumentWrite}
    (h : host.write shardId shard write = .ok next) : Mirrors host shardId next := by
  cases write with
  | insert collectionId naturalOrder prepared => exact mirrors_insertPreparedDocument hmirrors h
  | replace collectionId key naturalOrder replacement =>
    obtain ⟨⟨changed, stored⟩, hreplace, rfl⟩ := map_eq_ok.mp h
    exact mirrors_replaceDocument hmirrors hreplace
  | delete collectionId key =>
    obtain ⟨⟨changed, stored⟩, hdelete, rfl⟩ := map_eq_ok.mp h
    exact mirrors_deleteDocument hmirrors hdelete

theorem mirrors_writes {writes : List DocumentWrite}
    (h : writes.foldlM (host.write shardId) shard = .ok next) : Mirrors host shardId next := by
  induction writes generalizing shard with
  | nil =>
    cases h
    exact hmirrors
  | cons write writes ih =>
    rw [foldlM_cons] at h
    obtain ⟨middle, hmiddle, h⟩ := bind_eq_ok.mp h
    exact ih (mirrors_write hmirrors hmiddle) h

/-- A transaction keeps the mirror, whether it commits, is rolled back or fails. -/
theorem mirrors_transact (transaction : WriteTransaction) :
    Mirrors host shardId (host.transact shardId shard transaction) := by
  unfold transact
  split
  next => exact hmirrors
  next written hwritten =>
    grind [mirrors_writes]

theorem mirrors_history (transactions : List WriteTransaction) :
    Mirrors host shardId (host.history shardId shard transactions) := by
  induction transactions generalizing shard with
  | nil => exact hmirrors
  | cons transaction transactions ih => exact ih (mirrors_transact hmirrors transaction)

end

/-- The stored entries of a record are exactly the prepared ones, bound to its checksum. -/
structure RecordEntries (blake3 : List UInt8 → Digest) (shard : IndexedShard)
    (record : DocumentStorageRecord) (indexes : List PreparedDocumentIndexKeys) : Prop where
  equality : (shard.equalityEntries.rows.filter
      (·.isOf record.collectionId record.idKey.bytes)).Perm
    (equalityRows blake3 record.collectionId record.shard record.idKey.bytes record.checksum
    indexes)
  ordered : (shard.orderedRows.filter (·.ofRecord record.collectionId record.idKey.bytes)).Perm
    (orderedRows blake3 record.collectionId record.shard record.idKey.bytes record.checksum
      record.naturalOrder indexes)

theorem expected_prepareActiveEntries {collectionId : Nat} {document : BsonDocument}
    (h : host.prepareActiveEntries (host.indexes collectionId) document = .ok expected) :
    Expected collectionId expected := by
  rintro entries rfl
  unfold prepareActiveEntries at h
  split at h
  next => cases h
  next preparation hpreparation =>
    obtain ⟨prepared, hprepared, hentries⟩ := map_eq_ok.mp h
    cases hentries
    obtain ⟨hwell, hcollection⟩ := DocumentIndexPreparation.prepareForStorage_wellFormed hprepared
    exact ⟨hwell, hcollection.trans (host.collectionId_eq collectionId preparation hpreparation)⟩

/-- A record that is read has a row with its key, checksum and natural order. -/
theorem row_of_getDocument
    (h : host.getDocument shardId shard collectionId key = .ok (some record)) :
    ∃ row ∈ shard.documents.rows, row.collectionId = record.collectionId ∧
      record.collectionId = collectionId ∧ record.shard = shardId ∧
      row.idKey = record.idKey.bytes ∧ row.documentChecksum = record.checksum ∧
      row.naturalOrder = record.naturalOrder := by
  unfold getDocument at h
  obtain ⟨⟨⟩, -, h⟩ := bind_eq_ok.mp h
  split at h
  next => cases h
  next row hrow =>
    obtain ⟨decoded, hdecoded, hrecord⟩ := map_eq_ok.mp h
    cases hrecord
    let := host.crate
    obtain ⟨hnatural, -, hid, hchecksum⟩ := of_decodeStorageRecord _ hdecoded
    have hof : row.isOf collectionId key.bytes = true := by simpa using find?_some hrow
    obtain ⟨hcollection, hshard⟩ := scope_of_decodeStorageRecord _ hdecoded
    exact ⟨row, mem_of_find?_eq_some hrow, (isOf_iff.mp hof).1.trans hcollection.symm,
      hcollection, hshard, hid.symm, hchecksum.symm, hnatural.symm⟩

theorem validateRecordIndexCoverage_iff
    (hread : host.getDocument shardId shard collectionId key = .ok (some record)) :
    host.validateRecordIndexCoverage shard record = .ok () ↔
      ∃ expected, host.prepareActiveEntries (host.indexes collectionId) record.document =
        .ok expected ∧ RecordEntries host.blake3 shard record (expectedIndexes expected) := by
  obtain ⟨row, hrow, hcollection, rfl, rfl, hid, hchecksum, hnatural⟩ := row_of_getDocument hread
  unfold validateRecordIndexCoverage
  rw [bind_eq_ok]
  refine exists_congr fun expected => ?_
  rw [mapError_eq_ok]
  refine and_congr_right fun hexpected => ?_
  have hscope := expected_prepareActiveEntries hexpected
  rw [← hcollection] at hscope
  have hiff : validateRecordEntries host.blake3 row.collectionId record.shard row.idKey
      row.documentChecksum shard expected = .ok () ↔ _ := validateRecordEntries_iff hrow hscope
  rw [hcollection, hid, hchecksum] at hiff
  rw [hiff]
  constructor
  · rintro ⟨hequality, hordered⟩
    rw [hcollection, hid, hchecksum] at hequality hordered
    exact ⟨hequality, hnatural ▸ hordered⟩
  · rintro ⟨hequality, hordered⟩
    refine ⟨?_, ?_⟩
    · simp [*]
    · simp [*]

/-- After any transactions every record has exactly the entries that its document prepares, bound
to its checksum, and no entry is without a record. -/
theorem stored_entries_mirror_records (host : RecordHost) (shardId : Nat) {start : IndexedShard}
    (hstart : Mirrors host shardId start) (transactions : List WriteTransaction) :
    Mirrors host shardId (host.history shardId start transactions) ∧
      (∀ (shard : IndexedShard) (collectionId : Nat) (key : CanonicalBsonKey)
        (record : DocumentStorageRecord),
        host.getDocument shardId shard collectionId key = .ok (some record) →
        (host.validateRecordIndexCoverage shard record = .ok () ↔
          ∃ expected, host.prepareActiveEntries (host.indexes collectionId) record.document =
            .ok expected ∧ RecordEntries host.blake3 shard record (expectedIndexes expected))) ∧
      ∀ hashed : Set (List UInt8), hashed.InjOn host.blake3 →
        (∀ left right : EntryBinding, left.bytes ∈ hashed → right.bytes ∈ hashed →
          left.checksum host.blake3 = right.checksum host.blake3 → left = right) ∧
        ∀ left right : OrderedBinding, left.bytes ∈ hashed → right.bytes ∈ hashed →
          left.checksum host.blake3 = right.checksum host.blake3 → left = right := by
  refine ⟨mirrors_history hstart transactions, fun _ _ _ _ => validateRecordIndexCoverage_iff,
    fun hashed hfree => ⟨?_, ?_⟩⟩
  · intro left right hleft hright
    exact EntryBinding.eq_of_checksum hfree hleft hright
  · intro left right hleft hright
    exact OrderedBinding.eq_of_checksum hfree hleft hright

def emptyShard (ordered : Bool) : IndexedShard where
  documents := empty
  equalityEntries := empty
  orderedEntries := if ordered then some empty else none

theorem mirrors_emptyShard (host : RecordHost) (shardId : Nat) (ordered : Bool) :
    Mirrors host shardId (emptyShard ordered) := by
  refine ⟨nofun, nofun, ?_⟩
  intro entry hentry
  cases ordered <;> exact absurd hentry not_mem_nil

namespace SingleIndex

def preparation : DocumentIndexPreparation where
  collectionId := 1
  indexes := [⟨2, false, ⟨[["a"]], false, none, 512⟩, none⟩]
  retainedBytes := 896
  length_le := by decide
  ids_nodup := by decide
  ids_pos := by decide

def indexHost : RecordHost where
  blake3 := Blake3.hash
  crate := BsonWire.specified
  sizes := ⟨32, 56, by decide, OrderedPair.sizes.arraySlot_pos⟩
  shardForKey := fun _ => 0
  sorterCosts := ⟨fun _ _ => 0, List.length⟩
  indexes := fun collectionId => if collectionId = 1 then some preparation else none
  collectionId_eq := by
    intro collectionId found h
    split at h
    next hcollection =>
      cases h
      exact hcollection.symm
    next => cases h
  validateUniqueEntries := fun _ _ _ _ => .ok ()

/-- The key of the `_id` 1 or 2. -/
def storedId (second : Bool) : CanonicalBsonKey := ⟨OrderedPair.idKey second⟩

/-- A document with `_id` 1 or 2 and the given `a`. -/
def prepared (second : Bool) (a : UInt8) : PreparedDocumentWrite where
  idKey := storedId second
  documentBson := OrderedPair.bson (if second then 2 else 1) a
  shard := 0

/-- Two insertions, a replacement of the first document and a deletion of the second, each
committed, then a deletion that is rolled back. -/
def transactions : List WriteTransaction :=
  [⟨[.insert 1 1 (prepared false 5), .insert 1 2 (prepared true 5)], true⟩,
    ⟨[.replace 1 (storedId false) 1 (prepared false 6)], true⟩,
    ⟨[.delete 1 (storedId true)], true⟩, ⟨[.delete 1 (storedId false)], false⟩]

end SingleIndex

theorem stored_entries_mirror_records_replaced :
    let shard := SingleIndex.indexHost.history 0 (emptyShard false) SingleIndex.transactions
    (shard.documents.rows.map (·.documentBson), shard.equalityEntries.rows.map (·.idKey)) =
        ([OrderedPair.bson 1 6], [OrderedPair.idKey false]) ∧
      Mirrors SingleIndex.indexHost 0 shard :=
  ⟨by decide +kernel, (stored_entries_mirror_records SingleIndex.indexHost 0
    (mirrors_emptyShard SingleIndex.indexHost 0 false) SingleIndex.transactions).1⟩

end Mirror

end RecordHost

end BriskDB.Storage
