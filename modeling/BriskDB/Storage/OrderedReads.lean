import BriskDB.Document.OrderedIndex
import BriskDB.Lib.Blake3
import BriskDB.Lib.Scan
import BriskDB.Storage.DocumentRecord

/-! # Reading a shard in index order

Beside its documents a shard keeps the ordered entries of its indexes: for each
document, index and direction the ordered sort bytes, or a marker without bytes when
they could not be derived. A read in index order walks the entries of one direction
by (bytes, natural order), after the position of the last document it returned, and
checks every entry against its document. When there is a marker it declines before
the first document.
-/

namespace BriskDB.Storage

open Document Result Blake3 IndexOrdering List

/-- A row of `briskdb_document_ordered_entries_v1`; no sort key is the marker. -/
structure OrderedEntry where
  collectionId : Nat
  idKey : List UInt8
  indexId : Nat
  direction : Nat
  sortKey : Option (List UInt8)
  naturalOrder : Int
  entryChecksum : List UInt8
  entryFormatVersion : Int

structure DocumentShard where
  documents : List DocumentRow
  orderedEntries : List OrderedEntry

structure CompiledIndex where
  id : Nat
  ordering : Option IndexOrdering

def hashSortKey : Option (List UInt8) → List UInt8
  | some key => hashBytes key
  | none => []

/-- What the checksum of an ordered entry is taken over. -/
def orderedBytes (collectionId indexId shard : Nat) (idKey : List UInt8) (direction : Nat)
    (key : Option (List UInt8)) (naturalOrder : Int) (record : List UInt8) : List UInt8 :=
  Utf8.bytes "briskdb.document-ordered-entry.v1\x00" ++ Bytes.ofLe 4 1 ++
    Bytes.ofLe 8 collectionId ++ Bytes.ofLe 8 indexId ++ Bytes.ofLe 2 shard ++
    hashBytes idKey ++ [UInt8.ofNat direction, if key.isSome then 1 else 0] ++
    hashSortKey key ++ int64Bytes naturalOrder ++ record

section Definitions

variable (blake3 : List UInt8 → Digest)

def orderedChecksum (collectionId indexId shard : Nat) (idKey : List UInt8) (direction : Nat)
    (key : Option (List UInt8)) (naturalOrder : Int) (record : List UInt8) : List UInt8 :=
  (blake3
    (orderedBytes collectionId indexId shard idKey direction key naturalOrder record)).1

def insertSelected (collectionId shard indexId : Nat) (ordering : IndexOrdering)
    (record : DocumentStorageRecord) : EngineResult (List OrderedEntry) := do
  let keys ← ordering.prepare record.document
  return keys.zipIdx.map fun (key, direction) =>
    { collectionId
      idKey := record.idKey.bytes
      indexId
      direction
      sortKey := key
      naturalOrder := record.naturalOrder
      entryChecksum := orderedChecksum blake3 collectionId indexId shard record.idKey.bytes
        direction key record.naturalOrder record.checksum
      entryFormatVersion := 1 }

/-- Row values compare column by column. -/
def comparePosition : List UInt8 × Int → List UInt8 × Int → Ordering :=
  compareLex (compareOn Prod.fst) (compareOn Prod.snd)

def OrderedEntry.position (entry : OrderedEntry) : List UInt8 × Int :=
  (entry.sortKey.getD [], entry.naturalOrder)

def OrderedEntry.isOf (entry : OrderedEntry) (collectionId indexId direction : Nat) : Bool :=
  entry.collectionId = collectionId ∧ entry.indexId = indexId ∧ entry.direction = direction

def markers (shard : DocumentShard) (collectionId indexId direction : Nat) : Bool :=
  shard.orderedEntries.any fun entry =>
    entry.isOf collectionId indexId direction && entry.sortKey.isNone

/-- The entries after a position, in order, each with its document. -/
def selectRecords (shard : DocumentShard) (collectionId indexId direction : Nat)
    (after : List UInt8 × Int) : List (DocumentRow × OrderedEntry) :=
  let entries := shard.orderedEntries.filter fun entry =>
    entry.isOf collectionId indexId direction && entry.sortKey.isSome
  (Scan.scanAfter comparePosition OrderedEntry.position after entries).flatMap fun entry =>
    (shard.documents.filter fun row =>
      row.collectionId = entry.collectionId ∧ row.idKey = entry.idKey).map fun row => (row, entry)

/-- Failures to reproduce stored entries are damage. -/
def storedIndexError (error : EngineError) : EngineError :=
  match error.kind with
  | .invalidArgument | .unsupported | .limitExceeded | .failedPrecondition =>
    .new .dataCorruption "stored document index authority cannot reproduce its bounded entries"
  | _ => error

variable [BsonWire.Crate] (sizes : DecodedSizes) (shardForKey : List UInt8 → Nat)

def fetchRecord (collectionId shardId indexId direction : Nat) (sorter : DocumentSorter)
    (row : DocumentRow × OrderedEntry) : EngineResult (DocumentStorageRecord × DocumentSortKey) :=
    do
  let record ← decodeStorageRecord blake3 sizes collectionId shardId row.1
  if shardForKey record.idKey.bytes ≠ shardId then
    throw (corrupt "ordered document index returned a misrouted record")
  let entry := row.2
  let key := entry.sortKey.getD []
  if entry.entryFormatVersion ≠ 1 ∨ entry.naturalOrder ≠ record.naturalOrder ∨
      key.length > 65536 ∨
      entry.entryChecksum ≠ orderedChecksum blake3 collectionId indexId shardId record.idKey.bytes
        direction (some key) entry.naturalOrder record.checksum then
    throw (corrupt "ordered index candidate is stale or damaged")
  let derived ← (sorter.keyValidated record.document).mapError storedIndexError
  if (← derived.orderedBytes) ≠ key then
    throw (corrupt "ordered index candidate disagrees with its document")
  return (record, derived)

/-- What a caller does with a document: a new state and whether to go on, or an error. -/
abbrev Visitor (σ : Type) :=
  σ → DocumentStorageRecord → DocumentSortKey → EngineResult (σ × Bool)

def visitRows {σ : Type} (fetch : DocumentRow × OrderedEntry →
      EngineResult (DocumentStorageRecord × DocumentSortKey)) (visit : Visitor σ) :
    List (DocumentRow × OrderedEntry) → σ → EngineResult σ
  | [], state => return state
  | row :: rows, state => do
    let (record, key) ← fetch row
    let (state, more) ← visit state record key
    if more then visitRows fetch visit rows state else return state

/-- The first index that keeps the requested order, with its direction. -/
def orderedProbe (indexes : List CompiledIndex) (sorter : DocumentSorter) : Option (Nat × Nat) :=
  indexes.findSome? fun index =>
    (index.ordering.bind (·.direction sorter)).map fun direction => (index.id, direction)

/-- The position of the last document that was returned, or one before every entry. -/
def resumePosition : Option (DocumentSortKey × Nat) → EngineResult (List UInt8 × Int)
  | some (key, natural) => do
    let bytes ← key.orderedBytes
    let natural ← documentNaturalOrderToSqlite natural
    return (bytes, natural)
  | none => return ([], 0)

/-- Visit the documents of a shard in the order of a sort, after a position. -/
def visitOrderedDocuments {σ : Type} (indexes : List CompiledIndex) (shard : DocumentShard)
    (collectionId shardId : Nat) (sorter : DocumentSorter) (finiteCandidates : Bool)
    (after : Option (DocumentSortKey × Nat)) (visit : Visitor σ) (state : σ) :
    EngineResult (Bool × σ) :=
  match if finiteCandidates then none else orderedProbe indexes sorter with
  | none => .ok (false, state)
  | some (indexId, direction) => do
    let position ← resumePosition after
    if markers shard collectionId indexId direction then return (false, state)
    else do
      let state ← visitRows
        (fetchRecord blake3 sizes shardForKey collectionId shardId indexId direction sorter) visit
        (selectRecords shard collectionId indexId direction position) state
      return (true, state)

end Definitions

instance : Std.TransCmp comparePosition :=
  inferInstanceAs (Std.TransCmp (compareLex (compareOn Prod.fst) (compareOn Prod.snd)))

section

variable {blake3 : List UInt8 → Digest} {sizes : DecodedSizes} {shardForKey : List UInt8 → Nat}
  {indexes : List CompiledIndex} {shard : DocumentShard} {collectionId shardId : Nat}
  {records : List DocumentStorageRecord}

variable (blake3)

/-- The documents of a collection on a shard, and the ordered entries written with them. -/
structure Maintained [BsonWire.Crate] (sizes : DecodedSizes)
    (shardForKey : List UInt8 → Nat) (indexes : List CompiledIndex) (shard : DocumentShard)
    (collectionId shardId : Nat) (records : List DocumentStorageRecord) : Prop where
  decoded : List.Forall₂
    (fun row record => decodeStorageRecord blake3 sizes collectionId shardId row = .ok record)
    (shard.documents.filter (·.collectionId = collectionId)) records
  routed : ∀ record ∈ records, shardForKey record.idKey.bytes = shardId
  ids_nodup : (records.map (·.idKey.bytes)).Nodup
  naturals_nodup : (records.map (·.naturalOrder)).Nodup
  naturals_lt : ∀ record ∈ records, record.naturalOrder < 2 ^ 63
  entries : ∀ index ∈ indexes, ∀ ordering, index.ordering = some ordering →
    ∃ written, List.Forall₂
      (fun record rows =>
        insertSelected blake3 collectionId shardId index.id ordering record = .ok rows)
      records written ∧
      (shard.orderedEntries.filter fun entry =>
        entry.collectionId = collectionId ∧ entry.indexId = index.id).Perm written.flatten

def entryFor (collectionId shardId indexId direction : Nat)
    (key : Option (List UInt8)) (record : DocumentStorageRecord) : OrderedEntry where
  collectionId := collectionId
  idKey := record.idKey.bytes
  indexId := indexId
  direction := direction
  sortKey := key
  naturalOrder := record.naturalOrder
  entryChecksum := orderedChecksum blake3 collectionId indexId shardId record.idKey.bytes
    direction key record.naturalOrder record.checksum
  entryFormatVersion := 1

variable {blake3}

def storedKey (sorter : DocumentSorter) (document : BsonDocument) : Option (List UInt8) :=
  match prepareKey sorter document with
  | .ok key => key
  | .error _ => none

variable {indexId : Nat} {σ : Type} {spec : BsonDocument}
  {ordering : IndexOrdering} {record : DocumentStorageRecord} {direction : Nat}
    {key : DocumentSortKey} {bytes : List UInt8} {sorter : DocumentSorter} {visit : Visitor σ}

theorem insertSelected_eq {rows : List OrderedEntry}
    (h : insertSelected blake3 collectionId shardId indexId ordering record = .ok rows)
    (hdirection : direction < 2) :
    (∃ key, prepareKey (ordering.sorterOf direction) record.document = .ok key) ∧
      rows.filter (·.isOf collectionId indexId direction) =
        [entryFor blake3 collectionId shardId indexId direction
          (storedKey (ordering.sorterOf direction) record.document) record] := by
  unfold insertSelected prepare at h
  obtain ⟨keys, hkeys, h⟩ := bind_eq_ok.mp h
  simp only [mapM_cons, mapM_nil] at hkeys
  obtain ⟨declared, hdeclared, hkeys⟩ := bind_eq_ok.mp hkeys
  obtain ⟨rest, hrest, hkeys⟩ := bind_eq_ok.mp hkeys
  obtain ⟨inverse, hinverse, hrest⟩ := bind_eq_ok.mp hrest
  cases hrest
  cases hkeys
  cases h
  have hcases : direction = 0 ∨ direction = 1 := by omega
  rcases hcases with rfl | rfl
  · have hsorter : ordering.sorterOf 0 = ordering.declared := rfl
    simp [*, storedKey, entryFor, OrderedEntry.isOf]
  · have hsorter : ordering.sorterOf 1 = ordering.inverse := rfl
    simp [*, storedKey, entryFor, OrderedEntry.isOf]

theorem entries_perm {written : List (List OrderedEntry)} (hdirection : direction < 2)
    (hwritten : List.Forall₂ (fun record rows =>
      insertSelected blake3 collectionId shardId indexId ordering record = .ok rows)
      records written) (hentries : (shard.orderedEntries.filter fun entry =>
      entry.collectionId = collectionId ∧ entry.indexId = indexId).Perm written.flatten) :
    (shard.orderedEntries.filter (·.isOf collectionId indexId direction)).Perm
      (records.map fun record => entryFor blake3 collectionId shardId indexId direction
        (storedKey (ordering.sorterOf direction) record.document) record) := by
  have hflatten : written.flatten.filter (·.isOf collectionId indexId direction) =
      records.map fun record => entryFor blake3 collectionId shardId indexId direction
        (storedKey (ordering.sorterOf direction) record.document) record := by
    clear hentries
    induction hwritten with
    | nil => rfl
    | cons hrows _ ih =>
      grind [insertSelected_eq]
  rw [← hflatten]
  refine List.Perm.trans (List.Perm.of_eq ?_) (hentries.filter _)
  rw [filter_filter]
  refine filter_congr ?_
  intro entry _
  rw [Bool.eq_iff_iff]
  simp only [OrderedEntry.isOf, decide_eq_true_eq, Bool.and_eq_true]
  tauto

/-- The documents of a shard whose sort keys all have an order key, in one direction of
one index. -/
structure Covered (blake3 : List UInt8 → Digest) (sizes : DecodedSizes)
    (shardForKey : List UInt8 → Nat) (shard : DocumentShard)
    (collectionId shardId indexId direction : Nat) (sorter : DocumentSorter)
    (records : List DocumentStorageRecord) (key : DocumentStorageRecord → DocumentSortKey)
    (bytes : DocumentStorageRecord → List UInt8) : Prop where
  keyed : ∀ record ∈ records, sorter.keyValidated record.document = .ok (key record)
  encoded : ∀ record ∈ records,
    (key record).orderedBytesBounded quietHost () maxOrderKeyBytes = .ok (bytes record)
  entries : (shard.orderedEntries.filter (·.isOf collectionId indexId direction)).Perm
    (records.map fun record => entryFor blake3 collectionId shardId indexId direction
      (some (bytes record)) record)

def recordPosition (bytes : DocumentStorageRecord → List UInt8) (record : DocumentStorageRecord) :
    List UInt8 × Int :=
  (bytes record, record.naturalOrder)

def Precedes (left right : DocumentStorageRecord × DocumentSortKey) : Prop :=
  left.2.cmp right.2 = .lt ∨ left.2.cmp right.2 = .eq ∧ left.1.naturalOrder < right.1.naturalOrder

theorem comparePosition_eq (left right : List UInt8 × Int) :
    comparePosition left right = (compare left.1 right.1).then (compare left.2 right.2) := rfl

theorem distinct_recordPosition (hnodup : (records.map (·.naturalOrder)).Nodup)
    (bytes : DocumentStorageRecord → List UInt8) :
    Scan.Distinct comparePosition (recordPosition bytes) records := by
  refine (pairwise_map.mp hnodup).imp ?_
  intro left right hne heq
  rw [comparePosition_eq, Ordering.then_eq_eq] at heq
  have hnatural : (left.naturalOrder : Int) = right.naturalOrder :=
    Std.LawfulEqOrd.compare_eq_iff_eq.mp heq.2
  exact hne (by exact_mod_cast hnatural)

/-- The bytes order the records as their sort keys do. -/
theorem precedes_of_position {left right : DocumentStorageRecord}
    {key : DocumentStorageRecord → DocumentSortKey} {bytes : DocumentStorageRecord → List UInt8}
    (hleft : (key left).orderedBytesBounded quietHost () maxOrderKeyBytes = .ok (bytes left))
    (hright : (key right).orderedBytesBounded quietHost () maxOrderKeyBytes = .ok (bytes right))
    (h : comparePosition (recordPosition bytes left) (recordPosition bytes right) = .lt) :
    Precedes (left, key left) (right, key right) := by
  rw [comparePosition_eq, recordPosition, recordPosition,
    (orderedBytes_compare hleft hright).1, Ordering.then_eq_lt] at h
  refine h.imp_right ?_
  grind

def visitAll (visit : Visitor σ) :
    List (DocumentStorageRecord × DocumentSortKey) → σ → EngineResult σ
  | [], state => return state
  | (record, key) :: rest, state => do
    let (state, more) ← visit state record key
    if more then visitAll visit rest state else return state

theorem fetchRecord_eq [BsonWire.Crate] {row : DocumentRow}
    (hrow : decodeStorageRecord blake3 sizes collectionId shardId row = .ok record)
    (hrouted : shardForKey record.idKey.bytes = shardId)
    (hkey : sorter.keyValidated record.document = .ok key)
    (hbytes : key.orderedBytesBounded quietHost () maxOrderKeyBytes = .ok bytes) :
    fetchRecord blake3 sizes shardForKey collectionId shardId indexId direction sorter
        (row, entryFor blake3 collectionId shardId indexId direction (some bytes) record) =
      .ok (record, key) := by
  have hwide : key.orderedBytes = .ok bytes :=
    orderedBytesBounded_mono quietHost_quiet () (by decide) hbytes
  have hlength : ¬ bytes.length > 65536 := not_lt.mpr (length_le_of_orderedBytesBounded hbytes)
  simp only [fetchRecord, hrow, ok_bind, hrouted, ne_eq, not_true_eq_false, if_false,
    entryFor, Option.getD_some, hlength, or_self, hkey, Except.mapError, hwide]
  rfl

theorem joined_eq [BsonWire.Crate] {rows : List DocumentRow}
    (hdecoded : List.Forall₂ (fun row record =>
      decodeStorageRecord blake3 sizes collectionId shardId row = .ok record) rows records)
    (hnodup : (records.map (·.idKey.bytes)).Nodup) (hrecord : record ∈ records) :
    ∃ row, decodeStorageRecord blake3 sizes collectionId shardId row = .ok record ∧
      rows.filter (fun row => row.idKey = record.idKey.bytes) = [row] := by
  induction hdecoded with
  | nil => exact absurd hrecord not_mem_nil
  | @cons row first rows rest hrow hrest ih =>
    obtain ⟨-, -, hid, -⟩ := of_decodeStorageRecord blake3 hrow
    rw [map_cons, nodup_cons] at hnodup
    -- the ids of the remaining rows are those of the remaining records
    have hids : rows.map (·.idKey) = rest.map (·.idKey.bytes) := by
      clear ih hnodup hrecord
      induction hrest with
      | nil => rfl
      | cons hrow _ ih =>
        obtain ⟨-, -, hid, -⟩ := of_decodeStorageRecord blake3 hrow
        simp [*]
    rcases mem_cons.mp hrecord with rfl | hmem
    · refine ⟨row, hrow, ?_⟩
      rw [filter_cons_of_pos (by simp [hid]), List.cons.injEq, filter_eq_nil_iff]
      grind
    · obtain ⟨found, hfound, hfilter⟩ := ih hnodup.2 hmem
      grind

theorem visitRows_eq
    {fetch : DocumentRow × OrderedEntry → EngineResult (DocumentStorageRecord × DocumentSortKey)}
    {join : OrderedEntry → List (DocumentRow × OrderedEntry)}
    {entry : DocumentStorageRecord → OrderedEntry}
    {key : DocumentStorageRecord → DocumentSortKey} {ordered : List DocumentStorageRecord}
    (hjoin : ∀ record ∈ ordered, ∃ row, join (entry record) = [(row, entry record)] ∧
      fetch (row, entry record) = .ok (record, key record)) (state : σ) :
    visitRows fetch visit ((ordered.map entry).flatMap join) state =
      visitAll visit (ordered.map fun record => (record, key record)) state := by
  induction ordered generalizing state with
  | nil => rfl
  | cons record rest ih =>
    obtain ⟨row, hrow, hfetch⟩ := hjoin record mem_cons_self
    have hrest := ih (forall_mem_cons.mp hjoin).2
    rw [map_cons, flatMap_cons, hrow, singleton_append, visitRows, hfetch,
      ok_bind, map_cons, visitAll]
    refine bind_congr ?_
    rintro ⟨next, more⟩
    cases more with
    | false => rfl
    | true => exact hrest next

section

variable [BsonWire.Crate]
  (h : Maintained blake3 sizes shardForKey indexes shard collectionId shardId records)
include h

variable {direction : Nat} {sorter : DocumentSorter}

/-- The records after a position, in order, are what the statement selects. -/
theorem visitRows_selectRecords {key : DocumentStorageRecord → DocumentSortKey}
    {bytes : DocumentStorageRecord → List UInt8}
    (hcovered : Covered blake3 sizes shardForKey shard collectionId shardId indexId direction
      sorter records key bytes) (after : List UInt8 × Int) (state : σ) :
    visitRows (fetchRecord blake3 sizes shardForKey collectionId shardId indexId direction sorter)
        visit (selectRecords shard collectionId indexId direction after) state =
      visitAll visit ((Scan.scanAfter comparePosition (recordPosition bytes) after records).map
        fun record => (record, key record)) state := by
  have hdistinct := distinct_recordPosition h.naturals_nodup bytes
  have hsome : shard.orderedEntries.filter (fun entry =>
      entry.isOf collectionId indexId direction && entry.sortKey.isSome) =
        shard.orderedEntries.filter (·.isOf collectionId indexId direction) := by
    refine filter_congr ?_
    intro entry hentry
    cases hof : entry.isOf collectionId indexId direction with
    | false => rfl
    | true =>
      have hmem := hcovered.entries.mem_iff.mp (mem_filter.mpr ⟨hentry, hof⟩)
      obtain ⟨record, -, rfl⟩ := mem_map.mp hmem
      rfl
  have hscan : Scan.scanAfter comparePosition OrderedEntry.position after
      (shard.orderedEntries.filter (·.isOf collectionId indexId direction)) =
        (Scan.scanAfter comparePosition (recordPosition bytes) after records).map fun record =>
          entryFor blake3 collectionId shardId indexId direction (some (bytes record)) record := by
    rw [Scan.scanAfter_congr _ hcovered.entries, Scan.scanAfter_map hdistinct]
    · exact fun record _ => rfl
    · refine Scan.Distinct.perm hcovered.entries.symm ?_
      exact pairwise_map.mpr hdistinct
  unfold selectRecords
  simp only [hsome]
  rw [hscan]
  apply visitRows_eq
  intro record hrecord
  have hmem : record ∈ records :=
    mem_of_mem_filter ((Scan.scan_perm _ _ _).mem_iff.mp hrecord)
  obtain ⟨row, hrow, hfilter⟩ := joined_eq h.decoded h.ids_nodup hmem
  refine ⟨row, ?_, fetchRecord_eq hrow (h.routed record hmem) (hcovered.keyed record hmem)
    (hcovered.encoded record hmem)⟩
  have hjoined : shard.documents.filter (fun row =>
      row.collectionId = collectionId ∧ row.idKey = record.idKey.bytes) = [row] := by
    rw [← hfilter, filter_filter]
    refine filter_congr ?_
    intro other _
    rw [Bool.eq_iff_iff]
    simp only [decide_eq_true_eq, Bool.and_eq_true]
    exact and_comm
  exact congrArg (List.map fun row => (row, _)) hjoined

section

variable (hsorter : DocumentSorter.compileFields spec = .ok sorter)
include hsorter

section

variable (hprobe : orderedProbe indexes sorter = some (indexId, direction))
include hprobe

/-- The index that serves a sort was written by the sorter that was asked for. -/
theorem covered_of_probe :
    (∀ record ∈ records, ∃ key, prepareKey sorter record.document = .ok key) ∧
      (shard.orderedEntries.filter (·.isOf collectionId indexId direction)).Perm
        (records.map fun record => entryFor blake3 collectionId shardId indexId direction
          (storedKey sorter record.document) record) := by
  obtain ⟨index, hindex, hfound⟩ := exists_of_findSome?_eq_some hprobe
  obtain ⟨found, hdirection, hpair⟩ := Option.map_eq_some_iff.mp hfound
  obtain ⟨ordering, hordering, hdirection⟩ := Option.bind_eq_some_iff.mp hdirection
  cases hpair
  obtain ⟨hlt, hsame⟩ := sorterOf_direction hsorter hdirection
  obtain ⟨written, hwritten, hentries⟩ := h.entries index hindex ordering hordering
  subst hsame
  refine ⟨?_, entries_perm hlt hwritten hentries⟩
  intro record hrecord
  obtain ⟨place, rfl⟩ := get_of_mem hrecord
  have hrows := hwritten.get place.2 (hwritten.length_eq ▸ place.2)
  exact (insertSelected_eq hrows hlt).1

theorem markers_iff :
    markers shard collectionId indexId direction = true ↔
      ∃ record ∈ records, prepareKey sorter record.document = .ok none := by
  obtain ⟨hprepared, hentries⟩ := covered_of_probe h hsorter hprobe
  rw [markers, any_eq_true]
  constructor
  · rintro ⟨entry, hentry, hmarker⟩
    rw [Bool.and_eq_true] at hmarker
    have hmem := hentries.mem_iff.mp (mem_filter.mpr ⟨hentry, hmarker.1⟩)
    obtain ⟨record, hrecord, rfl⟩ := mem_map.mp hmem
    obtain ⟨key, hkey⟩ := hprepared record hrecord
    have hnone : key = none := by simpa [entryFor, storedKey, hkey] using hmarker.2
    exact ⟨record, hrecord, hnone ▸ hkey⟩
  · rintro ⟨record, hrecord, hkey⟩
    have hmem := hentries.mem_iff.mpr (mem_map_of_mem hrecord)
    obtain ⟨hentry, hof⟩ := mem_filter.mp hmem
    refine ⟨_, hentry, ?_⟩
    rw [Bool.and_eq_true]
    grind [entryFor, storedKey]

theorem exists_covered (hnone : ∀ record ∈ records, prepareKey sorter record.document ≠ .ok none) :
    ∃ key bytes, Covered blake3 sizes shardForKey shard collectionId shardId indexId direction
      sorter records key bytes := by
  obtain ⟨hprepared, hentries⟩ := covered_of_probe h hsorter hprobe
  have hkeys : ∀ record : DocumentStorageRecord, ∃ pair : DocumentSortKey × List UInt8,
      record ∈ records → sorter.keyValidated record.document = .ok pair.1 ∧
        pair.1.orderedBytesBounded quietHost () maxOrderKeyBytes = .ok pair.2 ∧
        storedKey sorter record.document = some pair.2 := by
    intro record
    by_cases hrecord : record ∈ records
    · obtain ⟨key, hkey⟩ := hprepared record hrecord
      cases key with
      | none => exact absurd hkey (hnone record hrecord)
      | some bytes =>
        obtain ⟨key, hvalidated, -, hbytes⟩ := prepareKey_eq_some hkey
        simp [*, storedKey]
    · exact ⟨(⟨[]⟩, []), fun hmem => absurd hmem hrecord⟩
  choose pair hpair using hkeys
  refine ⟨fun record => (pair record).1, fun record => (pair record).2, ?_, ?_, ?_⟩
  · exact fun record hrecord => (hpair record hrecord).1
  · exact fun record hrecord => (hpair record hrecord).2.1
  · grind [map_congr_left]

end

end

end

theorem visitOrderedDocuments_eq [BsonWire.Crate] {after : Option (DocumentSortKey × Nat)}
    {position : List UInt8 × Int} (hprobe : orderedProbe indexes sorter = some (indexId, direction))
    (hposition : resumePosition after = .ok position) (state : σ) :
    visitOrderedDocuments blake3 sizes shardForKey indexes shard collectionId shardId sorter false
        after visit state =
      if markers shard collectionId indexId direction then .ok (false, state)
      else (visitRows
        (fetchRecord blake3 sizes shardForKey collectionId shardId indexId direction sorter) visit
        (selectRecords shard collectionId indexId direction position) state).map (true, ·) := by
  unfold visitOrderedDocuments
  simp only [Bool.false_eq_true, if_false, hprobe, hposition, ok_bind]
  split
  · rfl
  · cases visitRows _ visit _ state <;> rfl

theorem resumePosition_eq {natural : Nat}
    (hbytes : key.orderedBytesBounded quietHost () maxOrderKeyBytes = .ok bytes)
    (hpos : 0 < natural) (hlt : natural < 2 ^ 63) :
    resumePosition (some (key, natural)) = .ok (bytes, (natural : Int)) := by
  have hwide : key.orderedBytes = .ok bytes :=
    orderedBytesBounded_mono quietHost_quiet () (by decide) hbytes
  have hnatural : documentNaturalOrderToSqlite natural = .ok (natural : Int) := by
    unfold documentNaturalOrderToSqlite
    rw [if_neg (by omega)]
    simp only
    rw [if_neg (by omega)]
    rfl
  simp [resumePosition, hwide, hnatural, ok_bind, pure_eq]

/-- The records with their keys, by key and natural order. -/
def orderedRecords (key : DocumentStorageRecord → DocumentSortKey)
    (bytes : DocumentStorageRecord → List UInt8) (records : List DocumentStorageRecord) :
    List (DocumentStorageRecord × DocumentSortKey) :=
  (Scan.scan comparePosition (recordPosition bytes) records).map fun record =>
    (record, key record)

namespace Covered

variable {key : DocumentStorageRecord → DocumentSortKey}
  {bytes : DocumentStorageRecord → List UInt8}
  (hcovered : Covered blake3 sizes shardForKey shard collectionId shardId indexId direction sorter
    records key bytes)

theorem orderedRecords_perm : ((orderedRecords key bytes records).map (·.1)).Perm records := by
  rw [orderedRecords, map_map]
  exact (List.Perm.of_eq (map_id _)).trans (Scan.scan_perm _ _ records)

include hcovered

theorem orderedRecords_keyed : ∀ entry ∈ orderedRecords key bytes records,
    sorter.keyValidated entry.1.document = .ok entry.2 := by
  intro entry hentry
  obtain ⟨record, hrecord, rfl⟩ := mem_map.mp hentry
  exact hcovered.keyed record ((Scan.scan_perm _ _ records).mem_iff.mp hrecord)

variable [BsonWire.Crate]
  (h : Maintained blake3 sizes shardForKey indexes shard collectionId shardId records)
include h

theorem orderedRecords_ascending : (orderedRecords key bytes records).Pairwise Precedes := by
  have hperm := Scan.scan_perm comparePosition (recordPosition bytes) records
  have hdistinct := distinct_recordPosition h.naturals_nodup bytes
  refine pairwise_map.mpr ((Scan.ascending_scan hdistinct).imp_of_mem ?_)
  intro left right hleft hright hlt
  exact precedes_of_position (hcovered.encoded left (hperm.mem_iff.mp hleft))
    (hcovered.encoded right (hperm.mem_iff.mp hright)) hlt

variable (hprobe : orderedProbe indexes sorter = some (indexId, direction))
  (hunmarked : markers shard collectionId indexId direction = false) (visit : Visitor σ) (state : σ)
include hprobe hunmarked

/-- A read visits the records in order. -/
theorem visits_orderedRecords :
    visitOrderedDocuments blake3 sizes shardForKey indexes shard collectionId shardId sorter false
        none visit state =
      (visitAll visit (orderedRecords key bytes records) state).map (true, ·) := by
  rw [visitOrderedDocuments_eq hprobe rfl, hunmarked, if_neg Bool.false_ne_true,
    visitRows_selectRecords h hcovered, Scan.scanAfter_of_gt]
  · rfl
  -- the position after which a scan starts lies before every record
  intro record hrecord
  obtain ⟨hbytes, -⟩ := orderedBytesBounded_eq (hcovered.encoded record hrecord)
  rw [recordPosition, hbytes]
  rfl

/-- A read after a record visits what follows it. -/
theorem visits_after {before after : List (DocumentStorageRecord × DocumentSortKey)}
    {entry : DocumentStorageRecord × DocumentSortKey}
    (hordered : orderedRecords key bytes records = before ++ entry :: after) :
    visitOrderedDocuments blake3 sizes shardForKey indexes shard collectionId shardId sorter false
        (some (entry.2, entry.1.naturalOrder)) visit state =
      (visitAll visit after state).map (true, ·) := by
  -- the list was cut at one of the records
  obtain ⟨front, rest, hscan, rfl, hrest⟩ := map_eq_append_iff.mp hordered
  obtain ⟨record, rest, rfl, rfl, rfl⟩ := map_eq_cons_iff.mp hrest
  have hrecord : record ∈ records := by
    refine (Scan.scan_perm comparePosition (recordPosition bytes) records).mem_iff.mp ?_
    rw [hscan]
    exact mem_append_right _ mem_cons_self
  have hposition : resumePosition (some (key record, record.naturalOrder)) =
      .ok (recordPosition bytes record) := by
    have hnatural := h.naturals_lt record hrecord
    obtain ⟨row, hrow, -⟩ := joined_eq h.decoded h.ids_nodup hrecord
    obtain ⟨-, hpos, -⟩ := of_decodeStorageRecord blake3 hrow
    exact resumePosition_eq (hcovered.encoded record hrecord) hpos hnatural
  rw [visitOrderedDocuments_eq hprobe hposition, hunmarked, if_neg Bool.false_ne_true,
    visitRows_selectRecords h hcovered,
    Scan.scanAfter_eq (distinct_recordPosition h.naturals_nodup bytes) hscan]

end Covered

theorem unmarked [BsonWire.Crate]
    (h : Maintained blake3 sizes shardForKey indexes shard collectionId shardId records)
    (hsorter : DocumentSorter.compileFields spec = .ok sorter)
    (hprobe : orderedProbe indexes sorter = some (indexId, direction))
    (hnone : ∀ record ∈ records, prepareKey sorter record.document ≠ .ok none) :
    markers shard collectionId indexId direction = false := by
  rw [Bool.eq_false_iff]
  intro hmarked
  obtain ⟨record, hrecord, hkey⟩ := (markers_iff h hsorter hprobe).mp hmarked
  exact hnone record hrecord hkey

/-- Reading a shard in index order is sorting it. -/
theorem ordered_reads_sort [BsonWire.Crate] {blake3 : List UInt8 → Digest} {sizes : DecodedSizes}
    {shardForKey : List UInt8 → Nat} {indexes : List CompiledIndex} {shard : DocumentShard}
    {collectionId shardId : Nat} {records : List DocumentStorageRecord} {spec : BsonDocument}
    {sorter : DocumentSorter} {probe : Nat × Nat}
    (h : Maintained blake3 sizes shardForKey indexes shard collectionId shardId records)
    (hsorter : DocumentSorter.compile spec = .ok sorter)
    (hprobe : orderedProbe indexes sorter = some probe) :
    ((∀ record ∈ records, prepareKey sorter record.document ≠ .ok none) →
      ∃ ordered : List (DocumentStorageRecord × DocumentSortKey),
        (ordered.map (·.1)).Perm records ∧
        (∀ entry ∈ ordered, sorter.keyValidated entry.1.document = .ok entry.2) ∧
        ordered.Pairwise Precedes ∧
        ∀ (σ : Type) (visit : Visitor σ) (state : σ),
          visitOrderedDocuments blake3 sizes shardForKey indexes shard collectionId shardId sorter
              false none visit state = (visitAll visit ordered state).map (true, ·) ∧
          ∀ before entry after, ordered = before ++ entry :: after →
            visitOrderedDocuments blake3 sizes shardForKey indexes shard collectionId shardId sorter
                false (some (entry.2, entry.1.naturalOrder)) visit state =
              (visitAll visit after state).map (true, ·)) ∧
    ((∃ record ∈ records, prepareKey sorter record.document = .ok none) →
      ∀ (σ : Type) (visit : Visitor σ) (state : σ) (after : Option (DocumentSortKey × Nat)),
        (∃ position, resumePosition after = .ok position) →
        visitOrderedDocuments blake3 sizes shardForKey indexes shard collectionId shardId sorter
          false after visit state = .ok (false, state)) := by
  obtain ⟨indexId, direction⟩ := probe
  replace hsorter := DocumentSorter.compileFields_of_compile hsorter
  constructor
  · intro hnone
    have hunmarked := unmarked h hsorter hprobe hnone
    obtain ⟨key, bytes, hcovered⟩ := exists_covered h hsorter hprobe hnone
    refine ⟨orderedRecords key bytes records, Covered.orderedRecords_perm,
      hcovered.orderedRecords_keyed, hcovered.orderedRecords_ascending h, fun σ visit state => ?_⟩
    exact ⟨hcovered.visits_orderedRecords h hprobe hunmarked visit state,
      fun before entry after => hcovered.visits_after h hprobe hunmarked visit state⟩
  · intro hmarked σ visit state after hposition
    obtain ⟨position, hposition⟩ := hposition
    rw [visitOrderedDocuments_eq hprobe hposition, if_pos ((markers_iff h hsorter hprobe).mpr hmarked)]

end

namespace OrderedPair

def sizes : DecodedSizes := ⟨56, 80, by decide, by decide⟩

def document (id value : Int32) : BsonDocument := [("_id", .int32 id), ("a", .int32 value)]

def idKey (second : Bool) : List UInt8 :=
  [66, 66, 75, 89, 0, 0, 0, 1, 2, 2, 1, 0, 0, 0, 1, 1, 0, if second then 1 else 0, 0, 0]

def bson (id value : UInt8) : List UInt8 :=
  [21, 0, 0, 0, 16, 95, 105, 100, 0, id, 0, 0, 0, 16, 97, 0, value, 0, 0, 0, 0]

/-- The row of one of two documents, `{_id: 1, a: 2}` and `{_id: 2, a: 1}`. -/
def row (second : Bool) : DocumentRow where
  collectionId := 1
  idKey := idKey second
  naturalOrder := if second then 2 else 1
  documentBson := if second then bson 2 1 else bson 1 2
  documentChecksum := recordChecksum hash 1 0 (if second then 2 else 1) (idKey second)
    (if second then bson 2 1 else bson 1 2)
  storageFormatVersion := 1

def record (second : Bool) : DocumentStorageRecord where
  collectionId := 1
  shard := 0
  naturalOrder := if second then 2 else 1
  idKey := ⟨idKey second⟩
  document := if second then document 2 1 else document 1 2
  encodedLen := 21
  checksum := (row second).documentChecksum

def sorter (descending : Bool) : DocumentSorter := ⟨[⟨["a"], [0, 1], descending⟩], [0, 0]⟩

def ordering : IndexOrdering where
  declared := sorter false
  inverse := sorter true
  declared_compiled := ⟨[("a", .int32 1)], by decide +kernel⟩
  inverse_compiled := ⟨[("a", .int32 (-1))], by decide +kernel⟩

def sortKey : Bool → Bool → List UInt8
  | false, second =>
    [66, 66, 83, 79, 0, 0, 0, 1, 1, 0, 4, 4, 128, 0, 0, 0, if second then 49 else 50, 0, 0, 0]
  | true, second =>
    [66, 66, 83, 79, 0, 0, 0, 1, 1, 1, 251, 251, 127, 255, 255, 255,
      if second then 206 else 205, 255, 255, 0]

variable (second : Bool)

def entries : List OrderedEntry :=
  [entryFor hash 1 0 7 0 (some (sortKey false second)) (record second),
    entryFor hash 1 0 7 1 (some (sortKey true second)) (record second)]

def shard : DocumentShard := ⟨[row false, row true], entries true ++ entries false⟩

theorem decodedDocument :
    letI := BsonWire.specified
    decodeRecord hash sizes 1 0 (row second) = .ok (record second).document := by
  let := BsonWire.specified
  have hvalid : ¬ ((row second).naturalOrder ≤ 0 ∨ (row second).storageFormatVersion ≠ 1 ∨
      (row second).documentChecksum ≠ recordChecksum hash 1 0 (row second).naturalOrder
        (row second).idKey (row second).documentBson) := by
    cases second <;> simp [row]
  have hdocument : (decodeDocument sizes (row second).documentBson).toEngine .storedData =
      .ok (record second).document := by
    cases second <;> rfl
  have hid : requiredDocumentId (record second).document =
      .ok (.int32 (if second then 2 else 1)) := by
    cases second <;> rfl
  have hkey : (CanonicalBsonKey.encode (.int32 (if second then 2 else 1))).toEngine .storedData =
      .ok ⟨(row second).idKey⟩ := by
    cases second <;> decide +kernel
  simp only [decodeRecord, if_neg hvalid, hdocument, hid, hkey, ok_bind, Except.mapError,
    ne_eq, not_true_eq_false, if_false, pure_eq]

theorem decoded :
    letI := BsonWire.specified
    decodeStorageRecord hash sizes 1 0 (row second) = .ok (record second) := by
  let := BsonWire.specified
  have hlength : ¬ (row second).documentChecksum.length ≠ 32 := not_not.mpr (hash _).2
  have hkey : (CanonicalBsonKey.fromBytes (row second).idKey).toEngine .storedData =
      .ok ⟨(row second).idKey⟩ := by
    cases second <;> decide +kernel
  have hnatural : documentNaturalOrderFromSqlite (row second).naturalOrder =
      .ok (record second).naturalOrder := by
    cases second <;> rfl
  simp only [decodeStorageRecord, hkey, if_neg hlength, decodedDocument, hnatural, ok_bind,
    pure_eq]
  cases second <;> rfl

theorem prepared (descending second : Bool) :
    prepareKey (sorter descending) (record second).document =
      .ok (some (sortKey descending second)) := by
  cases descending <;> cases second <;> decide +kernel

theorem inserted : insertSelected hash 1 0 7 ordering (record second) = .ok (entries second) := by
  have hprepare : ordering.prepare (record second).document =
      .ok [some (sortKey false second), some (sortKey true second)] := by
    simp [prepare, ordering, prepared, ok_bind, pure_eq]
  simp only [insertSelected, hprepare, ok_bind, pure_eq]
  rfl

theorem maintained :
    letI := BsonWire.specified
    Maintained hash sizes (fun _ => 0) [⟨7, some ordering⟩] shard 1 0
      [record false, record true] := by
  let := BsonWire.specified
  refine ⟨.cons (decoded false) (.cons (decoded true) .nil), fun _ _ => rfl, by decide, by decide,
    ?_, ?_⟩
  · intro stored hstored
    simp only [mem_cons, not_mem_nil, or_false] at hstored
    rcases hstored with rfl | rfl <;> decide
  · intro index hindex chosen hchosen
    rw [mem_singleton] at hindex
    subst hindex
    cases hchosen
    refine ⟨[entries false, entries true], .cons (inserted false) (.cons (inserted true) .nil), ?_⟩
    rw [filter_eq_self.mpr]
    · exact perm_append_comm
    · intro entry hentry
      simp only [shard, entries, mem_append, mem_cons, not_mem_nil,
        or_false] at hentry
      rcases hentry with (rfl | rfl) | (rfl | rfl) <;> rfl

end OrderedPair

theorem ordered_reads_sort_pair :
    letI := BsonWire.specified
    ∃ ordered : List (DocumentStorageRecord × DocumentSortKey),
      (ordered.map (·.1)).Perm [OrderedPair.record false, OrderedPair.record true] ∧
      ordered.Pairwise Precedes ∧
      visitOrderedDocuments hash OrderedPair.sizes (fun _ => 0)
          [⟨7, some OrderedPair.ordering⟩] OrderedPair.shard 1 0
            (OrderedPair.sorter true) false none
          (fun seen record _ => .ok (seen ++ [record.naturalOrder], true)) [] =
        (visitAll (fun seen record _ => .ok (seen ++ [record.naturalOrder], true)) ordered []).map
          (true, ·) := by
  let := BsonWire.specified
  have hsorter : DocumentSorter.compile [("a", .int32 (-1))] = .ok (OrderedPair.sorter true) := by
    decide +kernel
  have hprobe : orderedProbe [⟨7, some OrderedPair.ordering⟩] (OrderedPair.sorter true) =
      some (7, 1) := by decide
  obtain ⟨ordered, hperm, -, hordered, hvisit⟩ :=
    (ordered_reads_sort OrderedPair.maintained hsorter hprobe).1 (by
      simp [OrderedPair.prepared])
  exact ⟨ordered, hperm, hordered, (hvisit _ _ _).1⟩

end BriskDB.Storage
