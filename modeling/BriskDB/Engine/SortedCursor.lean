import BriskDB.Document.SortKeyLaws
import BriskDB.Engine.SortSpool
import BriskDB.Storage.OrderedReads

/-! # Sorted cursors

A sorted cursor keeps a window with the next positions of its result. A window that was used
up is filled again by a fan-out over the shards, each of which reports the keys of its
matching documents from an ordered index or from a scan, in any order of arrival. When the
windows turn out to be too small for the result, what remains is sorted in scratch files
instead. No document is kept between pages: the selected one is read again.
-/

namespace BriskDB.Engine

open Document Selection Storage

structure SortPosition where
  key : DocumentSortKey
  naturalOrder : Nat

def SortPosition.cmp : SortPosition → SortPosition → Ordering :=
  compareLex (fun left right => left.key.cmp right.key) (compareOn naturalOrder)

instance : Std.TransCmp SortPosition.cmp := by
  have hkey : Std.TransCmp fun left right : SortPosition => left.key.cmp right.key :=
    { eq_swap := Std.OrientedCmp.eq_swap
      isLE_trans := Std.TransCmp.isLE_trans }
  exact inferInstanceAs (Std.TransCmp (compareLex
    (fun left right : SortPosition => left.key.cmp right.key)
    (compareOn SortPosition.naturalOrder)))

def SortPosition.isAfter (position : SortPosition) (after : Option SortPosition) : Bool :=
  after.all fun after => position.cmp after == .gt

structure Entry where
  position : SortPosition
  shard : Nat

namespace Entry

def cmp (left right : Entry) : Ordering := left.position.cmp right.position

instance : Std.TransCmp cmp where
  eq_swap := (inferInstance : Std.TransCmp SortPosition.cmp).eq_swap
  isLE_trans := (inferInstance : Std.TransCmp SortPosition.cmp).isLE_trans

def bytes (retainedBytes : DocumentSortKey → Nat) (entry : Entry) : Nat :=
  128 + retainedBytes entry.position.key

end Entry

def limitExceeded (diagnostic : String) : EngineError := .new .limitExceeded diagnostic

/-- The smallest entries among those considered, the largest one first. -/
structure Window where
  keys : List Entry
  capacity : Nat
  bytes : Nat
  byteLimit : Nat
  truncated : Bool
  considered : Nat

namespace Window

def new (capacity byteLimit : Nat) : Window := ⟨[], capacity, 0, byteLimit, false, 0⟩

def excludes (window : Window) (entry : Entry) : Bool :=
  window.keys.length == window.capacity &&
    window.keys.head?.any fun largest => decide (Above Entry.cmp entry largest)

variable (entryBytes : Entry → Nat) (window : Window)

def pop : Window :=
  match window.keys with
  | [] => window
  | previous :: keys => { window with keys, bytes := window.bytes - entryBytes previous }

def trim (entryBytes : Entry → Nat) (byteLimit : Nat) : List Entry → Nat → List Entry × Nat
  | [], bytes => ([], bytes)
  | removed :: keys, bytes =>
    if bytes > byteLimit then trim entryBytes byteLimit keys (bytes - entryBytes removed)
    else (removed :: keys, bytes)

def fit : Window :=
  let (keys, bytes) := trim entryBytes window.byteLimit window.keys window.bytes
  if keys.length < window.keys.length then
    { window with keys, bytes, truncated := true, capacity := keys.length }
  else window

/-- A full window gives up its largest entry for a new one. -/
def makeRoom : Window :=
  if window.keys.length = window.capacity then
    { window.pop entryBytes with truncated := true }
  else window

def push (entry : Entry) : Window :=
  { window with
    keys := window.keys.orderedInsert (Above Entry.cmp) entry
    bytes := window.bytes + entryBytes entry }

def consider (entry : Entry) : EngineResult Window :=
  let window := { window with considered := window.considered + 1 }
  if window.excludes entry then .ok { window with truncated := true }
  else
    let next := ((window.makeRoom entryBytes).push entryBytes entry).fit entryBytes
    if next.capacity = 0 then
      .error (limitExceeded "document sort key cannot fit the bounded sort window")
    else .ok next

end Window

def maxFallbackWindows : Nat := 8

/-- Going on with windows would scan the source too often. -/
def shouldSpool (window : Window) (fallbackScans skip : Nat) (remaining : Option Nat) : Bool :=
  window.truncated &&
    remaining.all (fun remaining => skip + remaining > window.keys.length) &&
    (remaining.elim window.considered (fun remaining => min window.considered (skip + remaining)) >
        window.keys.length * maxFallbackWindows ||
      fallbackScans ≥ maxFallbackWindows)

/-- The documents of a collection on one shard, and what a read of its ordered index visits. -/
structure ShardContent (sorter : DocumentSorter) where
  shard : Nat
  records : List DocumentStorageRecord
  natural : records.Pairwise fun left right => left.naturalOrder < right.naturalOrder
  positive : ∀ record ∈ records, 0 < record.naturalOrder
  ordered : Option (List (DocumentStorageRecord × DocumentSortKey))
  ordered_perm : ∀ list, ordered = some list → (list.map (·.1)).Perm records
  ordered_keys : ∀ list, ordered = some list → ∀ entry ∈ list,
    sorter.keyValidated entry.1.document = .ok entry.2
  ordered_ascending : ∀ list, ordered = some list → list.Pairwise Precedes

/-- The content of a shard with an index for the sort: a read of the index visits its list. -/
theorem exists_shardContent [BsonWire.Crate] {blake3 : List UInt8 → Blake3.Digest}
    {sizes : DecodedSizes} {shardForKey : List UInt8 → Nat} {indexes : List CompiledIndex}
    {shard : DocumentShard} {collectionId shardId : Nat} {records : List DocumentStorageRecord}
    {spec : BsonDocument} {sorter : DocumentSorter} {probe : Nat × Nat}
    (h : Maintained blake3 sizes shardForKey indexes shard collectionId shardId records)
    (hnatural : records.Pairwise fun left right => left.naturalOrder < right.naturalOrder)
    (hsorter : DocumentSorter.compile spec = .ok sorter)
    (hprobe : orderedProbe indexes sorter = some probe)
    (hkeys : ∀ record ∈ records, IndexOrdering.prepareKey sorter record.document ≠ .ok none) :
    ∃ (content : ShardContent sorter) (list : List (DocumentStorageRecord × DocumentSortKey)),
      content.shard = shardId ∧ content.records = records ∧ content.ordered = some list ∧
      ∀ (σ : Type) (visit : Visitor σ) (state : σ),
        visitOrderedDocuments blake3 sizes shardForKey indexes shard collectionId shardId sorter
          false none visit state = (visitAll visit list state).map (true, ·) := by
  replace hsorter := DocumentSorter.compileFields_of_compile hsorter
  obtain ⟨key, bytes, hcovered⟩ := exists_covered h hsorter hprobe hkeys
  have hpositive : ∀ record ∈ records, 0 < record.naturalOrder := by
    intro record hrecord
    obtain ⟨row, hrow, -⟩ := joined_eq h.decoded h.ids_nodup hrecord
    exact (of_decodeStorageRecord blake3 hrow).2.1
  refine ⟨⟨shardId, records, hnatural, hpositive, some (orderedRecords key bytes records), ?_, ?_,
    ?_⟩, _, rfl, rfl, rfl, fun σ visit state => hcovered.visits_orderedRecords h hprobe
      (unmarked h hsorter hprobe hkeys) visit state⟩
  · rintro list ⟨⟩
    exact Covered.orderedRecords_perm
  · rintro list ⟨⟩
    exact hcovered.orderedRecords_keyed
  · rintro list ⟨⟩
    exact hcovered.orderedRecords_ascending h

/-- A sorted query over the shards of its route, with the sizes of its windows. -/
structure SortedQuery where
  sorter : DocumentSorter
  selects : BsonDocument → EngineResult Bool
  output : DocumentStorageRecord → EngineResult (BsonDocument × Nat)
  retainedKeyBytes : DocumentSortKey → Nat
  pushedSpoolBytes : SpoolPosition → Nat
  readSpoolBytes : SpoolPosition → Nat
  windowKeys : Nat
  windowBytes : Nat
  shards : List (ShardContent sorter)
  shards_nodup : (shards.map (·.shard)).Nodup
  naturals_nodup : (shards.flatMap fun content => content.records.map (·.naturalOrder)).Nodup

/-- A document that a shard reports: from an ordered read with its key, or from a scan. -/
structure SourceItem where
  shard : Nat
  record : DocumentStorageRecord
  ordered : Option DocumentSortKey

def SourceItem.entry (item : SourceItem) (key : DocumentSortKey) : Entry :=
  ⟨⟨key, item.record.naturalOrder⟩, item.shard⟩

namespace ShardContent

variable {sorter : DocumentSorter}

def scanQueue (content : ShardContent sorter) : List SourceItem :=
  content.records.map fun record => ⟨content.shard, record, none⟩

def orderedQueue (content : ShardContent sorter) (after : Option SortPosition)
    (list : List (DocumentStorageRecord × DocumentSortKey)) : List SourceItem :=
  (list.filter fun (record, key) => (⟨key, record.naturalOrder⟩ : SortPosition).isAfter after).map
    fun (record, key) => ⟨content.shard, record, some key⟩

end ShardContent

/-- How a fan-out goes: which shards have a safe ordered path, and who reports next. -/
structure FanoutPlan where
  useOrdered : Nat → Bool
  schedule : List Nat

namespace SortedQuery

variable (query : SortedQuery)

def entryBytes : Entry → Nat := Entry.bytes query.retainedKeyBytes

variable (plan : FanoutPlan)

def orderedList (content : ShardContent query.sorter) :
    Option (List (DocumentStorageRecord × DocumentSortKey)) :=
  if plan.useOrdered content.shard then content.ordered else none

variable (after : Option SortPosition)

def windowQueue (content : ShardContent query.sorter) : List SourceItem :=
  match query.orderedList plan content with
  | some list => content.orderedQueue after list
  | none => content.scanQueue

def usedFallback : Bool :=
  query.shards.any fun content => (query.orderedList plan content).isNone

def visitWindow (window : Window) (item : SourceItem) :
    EngineResult (Window × Bool) := do
  if ¬ (← query.selects item.record.document) then return (window, true)
  match item.ordered with
  | some key =>
    let entry := item.entry key
    -- the next keys of this shard cannot beat the full window either
    if window.excludes entry then return ({ window with truncated := true }, false)
    return (← window.consider query.entryBytes entry, true)
  | none =>
    let key ← query.sorter.keyValidated item.record.document
    let entry := item.entry key
    if entry.position.isAfter after then
      return (← window.consider query.entryBytes entry, true)
    else return (window, true)

def visitSpool (builder : SpoolBuilder) (item : SourceItem) :
    EngineResult (SpoolBuilder × Bool) := do
  if ¬ (← query.selects item.record.document) then return (builder, true)
  let key ← query.sorter.keyValidated item.record.document
  let entry := item.entry key
  if ¬ entry.position.isAfter after then return (builder, true)
  let bytes ← key.orderedBytes
  let builder ← builder.push query.pushedSpoolBytes
    ⟨bytes, item.record.naturalOrder, item.shard⟩
  return (builder, true)

def buildDocumentSortSpool :
    EngineResult SortSpool := do
  let builder ← Fanout.run (query.visitSpool after) plan.schedule
    (query.shards.map (·.scanQueue)) SpoolBuilder.new
  builder.finish

end SortedQuery

structure SortWindow where
  entries : List Entry
  truncated : Bool
  fallbackScans : Nat
  spillAfter : Bool

structure CursorState where
  sortAfter : Option SortPosition
  sortWindow : Option SortWindow
  sortSpool : Option SortSpool
  allowSortSpill : Bool
  skip : Nat
  remaining : Option Nat
  batchByteLimit : Option Nat

/-- What a request brings to a page: its limits, and how its fan-outs happen to go. -/
structure PageRequest where
  batchSize : Nat
  batchByteLimit : Option Nat
  baseBytes : Nat
  maxBytes : Nat
  maxRows : Nat
  plan : Nat → FanoutPlan

inductive SelectedPosition
  | memory (position : SortPosition) (shard : Nat)
  | spool (position : SpoolPosition)

def SelectedPosition.location : SelectedPosition → Nat × Nat
  | .memory position shard => (position.naturalOrder, shard)
  | .spool position => (position.naturalOrder, position.shard)

namespace CursorState

/-- There is neither a spool nor a position left in the window. -/
def drained (state : CursorState) : Bool :=
  state.sortSpool.isNone && state.sortWindow.all (·.entries.isEmpty)

def consumePosition (state : CursorState) : CursorState :=
  match state.sortSpool, state.sortWindow with
  | some spool, _ => { state with sortSpool := some { spool with pending := spool.pending.tail } }
  | none, some window =>
    { state with
      sortAfter := window.entries.head?.map (·.position)
      sortWindow := some { window with entries := window.entries.tail } }
  | none, none => state

def select (retainedBytes : SpoolPosition → Nat) (state : CursorState) :
    Option SelectedPosition × CursorState :=
  match state.sortSpool with
  | some spool =>
    let spool := if spool.pending = [] then spool.advance retainedBytes else spool
    (spool.pending.head?.map .spool, { state with sortSpool := some spool })
  | none =>
    ((state.sortWindow.bind (·.entries.head?)).map
      fun entry => .memory entry.position entry.shard, state)

end CursorState

namespace SortedQuery

variable (query : SortedQuery)

def refillWindow (plan : FanoutPlan) (state : CursorState) : EngineResult CursorState := do
  let capacity := min (state.skip + state.remaining.getD query.windowKeys + 1) query.windowKeys
  let window ← Fanout.run (query.visitWindow state.sortAfter) plan.schedule
    (query.shards.map (query.windowQueue plan state.sortAfter))
    (Window.new capacity query.windowBytes)
  let usedFallback := query.usedFallback plan
  let fallbackScans :=
    min 255 (state.sortWindow.elim 0 (·.fallbackScans) + usedFallback.toNat)
  let spillAfter := usedFallback && shouldSpool window fallbackScans state.skip state.remaining
  return { state with
    sortWindow := some ⟨window.keys.reverse, window.truncated, fallbackScans, spillAfter⟩ }

def selectedKey (document : BsonDocument) : EngineResult (Option DocumentSortKey) := do
  if ¬ (← query.selects document) then return none
  let current ← query.sorter.keyValidated document
  return some current

def stillSelected (document : BsonDocument) : SelectedPosition → EngineResult Bool
  | .memory expected _ => do
    let current ← query.selectedKey document
    return current.any fun current => current.cmp expected.key == .eq
  | .spool expected => do
    match ← query.selectedKey document with
    | some current => do
      let bytes ← current.orderedBytes
      return decide (bytes = expected.key)
    | none => return false

/-- The first document of a shard after a natural order. -/
def scanDocumentShard (shard : Nat) (after : Option Nat) : Option DocumentStorageRecord :=
  (query.shards.find? (·.shard = shard)).bind fun content =>
    content.records.find? fun record => after.all (· < record.naturalOrder)

def fetch (selected : SelectedPosition) : EngineResult (Option DocumentStorageRecord) := do
  let (naturalOrder, shard) := selected.location
  let after := if 1 < naturalOrder then some (naturalOrder - 1) else none
  match (query.scanDocumentShard shard after).filter (·.naturalOrder = naturalOrder) with
  | none => return none
  | some record => do
    if ← query.stillSelected record.document selected then return some record
    else return none

end SortedQuery

def documentResultRowBytes : Nat := 8

def documentResultValueBytes : Nat := 9

def documentResultEnvelopeBytes : Nat := 16

/-- Inside a page: at the head of its loop, or selecting positions. -/
structure PageState where
  cursor : CursorState
  documents : List BsonDocument
  resultBytes : Nat
  fanouts : Nat
  selecting : Bool

inductive PageStep
  | next (state : PageState)
  | done (state : PageState) (more : Bool)

namespace SortedQuery

variable (query : SortedQuery) (request : PageRequest)

/-- The head of the loop: fill an empty window, or switch to a spool. -/
def refillStep (state : PageState) : EngineResult PageStep :=
  let cursor := state.cursor
  let plan := request.plan state.fanouts
  if ¬ cursor.drained then .ok (.next { state with selecting := true })
  else if cursor.sortWindow.any fun window => !window.truncated then .ok (.done state false)
  else if cursor.sortWindow.any (·.spillAfter) then
    if ¬ cursor.allowSortSpill then
      .error (limitExceeded
        "document sort exceeds its in-memory scan budget and disk use is disabled")
    else do
      let spool ← query.buildDocumentSortSpool plan cursor.sortAfter
      return .next { state with
        cursor := { cursor with sortWindow := none, sortSpool := some spool }
        fanouts := state.fanouts + 1
        selecting := true }
  else do
    let cursor ← query.refillWindow plan cursor
    return .next { state with cursor, fanouts := state.fanouts + 1, selecting := true }

/-- Return one more document, or end the page before it. -/
def emit (state : PageState) (record : DocumentStorageRecord) : EngineResult PageStep := do
  let (document, encodedLen) ← query.output record
  let nextBytes :=
    state.resultBytes + documentResultRowBytes + documentResultValueBytes + encodedLen
  if state.cursor.batchByteLimit.any (nextBytes > ·) then
    if state.documents = [] then
      throw (limitExceeded "document cannot fit the cursor batch byte limit")
    else return .done state true
  else if nextBytes > request.maxBytes then
    throw (limitExceeded "document result exceeds the request byte limit")
  else if state.documents.length ≥ request.maxRows then
    throw (limitExceeded "document result exceeds the request row limit")
  else
    let consumed := state.cursor.consumePosition
    let cursor := { consumed with remaining := consumed.remaining.map (· - 1) }
    let state := { state with
      cursor, documents := state.documents ++ [document], resultBytes := nextBytes }
    if cursor.remaining = some 0 then return .done state false else return .next state

variable (requested : Nat)

/-- Skip, fetch or return the selected position, or leave the inner loop without one. -/
def serveSelected (state : PageState) : Option SelectedPosition → EngineResult PageStep
  | none =>
    if state.cursor.sortSpool.isSome ||
        state.cursor.sortWindow.all fun window => !window.truncated then
      .ok (.done state false)
    else if state.documents ≠ [] then .ok (.done state true)
    else .ok (.next { state with selecting := false })
  | some selected =>
    if state.cursor.skip > 0 then
      .ok (.next { state with
        cursor := { state.cursor with skip := state.cursor.skip - 1 }.consumePosition })
    else if state.documents.length ≥ requested then .ok (.done state true)
    else do
      match ← query.fetch selected with
      | none => return .next { state with cursor := state.cursor.consumePosition }
      | some record => query.emit request state record

def selectStep (state : PageState) : EngineResult PageStep :=
  let (selected, cursor) := state.cursor.select query.readSpoolBytes
  query.serveSelected request requested { state with cursor } selected

def pageStep (state : PageState) : EngineResult PageStep :=
  if state.selecting then query.selectStep request requested state
  else query.refillStep request state

/-- The page after at most so many steps; none when these did not end it. -/
def pageLoop (requested : Nat) :
    Nat → PageState → Option (EngineResult (CursorState × List BsonDocument × Bool))
  | 0, _ => none
  | fuel + 1, state =>
    match query.pageStep request requested state with
    | .error error => some (.error error)
    | .ok (.done state more) => some (.ok (state.cursor, state.documents, more))
    | .ok (.next state) => pageLoop requested fuel state

/-- Steps enough for a page: a window is filled at most once before a position is consumed. -/
def pageFuel : Nat := 3 * (query.shards.flatMap (·.records)).length + 2

variable (state : CursorState)

def scanSortedDocumentPage : Option (EngineResult (CursorState × List BsonDocument × Bool)) :=
  query.pageLoop request (state.remaining.elim request.batchSize (min · request.batchSize))
    query.pageFuel ⟨state, [], request.baseBytes, 0, false⟩

def readDocumentSourcePage : Option (EngineResult (CursorState × List BsonDocument × Bool)) :=
  if documentResultEnvelopeBytes > request.maxBytes then
    some (.error (limitExceeded "document result exceeds the request byte limit"))
  else if state.batchByteLimit.any (request.baseBytes > ·) then
    some (.error (limitExceeded "cursor envelope cannot fit the batch byte limit"))
  else if state.remaining = some 0 then some (.ok (state, [], false))
  else if request.batchSize = 0 then some (.ok (state, [], true))
  else query.scanSortedDocumentPage request state

/-- The next page of a retained cursor, whose byte limit can only become lower. -/
def continueCursor : Option (EngineResult (CursorState × List BsonDocument × Bool)) :=
  if request.batchSize = 0 then
    some (.error (.new .invalidArgument
      ("cursor continuation requires a positive batch size and cannot change " ++
        "skip/limit/projection/sort")))
  else
    query.readDocumentSourcePage request
      { state with
        batchByteLimit := request.batchByteLimit.elim state.batchByteLimit fun bytes =>
          some (state.batchByteLimit.elim bytes (min · bytes)) }

/-- Read on only where a page says that there is more. -/
def thenPages (page : Option (EngineResult (CursorState × List BsonDocument × Bool)))
    (next : CursorState → Option (EngineResult (List (List BsonDocument) × Bool))) :
    Option (EngineResult (List (List BsonDocument) × Bool)) :=
  match page with
  | none => none
  | some (.error error) => some (.error error)
  | some (.ok (_, documents, false)) => some (.ok ([documents], false))
  | some (.ok (state, documents, true)) =>
    (next state).map fun pages => pages.map fun (pages, more) => (documents :: pages, more)

def continuePages :
    List PageRequest → CursorState → Option (EngineResult (List (List BsonDocument) × Bool))
  | [], _ => some (.ok ([], true))
  | request :: requests, state =>
    thenPages (query.continueCursor request state) (continuePages requests)

/-- The pages of a find command and of the continuations of its cursor. -/
def findPages (allowSortSpill : Bool) (skip : Nat) (limit : Option Nat) (first : PageRequest)
    (requests : List PageRequest) : Option (EngineResult (List (List BsonDocument) × Bool)) :=
  thenPages
    (query.readDocumentSourcePage first
      ⟨none, none, none, allowSortSpill, skip, limit, first.batchByteLimit⟩)
    (query.continuePages requests)

end SortedQuery

end BriskDB.Engine
