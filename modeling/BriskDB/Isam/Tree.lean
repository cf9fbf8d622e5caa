import BriskDB.Isam.Page

/-!
# The copy-on-write tree

Batches are planned against a snapshot without touching the file: a stably sorted batch
is split over the branches, leaves and branches are cut into new pages, and the plan is
written behind the committed end. Reads walk the published pages through a bounded page
cache. Loops over the levels of the tree recurse on the level, which every child read
checks to be one less than its parent's.
-/

namespace BriskDB.Isam

open ByteOrder

def cachePages : Nat := 64

def cacheBytes : Nat := 256 * 1024

structure CachedPages where
  pages : List (Nat × Node)

/-- The storage of a decoded node, its entries and their bytes. -/
def Node.cacheBytes (node : Node) : Nat :=
  32 + node.entries.length * 48 +
    (node.entries.map fun entry => entry.key.length + entry.value.length).sum

/-- Drop the oldest pages until there is room for one of `bytes` bytes. -/
def evict (bytes : Nat) : List (Nat × Node) → List (Nat × Node)
  | [] => []
  | victim :: pages =>
    if (victim :: pages).length ≥ cachePages ∨
        ((victim :: pages).map fun page => page.2.cacheBytes).sum + bytes > cacheBytes then
      evict bytes pages
    else victim :: pages

def CachedPages.admitPage (cache : CachedPages) (offset : Nat) (node : Node) : CachedPages :=
  if node.cacheBytes ≤ Isam.cacheBytes then
    ⟨evict node.cacheBytes cache.pages ++ [(offset, node)]⟩
  else cache

def CachedPages.get (cache : CachedPages) (offset : Nat) : Option Node :=
  (cache.pages.find? fun page => page.1 = offset).map Prod.snd

/-- Reads that may go through a page cache. -/
abbrev ReadM := StateT (Option CachedPages) (Except Error)

section Read

variable (blake3 : List UInt8 → Digest) (file : File) (snapshot : Snapshot)

/-- A page is checked before it is admitted; errors are never cached. -/
def cachedNode (offset : Nat) : ReadM Node := fun cache =>
  match cache.bind (·.get offset) with
  | some node => .ok (node, cache)
  | none => do
    let node ← readNode blake3 file snapshot offset
    return (node, cache.map (·.admitPage offset node))

/-- Follow the entry `reference` of a node at `level`, the entry before it being
`previous`. -/
def readChild (level : Nat) (previous : Option Record) (reference : Record) : ReadM Node := do
  let node ← cachedNode blake3 file snapshot (child reference)
  if node.level + 1 ≠ level ∨ node.entries.getLast?.map Record.key ≠ some reference.key ∨
      previous.any (fun previous => node.entries.head?.any fun first => first.key ≤ previous.key)
  then throw (.corrupt "child level or key fence mismatch")
  else return node

def getAt (key : List UInt8) : Nat → Node → ReadM (Option (List UInt8))
  | 0, node => return (KeyedList.lookup Record.key node.entries key).map Record.value
  | level + 1, node =>
    match node.entries.dropWhile fun record => record.key < key with
    | [] => return none
    | reference :: _ => do
      let previous := (node.entries.takeWhile fun record => record.key < key).getLast?
      let node ← readChild blake3 file snapshot node.level previous reference
      getAt key level node

def get (key : List UInt8) : ReadM (Option (List UInt8)) :=
  if snapshot.root = 0 then return none
  else do
    let node ← cachedNode blake3 file snapshot snapshot.root
    getAt blake3 file snapshot key node.level node

section Range

variable (start : List UInt8) (stop : Option (List UInt8)) (limit : Nat)

def visitLeaf : List Record → List Record → List Record
  | [], records => records
  | entry :: entries, records =>
    if stop.any (fun stop => stop ≤ entry.key) ∨ records.length = limit then records
    else visitLeaf entries (if start ≤ entry.key then records ++ [entry] else records)

/-- Visit the children of a node at `level`, `previous` being the last entry passed. -/
def visitChildren (visit : Node → List Record → ReadM (List Record)) (level : Nat) :
    Option Record → List Record → List Record → ReadM (List Record)
  | _, [], records => return records
  | previous, entry :: entries, records =>
    if records.length = limit ∨
        previous.any (fun previous => stop.any fun stop => stop ≤ previous.key) then
      return records
    else if start ≤ entry.key then do
      let descendant ← readChild blake3 file snapshot level previous entry
      let records ← visit descendant records
      visitChildren visit level (some entry) entries records
    else visitChildren visit level (some entry) entries records

def visit : Nat → Node → List Record → ReadM (List Record)
  | 0, node, records => return visitLeaf start stop limit node.entries records
  | level + 1, node, records =>
    visitChildren blake3 file snapshot start stop limit (visit level) node.level none
      node.entries records

def range : ReadM (List Record) :=
  if snapshot.root ≠ 0 ∧ limit ≠ 0 ∧ stop ≠ some start then do
    let node ← cachedNode blake3 file snapshot snapshot.root
    visit blake3 file snapshot start stop limit node.level node []
  else return []

end Range

/-- Add up the children of a node at `level`, checking that they do not overlap. -/
def walkChildren (walk : Node → ReadM (Nat × List UInt8)) (level : Nat) :
    Option Record → List Record → Nat → List UInt8 → ReadM (Nat × List UInt8)
  | _, [], total, first => return (total, first)
  | previous, entry :: entries, total, first => do
    let descendant ← readChild blake3 file snapshot level previous entry
    let (count, minimum) ← walk descendant
    if previous.any (fun previous => minimum ≤ previous.key) then
      throw (.corrupt "overlapping subtrees")
    else if total + count ≥ 2 ^ 64 then throw (.corrupt "record count overflow")
    else
      walkChildren walk level (some entry) entries (total + count)
        (if previous.isNone then minimum else first)

def walk : Nat → Node → ReadM (Nat × List UInt8)
  | 0, node => return (node.entries.length, (node.entries.head?.map Record.key).getD [])
  | level + 1, node =>
    walkChildren blake3 file snapshot (walk level) node.level none node.entries 0 []

def verify : ReadM Nat :=
  if snapshot.root = 0 then return 0
  else do
    let node ← readNode blake3 file snapshot snapshot.root
    let (count, _) ← walk blake3 file snapshot node.level node
    return count

end Read

inductive PageRef where
  | existing (offset : Nat)
  | new (pageId : Nat)
  deriving DecidableEq, Repr

inductive PlannedValue where
  | inline (value : List UInt8)
  | child (reference : PageRef)
  deriving DecidableEq, Repr

structure PlannedEntry where
  key : List UInt8
  value : PlannedValue
  deriving DecidableEq, Repr

structure PlannedPage where
  level : Nat
  entries : List PlannedEntry
  deriving DecidableEq, Repr

structure BatchPlan where
  pages : List PlannedPage
  root : Option PageRef

def plannedWidth (snapshot : Snapshot) (level : Nat) (entry : PlannedEntry) : Result Nat :=
  match entry.value with
  | .inline value =>
    if level = 0 ∧ value.length ≤ snapshot.layout.maxValueBytes then
      .ok (if packedLeaf snapshot level then snapshot.layout.keyBytes + 2 + value.length
        else stride snapshot.layout level)
    else .error (.corrupt "planned tree value at invalid level or size")
  | .child _ =>
    if level ≠ 0 then .ok (stride snapshot.layout level)
    else .error (.corrupt "planned tree value at invalid level or size")

/-- The entries that fit into the page filled up to `used`, and the others. -/
def takeChunk (snapshot : Snapshot) (level : Nat) :
    Nat → List PlannedEntry → Result (List PlannedEntry × List PlannedEntry)
  | _, [] => .ok ([], [])
  | used, entry :: entries => do
    let width ← plannedWidth snapshot level entry
    if used + width > checksumStart then .ok ([], entry :: entries)
    else do
      let (chunk, rest) ← takeChunk snapshot level (used + width) entries
      return (entry :: chunk, rest)

/-- Cut entries into pages. -/
def emitLoop (snapshot : Snapshot) (level : Nat) :
    Nat → List PlannedEntry → List PlannedPage → Result (List PlannedEntry × List PlannedPage)
  | _, [], pages => .ok ([], pages)
  | 0, _ :: _, pages => .ok ([], pages)
  | fuel + 1, entry :: entries, pages => do
    let (chunk, rest) ← takeChunk snapshot level pagePrefix (entry :: entries)
    match chunk.getLast? with
    | none => .error (.invalid "record exceeds page capacity")
    | some last => do
      let (result, pages') ← emitLoop snapshot level fuel rest (pages ++ [⟨level, chunk⟩])
      return (⟨last.key, .child (.new pages.length)⟩ :: result, pages')

def emitPages (snapshot : Snapshot) (level : Nat) (entries : List PlannedEntry)
    (pages : List PlannedPage) : Result (List PlannedEntry × List PlannedPage) :=
  emitLoop snapshot level entries.length entries pages

def changeRecord (records : List Record) : Mutation → Result (List Record)
  | .insert record =>
    if (KeyedList.lookup Record.key records record.key).isSome then .error .duplicate
    else .ok (KeyedList.insert Record.key record records)
  | .put record => .ok (KeyedList.insert Record.key record records)
  | .delete key => .ok (KeyedList.erase Record.key key records)

def changeRecords (records : List Record) (mutations : List Mutation) : Result (List Record) :=
  mutations.foldlM changeRecord records

def plannedRecord (record : Record) : PlannedEntry := ⟨record.key, .inline record.value⟩

/-- How many of the sorted mutations go to a child; the last child takes all that are left. -/
def share (last : Bool) (maxKey : List UInt8) (mutations : List Mutation) : Nat :=
  if last then mutations.length
  else (mutations.takeWhile fun mutation => mutation.key ≤ maxKey).length

section Plan

variable (blake3 : List UInt8 → Digest) (file : File) (snapshot : Snapshot)

/-- Hand each child of a node at `level` its share of the mutations. -/
def changeChildren
    (change : Node → List Mutation → List PlannedPage → ReadM
    (List PlannedEntry × List PlannedPage)) (level : Nat) :
    Option Record → List Record → List Mutation → List PlannedPage →
      ReadM (List PlannedEntry × List PlannedPage)
  | _, [], _, pages => return ([], pages)
  | previous, entry :: entries, mutations, pages =>
    if share entries.isEmpty entry.key mutations = 0 then do
      let (replacement, pages) ←
        changeChildren change level (some entry) entries mutations pages
      return (⟨entry.key, .child (.existing (child entry))⟩ :: replacement, pages)
    else do
      let descendant ← readChild blake3 file snapshot level previous entry
      let (changed, pages) ←
        change descendant (mutations.take (share entries.isEmpty entry.key mutations)) pages
      let (replacement, pages) ←
        changeChildren change level (some entry) entries
          (mutations.drop (share entries.isEmpty entry.key mutations)) pages
      return (changed ++ replacement, pages)

def changeBatch :
    Nat → Node → List Mutation → List PlannedPage → ReadM (List PlannedEntry × List PlannedPage)
  | 0, node, mutations, pages => do
    let records ← changeRecords node.entries mutations
    emitPages snapshot 0 (records.map plannedRecord) pages
  | level + 1, node, mutations, pages => do
    let (replacement, pages) ←
      changeChildren blake3 file snapshot (changeBatch level) node.level none node.entries
        mutations pages
    emitPages snapshot node.level replacement pages

/-- Add levels above the changed pages until one page is left, `room` levels at most. -/
def growRoot : Nat → Nat → List PlannedEntry → List PlannedPage →
    Result (List PlannedEntry × List PlannedPage)
  | room, level, changed, pages =>
    if changed.length > 1 then
      match room with
      | 0 => .error (.invalid "tree depth exhausted")
      | room + 1 => do
        let (changed, pages) ← emitPages snapshot (level + 1) changed pages
        growRoot room (level + 1) changed pages
    else .ok (changed, pages)

def rootNode : ReadM Node :=
  if snapshot.root = 0 then return ⟨0, []⟩
  else cachedNode blake3 file snapshot snapshot.root

def planRoot : List PlannedEntry → Option PageRef
  | ⟨_, .child reference⟩ :: _ => some reference
  | _ => none

def prepareBatch (mutations : List Mutation) : ReadM BatchPlan := do
  let root ← rootNode blake3 file snapshot
  -- Stable ordering preserves insert/put/delete semantics for repeated keys.
  let ordered := mutations.mergeSort fun a b => a.key ≤ b.key
  let (changed, pages) ← changeBatch blake3 file snapshot root.level root ordered []
  let (changed, pages) ← growRoot snapshot (maxLevel - root.level) root.level changed pages
  return ⟨pages, planRoot changed⟩

end Plan

section Write

variable (blake3 : List UInt8 → Digest)

def resolve (offsets : List Nat) : PageRef → Result Nat
  | .existing offset => .ok offset
  | .new pageId =>
    match offsets[pageId]? with
    | some offset => .ok offset
    | none => .error (.corrupt "forward reference in tree plan")

def resolveValue (level : Nat) (offsets : List Nat) : PlannedValue → Result (List UInt8)
  | .inline value =>
    if level = 0 then .ok value else .error (.corrupt "planned tree value at invalid level")
  | .child reference =>
    if level ≠ 0 then do
      let offset ← resolve offsets reference
      return Bytes.ofLe 8 offset
    else .error (.corrupt "planned tree value at invalid level")

def resolveEntries (next : Snapshot) (level : Nat) (offsets : List Nat) :
    Nat → List PlannedEntry → Result (List Record)
  | _, [] => .ok []
  | entryStart, entry :: entries => do
    let width ← plannedWidth next level entry
    if entryStart + width > checksumStart ∨ entry.key.length ≠ next.layout.keyBytes then
      .error (.corrupt "planned tree entry exceeds page bounds")
    else do
      let value ← resolveValue level offsets entry.value
      let records ← resolveEntries next level offsets (entryStart + width) entries
      return ⟨entry.key, value⟩ :: records

def planWrites (next : Snapshot) (offsets : List Nat) :
    List (PlannedPage × Nat) → Result (List (Nat × Page))
  | [] => .ok []
  | (page, offset) :: pages => do
    let entries ← resolveEntries next page.level offsets pagePrefix page.entries
    let writes ← planWrites next offsets pages
    return (offset, pageImage blake3 next offset page.level entries) :: writes

def File.writeAll (file : File) (writes : List (Nat × Page)) : File :=
  writes.foldl (fun file write => file.writeAllAt write.2 write.1) file

def planOffsets (start count : Nat) : List Nat :=
  (List.range count).map fun index => start + index * pageBytes

def resolveRoot (offsets : List Nat) : Option PageRef → Result Nat
  | some (.existing offset) => .ok offset
  | some (.new pageId) =>
    match offsets[pageId]? with
    | some offset => .ok offset
    | none => .error (.corrupt "tree root reference outside plan")
  | none => .ok 0

/-- The page writes of a plan that starts at `start`, and the snapshot they make. -/
def writePlan (base next : Snapshot) (start : Nat) (plan : BatchPlan) :
    Result (List (Nat × Page) × Snapshot) :=
  if plan.pages = [] then .ok ([], { next with root := 0 })
  else if start < base.end_ ∨ start % pageBytes ≠ 0 then
    .error (.invalid "invalid append reservation")
  else if plan.pages.length * pageBytes ≥ 2 ^ 64 then
    .error (.invalid "append reservation overflow")
  else if start + plan.pages.length * pageBytes > i64Max then
    .error (.invalid "file size exhausted")
  else do
    let offsets := planOffsets start plan.pages.length
    let writes ← planWrites blake3 next offsets (plan.pages.zip offsets)
    let root ← resolveRoot offsets plan.root
    return (writes, { next with root, end_ := start + plan.pages.length * pageBytes })


end Write

end BriskDB.Isam
