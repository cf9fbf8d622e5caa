import BriskDB.Engine.SortedCursor

/-! # What a fan-out collects

Whatever the order of arrival, a window holds the smallest of the positions it was offered
and a spool holds all of them in order. An ordered read that is ended early leaves out only
positions that come after the whole window.
-/

namespace BriskDB.Engine

open Document Selection Storage Result List Option

namespace Window

/-- The window has dropped these entries, none of them smaller than one it keeps. -/
structure Holds (window : Window) (dropped : List Entry) : Prop where
  descending : window.keys.Pairwise (Above Entry.cmp)
  lowest : Lowest Entry.cmp window.keys dropped
  complete : window.truncated = false → dropped = []
  full : window.truncated = true →
    window.keys.length = window.capacity ∧ 0 < window.capacity ∧ dropped ≠ []

variable {entryBytes : Entry → Nat} {window next : Window} {dropped : List Entry} {entry : Entry}

theorem holds_new (capacity byteLimit : Nat) : (new capacity byteLimit).Holds [] where
  descending := .nil
  lowest := lowest_nil []
  complete _ := rfl
  full h := absurd h Bool.false_ne_true

theorem excludes_iff : window.excludes entry = true ↔
    window.keys.length = window.capacity ∧
      ∃ largest keys, window.keys = largest :: keys ∧ Below Entry.cmp largest entry := by
  unfold excludes
  rw [Bool.and_eq_true, beq_iff_eq]
  refine and_congr_right fun _ => ?_
  cases window.keys with
  | nil => simp
  | cons largest keys =>
    rw [head?_cons, any_some, decide_eq_true_eq]
    constructor
    · exact fun hbelow => ⟨largest, keys, rfl, hbelow⟩
    · rintro ⟨_, _, heq, hbelow⟩
      cases heq
      exact hbelow

theorem Holds.exclude (h : window.Holds dropped) {later : List Entry}
    (hexcluded : window.excludes entry = true)
    (hlater : ∀ other ∈ later, Below Entry.cmp entry other) :
    ({ window with truncated := true } : Window).Holds (entry :: later ++ dropped) := by
  obtain ⟨hfull, largest, keys, hkeys, hbelow⟩ := excludes_iff.mp hexcluded
  refine ⟨h.descending, ?_, nofun, fun _ => ⟨hfull, ?_, ?_⟩⟩
  · -- everything kept is at most the largest, which is at most the entry
    have hentry : ∀ kept ∈ window.keys, Below Entry.cmp kept entry := by
      have hdescending := h.descending
      rw [hkeys] at hdescending ⊢
      have hlowest := (lowest_of_dropped_nil (largest :: keys)).drop hdescending hbelow
      exact fun kept hkept => hlowest kept hkept entry mem_cons_self
    intro kept hkept other hother
    rcases mem_append.mp hother with hother | hother
    · rcases mem_cons.mp hother with rfl | hother
      · exact hentry kept hkept
      · exact Std.TransCmp.isLE_trans (hentry kept hkept) (hlater other hother)
    · exact h.lowest kept hkept other hother
  · grind
  · exact cons_ne_nil _ _

theorem trim_eq (entryBytes : Entry → Nat) (byteLimit : Nat) (keys : List Entry) (bytes : Nat) :
    ∃ removed, keys = removed ++ (trim entryBytes byteLimit keys bytes).1 := by
  induction keys generalizing bytes with
  | nil => exact ⟨[], rfl⟩
  | cons first keys ih =>
    unfold trim
    split
    next =>
      obtain ⟨removed, hremoved⟩ := ih (bytes - entryBytes first)
      exact ⟨first :: removed, congrArg (first :: ·) hremoved⟩
    next => exact ⟨[], rfl⟩

theorem fit_cases (entryBytes : Entry → Nat) (window : Window) :
    window.fit entryBytes = window ∨
      ∃ removed, removed ≠ [] ∧ window.keys = removed ++ (window.fit entryBytes).keys ∧
        (window.fit entryBytes).truncated = true ∧
        (window.fit entryBytes).capacity = (window.fit entryBytes).keys.length := by
  obtain ⟨removed, hremoved⟩ := trim_eq entryBytes window.byteLimit window.keys window.bytes
  unfold fit
  dsimp only
  split
  next hshorter =>
    grind
  next => exact .inl rfl

/-- The window can take the entry, which goes before everything dropped. -/
structure Ready (window : Window) (entry : Entry) (dropped : List Entry) : Prop where
  descending : window.keys.Pairwise (Above Entry.cmp)
  lowest : Lowest Entry.cmp window.keys dropped
  below : ∀ other ∈ dropped, Below Entry.cmp entry other
  complete : window.truncated = false → dropped = []
  room : window.truncated = true →
    window.keys.length + 1 = window.capacity ∧ dropped ≠ [] ∨ window.capacity = 0

theorem Holds.makeRoom (h : window.Holds dropped) (hincluded : ¬ window.excludes entry = true) :
    ∃ dropped', (window.makeRoom entryBytes).Ready entry dropped' ∧
      ((window.makeRoom entryBytes).keys ++ dropped').Perm (window.keys ++ dropped) := by
  unfold Window.makeRoom
  split
  next hfull =>
    unfold Window.pop
    split
    next hkeys =>
      have hzero : window.capacity = 0 := by rw [← hfull, hkeys, length_nil]
      have hnone : dropped = [] := by
        cases htruncated : window.truncated with
        | false => exact h.complete htruncated
        | true => exact absurd hzero (h.full htruncated).2.1.ne'
      subst hnone
      refine ⟨[], ⟨h.descending, h.lowest, ?_, fun _ => rfl, fun _ => .inr hzero⟩, .refl _⟩
      simp
    next largest keys hkeys =>
      have hdescending := h.descending
      have hlowest := h.lowest
      rw [hkeys] at hdescending hlowest
      have hbelow : Below Entry.cmp entry largest := by
        refine (below_total Entry.cmp entry largest).resolve_right fun hafter => ?_
        exact hincluded (excludes_iff.mpr ⟨hfull, largest, keys, hkeys, hafter⟩)
      refine ⟨largest :: dropped, ⟨hdescending.of_cons, hlowest.pop hdescending, ?_, ?_, ?_⟩, ?_⟩
      · intro other hother
        rcases mem_cons.mp hother with rfl | hother
        · exact hbelow
        · exact Std.TransCmp.isLE_trans hbelow (hlowest largest mem_cons_self other hother)
      · simp
      · grind
      · simp [*]
  next hroom =>
    have huntruncated : window.truncated = false := by
      rw [Bool.eq_false_iff]
      exact fun htruncated => hroom (h.full htruncated).1
    have hnone := h.complete huntruncated
    subst hnone
    refine ⟨[], ⟨h.descending, h.lowest, ?_, fun _ => rfl, ?_⟩, .refl _⟩
    · simp
    · simp [*]

theorem Ready.push (h : window.Ready entry dropped)
    (hnext : (window.push entryBytes entry).fit entryBytes = next) (hpos : next.capacity ≠ 0) :
    ∃ dropped', next.Holds dropped' ∧
      (next.keys ++ dropped').Perm (entry :: (window.keys ++ dropped)) := by
  have hinserted := h.descending.orderedInsert entry
  have hlowest := h.lowest.push h.below
  have hperm : (window.keys.orderedInsert (Above Entry.cmp) entry).Perm (entry :: window.keys) :=
    perm_orderedInsert _ entry window.keys
  rcases fit_cases entryBytes (window.push entryBytes entry) with hsame | hcut
  · rw [hsame] at hnext
    subst hnext
    refine ⟨dropped, ⟨hinserted, hlowest, h.complete, ?_⟩, hperm.append_right dropped⟩
    intro htruncated
    rcases h.room htruncated with ⟨hlength, hdropped⟩ | hzero
    · refine ⟨?_, Nat.pos_of_ne_zero hpos, hdropped⟩
      rw [Window.push, hperm.length_eq, length_cons, hlength]
    · exact absurd hzero hpos
  · rw [hnext] at hcut
    obtain ⟨removed, hremoved, hkeys, htruncated, hcapacity⟩ := hcut
    have hkeys : window.keys.orderedInsert (Above Entry.cmp) entry = removed ++ next.keys := hkeys
    rw [hkeys] at hinserted hlowest hperm
    obtain ⟨-, hkept, hcross⟩ := pairwise_append.mp hinserted
    refine ⟨removed ++ dropped, ⟨hkept, ?_, ?_, ?_⟩, ?_⟩
    · intro kept hmem other hother
      rcases mem_append.mp hother with hother | hother
      · exact hcross other hother kept hmem
      · exact hlowest kept (mem_append_right removed hmem) other hother
    · simp [*]
    · grind [append_ne_nil_of_left_ne_nil]
    · rw [← append_assoc]
      exact (perm_append_comm.trans hperm).append_right dropped

/-- Considering an entry keeps the smallest ones among all that were considered. -/
theorem Holds.consider (h : window.Holds dropped)
    (hnext : window.consider entryBytes entry = .ok next) :
    ∃ dropped', next.Holds dropped' ∧
      (next.keys ++ dropped').Perm (entry :: (window.keys ++ dropped)) := by
  have hcounted : ({ window with considered := window.considered + 1 } : Window).Holds dropped :=
    ⟨h.descending, h.lowest, h.complete, h.full⟩
  unfold Window.consider at hnext
  dsimp only at hnext
  split at hnext
  next hexcluded =>
    cases hnext
    exact ⟨[entry] ++ dropped, hcounted.exclude hexcluded (forall_mem_nil _),
      perm_middle⟩
  next hincluded =>
    obtain ⟨dropped', hready, hperm⟩ := hcounted.makeRoom hincluded
    split at hnext
    next => cases hnext
    next hpos =>
      obtain ⟨dropped'', hholds, hperm'⟩ := hready.push (Except.ok.inj hnext) (by
        rwa [← Except.ok.inj hnext])
      exact ⟨dropped'', hholds, hperm'.trans (hperm.cons entry)⟩

/-- A window holds the smallest of the entries offered, and all of them if not truncated. -/
theorem consider_all {entries : List Entry}
    (h : window.Holds dropped) (hrun : entries.foldlM (consider entryBytes) window = .ok next) :
    ∃ dropped', next.Holds dropped' ∧
      (next.keys ++ dropped').Perm (entries ++ (window.keys ++ dropped)) := by
  induction entries generalizing window dropped with
  | nil =>
    cases hrun
    exact ⟨dropped, h, .refl _⟩
  | cons entry entries ih =>
    rw [foldlM_cons] at hrun
    obtain ⟨middle, hmiddle, hrun⟩ := bind_eq_ok.mp hrun
    obtain ⟨dropped', hholds, hperm⟩ := h.consider hmiddle
    obtain ⟨dropped'', hholds', hperm'⟩ := ih hholds hrun
    refine ⟨dropped'', hholds', hperm'.trans ?_⟩
    exact (hperm.append_left entries).trans perm_middle

end Window

/-- A matching document with its sort key. -/
structure Match where
  shard : Nat
  record : DocumentStorageRecord
  key : DocumentSortKey

namespace Match

def entry (found : Match) : Entry := ⟨⟨found.key, found.record.naturalOrder⟩, found.shard⟩

def spoolPosition (found : Match) : SpoolPosition where
  key := match found.key.orderedBytes with
    | .ok bytes => bytes
    | .error _ => []
  naturalOrder := found.record.naturalOrder
  shard := found.shard

def Encoded (found : Match) : Prop := found.key.orderedBytes = .ok found.spoolPosition.key

theorem encoded_iff {found : Match} {bytes : List UInt8} (h : found.key.orderedBytes = .ok bytes) :
    found.spoolPosition = ⟨bytes, found.record.naturalOrder, found.shard⟩ ∧ found.Encoded := by
  simp [*, spoolPosition, Encoded]

theorem below_spoolPosition {left right : Match} (hleft : left.Encoded) (hright : right.Encoded)
    (h : Entry.cmp left.entry right.entry = .lt) :
    Below SpoolPosition.cmp left.spoolPosition right.spoolPosition := by
  have hkey := (orderedBytes_compare hleft hright).1
  have h : (left.key.cmp right.key).then
      (compare left.record.naturalOrder right.record.naturalOrder) = .lt := h
  refine below_of_lt ?_
  change (compare left.spoolPosition.key right.spoolPosition.key).then
    ((compare left.record.naturalOrder right.record.naturalOrder).then _) = .lt
  rw [hkey, ← Ordering.then_assoc, h]
  rfl

end Match

namespace SortedQuery

variable (query : SortedQuery)

def matchOf (shard : Nat) (record : DocumentStorageRecord) : Option Match :=
  match query.selectedKey record.document with
  | .ok key => key.map fun key => ⟨shard, record, key⟩
  | .error _ => none

def allMatches : List Match :=
  query.shards.flatMap fun content => content.records.filterMap (query.matchOf content.shard)

/-- They are ordered by sort key, then by natural order. -/
def sortedMatches : List Match := Scan.scan Entry.cmp Match.entry query.allMatches

def HasKey (document : BsonDocument) : Prop :=
  query.selects document = .ok true → ∃ key, query.sorter.keyValidated document = .ok key

def Keyed : Prop :=
  ∀ content ∈ query.shards, ∀ record ∈ content.records, query.HasKey record.document

variable {query} {found : Match} {window next : Window} {items rest : List SourceItem} {index : Nat}

theorem matchOf_eq_some {shard : Nat} {record : DocumentStorageRecord} :
    query.matchOf shard record = some found ↔
      query.selects record.document = .ok true ∧
        query.sorter.keyValidated record.document = .ok found.key ∧
        found.shard = shard ∧ found.record = record := by
  unfold matchOf selectedKey
  rcases hselects : query.selects record.document with error | selected
  · simp
  · cases selected with
    | false => simp
    | true =>
      rcases hkey : query.sorter.keyValidated record.document with error | key
      · simp
      · obtain ⟨foundShard, foundRecord, foundKey⟩ := found
        simp
        tauto

theorem mem_allMatches : found ∈ query.allMatches ↔
    ∃ content ∈ query.shards, found.shard = content.shard ∧ found.record ∈ content.records ∧
      query.selects found.record.document = .ok true ∧
      query.sorter.keyValidated found.record.document = .ok found.key := by
  unfold allMatches
  rw [mem_flatMap]
  refine exists_congr fun content => and_congr_right fun _ => ?_
  rw [mem_filterMap]
  constructor
  · rintro ⟨record, hrecord, hfound⟩
    obtain ⟨hselects, hkey, hshard, rfl⟩ := matchOf_eq_some.mp hfound
    exact ⟨hshard, hrecord, hselects, hkey⟩
  · rintro ⟨hshard, hrecord, hselects, hkey⟩
    exact ⟨found.record, hrecord, matchOf_eq_some.mpr ⟨hselects, hkey, hshard, rfl⟩⟩

theorem distinct_allMatches : Scan.Distinct Entry.cmp Match.entry query.allMatches := by
  have hsublist : (query.allMatches.map (·.record.naturalOrder)).Sublist
      (query.shards.flatMap fun content => content.records.map (·.naturalOrder)) := by
    rw [allMatches, map_flatMap]
    refine List.Sublist.flatMap_right _ fun content _ => ?_
    induction content.records with
    | nil => exact List.Sublist.refl _
    | cons record records ih =>
      rw [filterMap_cons]
      cases hfound : query.matchOf content.shard record with
      | none => exact ih.cons _
      | some found =>
        obtain ⟨-, -, -, rfl⟩ := matchOf_eq_some.mp hfound
        exact ih.cons_cons _
  refine (pairwise_map.mp (hsublist.nodup query.naturals_nodup)).imp ?_
  intro left right hne heq
  have heq : (left.key.cmp right.key).then
      (compare left.record.naturalOrder right.record.naturalOrder) = .eq := heq
  grind

variable {after : Option SortPosition}

variable (query after) in
/-- The match that a reported document adds after a position. -/
def due (item : SourceItem) : Option Match :=
  (query.matchOf item.shard item.record).filter (·.entry.position.isAfter after)

variable (query after) in
def pending (queues : List (List SourceItem)) : List Match := queues.flatten.filterMap
    (query.due after)

variable (query after) in
/-- The key of an ordered report is that of its document, and lies after the position. -/
def Valid (item : SourceItem) : Prop :=
  ∀ key, item.ordered = some key →
    query.sorter.keyValidated item.record.document = .ok key ∧
      (item.entry key).position.isAfter after = true

variable (query) in
/-- After an ordered report only ordered reports follow, with later matches. -/
def Follows (first second : SourceItem) : Prop :=
  first.ordered.isSome = true → second.ordered.isSome = true ∧
    ∀ left right, query.matchOf first.shard first.record = some left →
      query.matchOf second.shard second.record = some right →
      Below Entry.cmp left.entry right.entry

variable {item : SourceItem} {more : Bool} {queues : List (List SourceItem)}

theorem due_of_unselected (h : query.selects item.record.document = .ok false) :
    query.HasKey item.record.document ∧ query.due after item = none := by
  have hnone : query.matchOf item.shard item.record = none := by
    rw [matchOf, selectedKey, h]
    rfl
  refine ⟨?_, by rw [due, hnone]; rfl⟩
  intro hselected
  grind

theorem due_of_selected {key : DocumentSortKey} (h : query.selects item.record.document = .ok true)
    (hkey : query.sorter.keyValidated item.record.document = .ok key) :
    query.HasKey item.record.document ∧ query.due after item =
      if (item.entry key).position.isAfter after = true then
        some ⟨item.shard, item.record, key⟩ else none := by
  have hfound : query.matchOf item.shard item.record = some ⟨item.shard, item.record, key⟩ :=
    matchOf_eq_some.mpr ⟨h, hkey, rfl, rfl⟩
  refine ⟨fun _ => ⟨key, hkey⟩, ?_⟩
  rw [due, hfound, filter_some]
  rfl

theorem visitWindow_cases (hvalid : query.Valid after item)
    (h : query.visitWindow after window item = .ok (next, more)) :
    query.HasKey item.record.document ∧
      (query.due after item = none ∧ next = window ∧ more = true ∨
        ∃ found, query.due after item = some found ∧
          (window.consider query.entryBytes found.entry = .ok next ∧ more = true ∨
            item.ordered.isSome = true ∧ window.excludes found.entry = true ∧
              next = { window with truncated := true } ∧ more = false)) := by
  unfold visitWindow at h
  obtain ⟨selected, hselects, h⟩ := bind_eq_ok.mp h
  cases selected with
  | false =>
    cases h
    obtain ⟨hhas, hnone⟩ := @due_of_unselected query after item hselects
    exact ⟨hhas, .inl ⟨hnone, rfl, rfl⟩⟩
  | true =>
    simp only [not_true_eq_false, if_false] at h
    cases hordered : item.ordered with
    | some key =>
      rw [hordered] at h
      obtain ⟨hkey, hafter⟩ := hvalid key hordered
      obtain ⟨hhas, hdue⟩ := @due_of_selected query after item key hselects hkey
      rw [if_pos hafter] at hdue
      refine ⟨hhas, .inr ⟨_, hdue, ?_⟩⟩
      dsimp only at h
      split at h
      next hexcluded =>
        cases h
        exact .inr ⟨rfl, hexcluded, rfl, rfl⟩
      next =>
        obtain ⟨window', hwindow, h⟩ := bind_eq_ok.mp h
        cases h
        exact .inl ⟨hwindow, rfl⟩
    | none =>
      rw [hordered] at h
      obtain ⟨key, hkey, h⟩ := bind_eq_ok.mp h
      obtain ⟨hhas, hdue⟩ := @due_of_selected query after item key hselects hkey
      refine ⟨hhas, ?_⟩
      split at h
      next hafter =>
        obtain ⟨window', hwindow, h⟩ := bind_eq_ok.mp h
        cases h
        rw [if_pos hafter] at hdue
        exact .inr ⟨_, hdue, .inl ⟨hwindow, rfl⟩⟩
      next hafter =>
        cases h
        simp [*]

/-- One report leaves its queue; where it is the last one that counts, so does the rest. -/
theorem pending_set (query : SortedQuery) (after : Option SortPosition)
    (hqueue : queues[index]? = some (item :: rest)) :
    ∃ others : List SourceItem, queues.flatten.Perm (item :: rest ++ others) ∧
      (query.pending after queues).Perm ((query.due after item).toList ++
        (rest.filterMap (query.due after) ++ others.filterMap (query.due after))) ∧
      ∀ queue, (queues.set index queue).flatten.Perm (queue ++ others) ∧
        (query.pending after (queues.set index queue)).Perm
          (queue.filterMap (query.due after) ++ others.filterMap (query.due after)) := by
  obtain ⟨others, hall, hset⟩ := Fanout.flatten_set_perm hqueue
  refine ⟨others, hall, (hall.filterMap _).trans (.of_eq ?_), fun queue => ⟨hset queue, ?_⟩⟩
  · rw [cons_append, filterMap_cons, filterMap_append]
    grind
  · rw [← filterMap_append]
    exact (hset queue).filterMap _

/-- The state of a fan-out between two reports. -/
structure Reporting (query : SortedQuery) (after : Option SortPosition) (items : List SourceItem)
    (queues : List (List SourceItem)) : Prop where
  ordered : ∀ queue ∈ queues, queue.Pairwise query.Follows
  valid : ∀ item ∈ queues.flatten, query.Valid after item
  keyed : ∀ item ∈ items, item ∈ queues.flatten ∨ query.HasKey item.record.document

theorem Reporting.start {queue : ShardContent query.sorter → List SourceItem}
    (hreports : ∀ content, (queue content).Pairwise query.Follows ∧
      ∀ item ∈ queue content, query.Valid after item) :
    Reporting query after (query.shards.map queue).flatten (query.shards.map queue) := by
  refine ⟨?_, ?_, fun item hitem => .inl hitem⟩
  · simp [*]
  · grind

theorem Reporting.set
    (h : Reporting query after items queues) (hqueue : queues[index]? = some (item :: rest))
    (hitem : query.HasKey item.record.document)
    (hstop : more = false → item.ordered.isSome = true) :
    Reporting query after items (queues.set index (if more then rest else [])) := by
  obtain ⟨others, hall, -, hset⟩ := pending_set query after hqueue
  have hmember := mem_of_getElem? hqueue
  have hpairwise := h.ordered _ hmember
  refine ⟨?_, ?_, ?_⟩
  · intro queue hmem
    rcases mem_or_eq_of_mem_set hmem with hmem | rfl
    · exact h.ordered queue hmem
    · cases more with
      | true => exact hpairwise.of_cons
      | false => exact .nil
  · intro other hother
    refine h.valid other (hall.mem_iff.mpr ?_)
    rcases mem_append.mp ((hset _).1.mem_iff.mp hother) with hother | hother
    · cases more with
      | true => exact mem_append_left _ (mem_cons_of_mem item hother)
      | false => cases hother
    · exact mem_append_right _ hother
  · intro other hother
    rcases h.keyed other hother with hmem | hkeyed
    · rcases mem_append.mp (hall.mem_iff.mp hmem) with hmem | hmem
      · rcases mem_cons.mp hmem with rfl | hmem
        · exact .inr hitem
        · cases hmore : more with
          | true =>
            refine .inl ((hset _).1.mem_iff.mpr (mem_append_left _ ?_))
            exact hmem
          | false =>
            -- what follows was ordered too, so its keys are known
            have hfollows := (pairwise_cons.mp hpairwise).1 other hmem (hstop hmore)
            obtain ⟨key, hkey⟩ := isSome_iff_exists.mp hfollows.1
            have hvalid := h.valid other (mem_flatten.mpr
              ⟨_, hmember, mem_cons_of_mem item hmem⟩)
            exact .inr fun _ => ⟨key, (hvalid key hkey).1⟩
      · exact .inl ((hset _).1.mem_iff.mpr (mem_append_right _ hmem))
    · exact .inr hkeyed

/-- The window keeps the smallest of the matches that were reported. -/
def Collected (query : SortedQuery) (after : Option SortPosition) (expected : List Match)
    (queues : List (List SourceItem)) (window : Window) : Prop :=
  ∃ dropped, window.Holds dropped ∧
    (window.keys ++ dropped ++ (query.pending after queues).map Match.entry).Perm
      (expected.map Match.entry)

theorem Collected.visit {expected : List Match} (hreporting : Reporting query after items queues)
    (h : Collected query after expected queues window)
    (hqueue : queues[index]? = some (item :: rest))
    (hvisit : query.visitWindow after window item = .ok (next, more)) :
    Reporting query after items (queues.set index (if more then rest else [])) ∧
      Collected query after expected (queues.set index (if more then rest else [])) next := by
  obtain ⟨others, -, hpending, hset⟩ := pending_set query after hqueue
  have hmember := mem_of_getElem? hqueue
  have hvalid := hreporting.valid item (mem_flatten.mpr ⟨_, hmember, mem_cons_self⟩)
  obtain ⟨hhas, hcases⟩ := visitWindow_cases hvalid hvisit
  obtain ⟨dropped, hholds, hperm⟩ := h
  rcases hcases with ⟨hnone, rfl, rfl⟩ | ⟨found, hdue, ⟨hconsider, rfl⟩ | hstop⟩
  · refine ⟨hreporting.set hqueue hhas nofun, dropped, hholds, ?_⟩
    rw [hnone] at hpending
    refine List.Perm.trans ?_ hperm
    exact ((((hset rest).2.trans hpending.symm).map Match.entry).append_left _)
  · refine ⟨hreporting.set hqueue hhas nofun, ?_⟩
    obtain ⟨dropped', hholds', hperm'⟩ := hholds.consider hconsider
    refine ⟨dropped', hholds', ?_⟩
    rw [hdue] at hpending
    refine List.Perm.trans ?_ hperm
    refine (hperm'.append ((hset rest).2.map Match.entry)).trans ?_
    refine List.Perm.trans ?_ ((hpending.map Match.entry).append_left _).symm
    simp only [toList_some, cons_append, nil_append, map_cons]
    exact perm_middle.symm
  · obtain ⟨hordered, hexcluded, rfl, rfl⟩ := hstop
    refine ⟨hreporting.set hqueue hhas fun _ => hordered, ?_⟩
    have hlater : ∀ other ∈ (rest.filterMap (query.due after)).map Match.entry,
        Below Entry.cmp found.entry other := by
      intro other hother
      obtain ⟨later, hlater, rfl⟩ := mem_map.mp hother
      obtain ⟨second, hsecond, hmatch⟩ := mem_filterMap.mp hlater
      have hfollows := (pairwise_cons.mp (hreporting.ordered _ hmember)).1 second hsecond
        hordered
      exact hfollows.2 found later (filter_eq_some_iff.mp hdue).1
        (filter_eq_some_iff.mp hmatch).1
    refine ⟨_, hholds.exclude hexcluded hlater, ?_⟩
    rw [hdue] at hpending
    refine List.Perm.trans ?_ hperm
    refine List.Perm.trans (List.Perm.append_left _ ((hset []).2.map Match.entry)) ?_
    refine List.Perm.trans ?_ ((hpending.map Match.entry).append_left _).symm
    simp only [toList_some, cons_append, nil_append, map_cons,
      filterMap_nil, map_append, append_assoc]
    grind [List.Perm.append_left, perm_append_comm_assoc]

variable (query after) in
def matchesAfter : List Match := query.allMatches.filter (·.entry.position.isAfter after)

theorem distinct_matchesAfter : Scan.Distinct Entry.cmp Match.entry (query.matchesAfter after) :=
  List.Pairwise.filter _ distinct_allMatches

theorem matchesAfter_eq : query.matchesAfter after = query.shards.flatMap fun content =>
    content.scanQueue.filterMap (query.due after) := by
  unfold matchesAfter allMatches
  rw [filter_flatMap]
  refine congrArg (List.flatMap · query.shards) (funext fun content => ?_)
  unfold ShardContent.scanQueue
  rw [filterMap_map, filter_filterMap]
  rfl

theorem scanQueue_reports (content : ShardContent query.sorter) :
    content.scanQueue.Pairwise query.Follows ∧
      ∀ item ∈ content.scanQueue, query.Valid after item := by
  have hscan : ∀ item ∈ content.scanQueue, item.ordered = none := by
    intro item hitem
    obtain ⟨record, -, rfl⟩ := mem_map.mp hitem
    rfl
  constructor
  · refine pairwise_of_forall_mem_list ?_
    intro first hfirst second _ hordered
    grind
  · intro item hitem key hkey
    grind

theorem orderedQueue_reports {content : ShardContent query.sorter}
    {list : List (DocumentStorageRecord × DocumentSortKey)} (hlist : content.ordered = some list) :
    (content.orderedQueue after list).Pairwise query.Follows ∧
      (∀ item ∈ content.orderedQueue after list, query.Valid after item) ∧
      ((content.orderedQueue after list).filterMap (query.due after)).Perm
        (content.scanQueue.filterMap (query.due after)) := by
  have hkeys := content.ordered_keys list hlist
  refine ⟨?_, ?_, ?_⟩
  · refine pairwise_map.mpr (((content.ordered_ascending list hlist).filter _).imp_of_mem ?_)
    rintro ⟨first, firstKey⟩ ⟨second, secondKey⟩ hfirst hsecond hprecedes -
    refine ⟨rfl, ?_⟩
    intro left right hleft hright
    obtain ⟨-, hleftKey, -, rfl⟩ := matchOf_eq_some.mp hleft
    obtain ⟨-, hrightKey, -, rfl⟩ := matchOf_eq_some.mp hright
    cases (hkeys _ (mem_of_mem_filter hfirst)).symm.trans hleftKey
    cases (hkeys _ (mem_of_mem_filter hsecond)).symm.trans hrightKey
    refine below_of_lt ?_
    change (left.key.cmp right.key).then
      (compare left.record.naturalOrder right.record.naturalOrder) = .lt
    rw [Ordering.then_eq_lt]
    exact hprecedes.imp_right fun hsame => ⟨hsame.1, compare_lt_iff_lt.mpr hsame.2⟩
  · intro item hitem key hkey
    obtain ⟨⟨record, key'⟩, hentry, rfl⟩ := mem_map.mp hitem
    cases hkey
    obtain ⟨hmem, hafter⟩ := mem_filter.mp hentry
    exact ⟨hkeys _ hmem, hafter⟩
  · unfold ShardContent.scanQueue ShardContent.orderedQueue
    rw [filterMap_map, filterMap_map]
    refine List.Perm.trans ?_ ((content.ordered_perm list hlist).filterMap _)
    rw [filterMap_filter, filterMap_map]
    refine .of_eq (filterMap_congr ?_)
    rintro ⟨record, key⟩ hmem
    simp only [Function.comp_apply]
    split
    next => rfl
    next hbefore =>
      -- the match of a document that is not after the position is not due either
      cases hdue : query.due after ⟨content.shard, record, none⟩ with
      | none => rfl
      | some found =>
        exfalso
        obtain ⟨hfound, hafter⟩ := filter_eq_some_iff.mp hdue
        obtain ⟨-, hkey, -, hrecord⟩ := matchOf_eq_some.mp hfound
        grind [Match.entry]

theorem windowQueue_reports (plan : FanoutPlan) (after : Option SortPosition)
    (content : ShardContent query.sorter) :
    (query.windowQueue plan after content).Pairwise query.Follows ∧
      (∀ item ∈ query.windowQueue plan after content, query.Valid after item) ∧
      ((query.windowQueue plan after content).filterMap (query.due after)).Perm
        (content.scanQueue.filterMap (query.due after)) ∧
      ((∀ item ∈ query.windowQueue plan after content, query.HasKey item.record.document) →
        ∀ record ∈ content.records, query.HasKey record.document) := by
  unfold windowQueue orderedList
  split
  next list hlist =>
    have hlist : content.ordered = some list := by
      split at hlist
      · exact hlist
      · cases hlist
    obtain ⟨hpairwise, hvalid, hperm⟩ := @orderedQueue_reports query after content list hlist
    refine ⟨hpairwise, hvalid, hperm, fun _ record hrecord _ => ?_⟩
    obtain ⟨entry, hentry, rfl⟩ :=
      mem_map.mp ((content.ordered_perm list hlist).mem_iff.mpr hrecord)
    exact ⟨entry.2, content.ordered_keys list hlist entry hentry⟩
  next =>
    obtain ⟨hpairwise, hvalid⟩ := @scanQueue_reports query after content
    refine ⟨hpairwise, hvalid, .refl _, fun hkeyed record hrecord => ?_⟩
    exact hkeyed ⟨content.shard, record, none⟩ (mem_map.mpr ⟨record, hrecord, rfl⟩)

variable {plan : FanoutPlan} {builder next : SpoolBuilder}

/-- A fan-out over the shards fills a window with the smallest matches after a position. -/
theorem run_visitWindow {capacity byteLimit : Nat} {window : Window}
    (h : Fanout.run (query.visitWindow after) plan.schedule
      (query.shards.map (query.windowQueue plan after)) (.new capacity byteLimit) =
        .ok window) :
    query.Keyed ∧ ∃ dropped, window.Holds dropped ∧
      (Scan.scan Entry.cmp Match.entry (query.matchesAfter after)).map Match.entry =
        window.keys.reverse ++ Scan.scan Entry.cmp id dropped := by
  have hreports := @windowQueue_reports query plan after
  have hinit : Reporting query after (query.shards.map (query.windowQueue plan after)).flatten
      (query.shards.map (query.windowQueue plan after)) ∧
      Collected query after (query.matchesAfter after)
        (query.shards.map (query.windowQueue plan after)) (.new capacity byteLimit) := by
    refine ⟨.start fun content => ⟨(hreports content).1, (hreports content).2.1⟩, [],
      Window.holds_new _ _, ?_⟩
    rw [matchesAfter_eq]
    refine List.Perm.map Match.entry ?_
    unfold pending
    rw [← flatMap_def, filterMap_flatMap]
    exact List.Perm.flatMap_left _ fun content _ => (hreports content).2.2.1
  obtain ⟨served, ⟨hreporting, dropped, hholds, hperm⟩, -, hempty⟩ :=
    Fanout.run_induct
      (I := fun queues window => Reporting query after
          (query.shards.map (query.windowQueue plan after)).flatten queues ∧
        Collected query after (query.matchesAfter after) queues window)
      (fun queues window index item rest next more hqueue hinv hvisit =>
        Collected.visit hinv.1 hinv.2 hqueue hvisit) hinit h
  refine ⟨?_, dropped, hholds, ?_⟩
  · intro content hcontent
    refine (hreports content).2.2.2 fun item hitem => ?_
    refine (hreporting.keyed item ?_).resolve_left ?_
    · exact mem_flatten.mpr ⟨_, mem_map_of_mem hcontent, hitem⟩
    · rw [flatten_eq_nil_iff.mpr hempty]
      exact not_mem_nil
  · rw [pending, flatten_eq_nil_iff.mpr hempty, filterMap_nil, map_nil, append_nil] at hperm
    have hdistinct := @distinct_matchesAfter query after
    have hentries : Scan.Distinct Entry.cmp id ((query.matchesAfter after).map Match.entry) :=
      pairwise_map.mpr hdistinct
    rw [← scan_eq_append hentries hperm hholds.lowest hholds.descending]
    grind [Scan.scan_map]

theorem visitSpool_cases (h : query.visitSpool after builder item = .ok (next, more)) :
    query.HasKey item.record.document ∧ more = true ∧
      (query.due after item = none ∧ next = builder ∨
        ∃ found, query.due after item = some found ∧ found.Encoded ∧
          builder.push query.pushedSpoolBytes found.spoolPosition = .ok next) := by
  unfold visitSpool at h
  obtain ⟨selected, hselects, h⟩ := bind_eq_ok.mp h
  cases selected with
  | false =>
    cases h
    obtain ⟨hhas, hnone⟩ := @due_of_unselected query after item hselects
    exact ⟨hhas, rfl, .inl ⟨hnone, rfl⟩⟩
  | true =>
    simp only [not_true_eq_false, if_false] at h
    obtain ⟨key, hkey, h⟩ := bind_eq_ok.mp h
    obtain ⟨hhas, hdue⟩ := @due_of_selected query after item key hselects hkey
    refine ⟨hhas, ?_⟩
    split at h
    next hbefore =>
      cases h
      simp [*]
    next hafter =>
      obtain ⟨bytes, hbytes, h⟩ := bind_eq_ok.mp h
      obtain ⟨pushed, hpush, h⟩ := bind_eq_ok.mp h
      cases h
      rw [if_pos (not_not.mp hafter)] at hdue
      simp [*, Match.encoded_iff]

/-- The builder holds the matches that were reported. -/
def Spooled (query : SortedQuery) (after : Option SortPosition) (expected : List Match)
    (queues : List (List SourceItem)) (builder : SpoolBuilder) : Prop :=
  ∃ collected : List Match, (∀ found ∈ collected, found.Encoded) ∧
    builder.Collects (collected.map Match.spoolPosition) ∧
    (collected ++ query.pending after queues).Perm expected

theorem Spooled.visit {expected : List Match} (hreporting : Reporting query after items queues)
    (h : Spooled query after expected queues builder)
    (hqueue : queues[index]? = some (item :: rest))
    (hvisit : query.visitSpool after builder item = .ok (next, more)) :
    Reporting query after items (queues.set index (if more then rest else [])) ∧
      Spooled query after expected (queues.set index (if more then rest else [])) next := by
  obtain ⟨others, -, hpending, hset⟩ := pending_set query after hqueue
  replace hpending := hpending.trans ((hset rest).2.symm.append_left _)
  obtain ⟨hhas, rfl, hcases⟩ := visitSpool_cases hvisit
  obtain ⟨collected, hencoded, hcollects, hperm⟩ := h
  refine ⟨hreporting.set hqueue hhas nofun, ?_⟩
  rcases hcases with ⟨hnone, rfl⟩ | ⟨found, hdue, hfound, hpush⟩
  · rw [hnone] at hpending
    exact ⟨collected, hencoded, hcollects, (hpending.symm.append_left collected).trans hperm⟩
  · rw [hdue] at hpending
    refine ⟨found :: collected, forall_mem_cons.mpr ⟨hfound, hencoded⟩,
      hcollects.push hpush, ?_⟩
    exact (perm_middle.symm.trans (hpending.symm.append_left collected)).trans hperm

/-- A fan-out over the shards spools the matches after a position, in order. -/
theorem buildDocumentSortSpool_spec {spool : SortSpool}
    (h : query.buildDocumentSortSpool plan after = .ok spool) :
    query.Keyed ∧ spool.Readable ∧
      (∀ found ∈ query.matchesAfter after, found.Encoded) ∧
      spool.rest =
        (Scan.scan Entry.cmp Match.entry (query.matchesAfter after)).map Match.spoolPosition := by
  obtain ⟨builder, hrun, hfinish⟩ := bind_eq_ok.mp h
  have hinit : Reporting query after (query.shards.map (·.scanQueue)).flatten
      (query.shards.map (·.scanQueue)) ∧
      Spooled query after (query.matchesAfter after) (query.shards.map (·.scanQueue))
        .new := by
    refine ⟨.start scanQueue_reports, [], forall_mem_nil _, SpoolBuilder.collects_new, ?_⟩
    rw [matchesAfter_eq, nil_append, pending, ← flatMap_def, filterMap_flatMap]
  obtain ⟨served, ⟨hreporting, collected, hencoded, hcollects, hperm⟩, -, hempty⟩ :=
    Fanout.run_induct
      (I := fun queues builder => Reporting query after
          (query.shards.map ShardContent.scanQueue).flatten queues ∧
        Spooled query after (query.matchesAfter after) queues builder)
      (fun queues builder index item rest next more hqueue hinv hvisit =>
        Spooled.visit hinv.1 hinv.2 hqueue hvisit) hinit hrun
  rw [pending, flatten_eq_nil_iff.mpr hempty, filterMap_nil, append_nil] at hperm
  obtain ⟨hreadable, hrest⟩ := hcollects.finish hfinish
  have hall : ∀ found ∈ query.matchesAfter after, found.Encoded :=
    fun found hfound => hencoded found (hperm.mem_iff.mpr hfound)
  have hscan := Scan.scan_perm Entry.cmp Match.entry (query.matchesAfter after)
  refine ⟨?_, hreadable, hall, ?_⟩
  · intro content hcontent record hrecord
    refine (hreporting.keyed ⟨content.shard, record, none⟩ ?_).resolve_left ?_
    · exact mem_flatten.mpr ⟨_, mem_map_of_mem hcontent,
        mem_map.mpr ⟨record, hrecord, rfl⟩⟩
    · rw [flatten_eq_nil_iff.mpr hempty]
      exact not_mem_nil
  · rw [hrest]
    refine (eq_sorted ?_ ?_).symm
    · refine pairwise_map.mpr ((Scan.ascending_scan distinct_matchesAfter).imp_of_mem ?_)
      grind [Match.below_spoolPosition]
    · exact (hscan.trans hperm.symm).map Match.spoolPosition

end SortedQuery

end BriskDB.Engine
