import BriskDB.Engine.SortedWindow

/-! # Sorted pages

The pages of a sorted cursor are the skip and limit slice of the matching documents. A cursor
tracks the part of the sorted result that it has not consumed: its window is the beginning of
that part and its spool is the whole of it. Every step of a page keeps this, and moves a
document from the slice to the page or shortens what is left.
-/

namespace BriskDB.Engine

open Document Selection Storage Result CursorState List Option

namespace SortedQuery

variable {query : SortedQuery}

theorem scan_matchesAfter {consumed rest : List Match}
    (h : query.sortedMatches = consumed ++ rest) :
    Scan.scan Entry.cmp Match.entry
      (query.matchesAfter (consumed.getLast?.map (·.entry.position))) = rest := by
  unfold matchesAfter
  rw [Scan.scan_filter distinct_allMatches]
  have hascending := Scan.ascending_scan (@distinct_allMatches query)
  change List.filter _ query.sortedMatches = rest
  change Scan.Ascending Entry.cmp Match.entry query.sortedMatches at hascending
  rw [h] at hascending ⊢
  rcases eq_nil_or_concat' consumed with rfl | ⟨front, last, rfl⟩
  · rw [nil_append, filter_eq_self]
    exact fun _ _ => rfl
  · obtain ⟨hconsumed, -, hcross⟩ := pairwise_append.mp hascending
    obtain ⟨-, -, hfront⟩ := pairwise_append.mp hconsumed
    have hlast : (front ++ [last]).getLast?.map (·.entry.position) = some last.entry.position := by
      simp
    rw [filter_append, hlast, filter_eq_nil_iff.mpr, nil_append,
      filter_eq_self]
    · intro found hfound
      have hlt := hcross last (mem_append_right front mem_cons_self) found hfound
      have hgt : found.entry.position.cmp last.entry.position = .gt :=
        Std.OrientedCmp.gt_iff_lt.mpr hlt
      simp [SortPosition.isAfter, hgt]
    · intro found hfound
      rcases mem_append.mp hfound with hfound | hfound
      · have hlt : found.entry.position.cmp last.entry.position = .lt :=
          hfront found hfound last mem_cons_self
        simp [SortPosition.isAfter, hlt]
      · cases mem_singleton.mp hfound
        simp [Std.ReflCmp.compare_self, SortPosition.isAfter]

theorem length_sortedMatches_le :
    query.sortedMatches.length ≤ (query.shards.flatMap (·.records)).length := by
  unfold sortedMatches allMatches
  rw [(Scan.scan_perm Entry.cmp Match.entry _).length_eq]
  induction query.shards with
  | nil => exact le_rfl
  | cons content shards ih =>
    grind

end SortedQuery

/-- The cursor has consumed all matches but these. -/
structure CursorState.Tracks (query : SortedQuery) (state : CursorState) (rest : List Match) :
    Prop where
  consumed : ∃ consumed, query.sortedMatches = consumed ++ rest ∧
    (state.sortSpool = none → state.sortAfter = consumed.getLast?.map (·.entry.position))
  window : ∀ window, state.sortSpool = none → state.sortWindow = some window →
    ∃ later, rest.map Match.entry = window.entries ++ later ∧
      (window.truncated = true ↔ later ≠ [])
  spool : ∀ spool, state.sortSpool = some spool →
    spool.Readable ∧ (∀ found ∈ rest, found.Encoded) ∧ spool.rest = rest.map Match.spoolPosition
  keyed : state.sortWindow.isSome = true ∨ state.sortSpool.isSome = true → query.Keyed

def SelectedPosition.Points (found : Match) : SelectedPosition → Prop
  | .memory position shard => position = found.entry.position ∧ shard = found.shard
  | .spool position => position = found.spoolPosition ∧ found.Encoded

namespace CursorState

variable (state : CursorState)

/-- A fan-out was made for the cursor. -/
def Active : Prop :=
  state.sortWindow.isSome = true ∨ state.sortSpool.isSome = true

@[simp] theorem consumePosition_skip : state.consumePosition.skip = state.skip := by
  unfold consumePosition
  split <;> rfl

@[simp] theorem consumePosition_remaining : state.consumePosition.remaining = state.remaining := by
  unfold consumePosition
  split <;> rfl

theorem consumePosition_setSkip (skip : Nat) :
    ({ state with skip } : CursorState).consumePosition = { state.consumePosition with skip } := by
  unfold consumePosition
  dsimp only
  split <;> rfl

theorem consumePosition_active {state : CursorState} :
    state.consumePosition.Active ↔ state.Active := by
  unfold consumePosition
  split
  next hspool => simp [Active, hspool]
  next hspool hwindow => simp [Active, hspool, hwindow]
  next => exact Iff.rfl

variable {query : SortedQuery} {state next : CursorState} {rest : List Match}

theorem tracks_start (allowSortSpill : Bool) (skip : Nat) (limit batchByteLimit : Option Nat) :
    (mk none none none allowSortSpill skip limit batchByteLimit).Tracks query
      query.sortedMatches where
  consumed := ⟨[], rfl, fun _ => rfl⟩
  window _ _ hwindow := by cases hwindow
  spool _ hspool := by cases hspool
  keyed hactive := by grind

section

variable (h : state.Tracks query rest)
include h

theorem Tracks.mem_allMatches {found : Match}
    (hfound : found ∈ rest) : found ∈ query.allMatches := by
  obtain ⟨consumed, hsorted, -⟩ := h.consumed
  refine (Scan.scan_perm Entry.cmp Match.entry query.allMatches).mem_iff.mp ?_
  change found ∈ query.sortedMatches
  simp [*]

theorem Tracks.consume_window {window : SortWindow} {entry : Entry} {entries : List Entry}
    (hspool : state.sortSpool = none)
    (hwindow : state.sortWindow = some window) (hentries : window.entries = entry :: entries) :
    ∃ found rest', rest = found :: rest' ∧ entry = found.entry ∧
      state.consumePosition.Tracks query rest' := by
  obtain ⟨later, hrest, htruncated⟩ := h.window window hspool hwindow
  rw [hentries, cons_append] at hrest
  obtain ⟨found, rest', rfl, hfound, hrest⟩ := map_eq_cons_iff.mp hrest
  refine ⟨found, rest', rfl, hfound.symm, ?_⟩
  obtain ⟨consumed, hsorted, -⟩ := h.consumed
  unfold consumePosition
  rw [hspool, hwindow]
  refine ⟨⟨consumed ++ [found], ?_, ?_⟩, ?_, ?_, ?_⟩
  · simp [*]
  · simp [*]
  · simp [*]
  · simp
  · intro _
    exact h.keyed (.inl (by rw [hwindow]; rfl))

theorem Tracks.consume_spool {spool : SortSpool} {position : SpoolPosition}
    {pending : List SpoolPosition}
    (hspool : state.sortSpool = some spool) (hpending : spool.pending = position :: pending) :
    ∃ found rest', rest = found :: rest' ∧ position = found.spoolPosition ∧ found.Encoded ∧
      state.consumePosition.Tracks query rest' := by
  obtain ⟨hreadable, hencoded, hrest⟩ := h.spool spool hspool
  obtain ⟨hreadable', hrest'⟩ := hreadable.consume hpending
  rw [hrest'] at hrest
  obtain ⟨found, rest', rfl, hfound, hrest⟩ := map_eq_cons_iff.mp hrest.symm
  rw [forall_mem_cons] at hencoded
  refine ⟨found, rest', rfl, hfound.symm, hencoded.1, ?_⟩
  obtain ⟨consumed, hsorted, -⟩ := h.consumed
  unfold consumePosition
  rw [hspool]
  refine ⟨⟨consumed ++ [found], ?_, ?_⟩, ?_, ?_, ?_⟩
  · simp [*]
  · intro hnone
    cases hnone
  · simp
  · grind
  · intro _
    exact h.keyed (.inr (by rw [hspool]; rfl))

end

/-- The next position is that of the first match left; without one the source is used up. -/
def Selects (query : SortedQuery) (state : CursorState) (rest : List Match) :
    Option SelectedPosition → Prop
  | none => (state.sortSpool.isSome = true → rest = []) ∧
      (state.sortSpool = none → state.drained = true)
  | some selected => ∃ found rest', rest = found :: rest' ∧ selected.Points found ∧
      state.consumePosition.Tracks query rest'

theorem Tracks.select {retainedBytes : SpoolPosition → Nat} {selected : Option SelectedPosition}
    (h : state.Tracks query rest) (hselect : state.select retainedBytes = (selected, next)) :
    next.Tracks query rest ∧
      (∃ spool, next = { state with sortSpool := spool } ∧
        spool.isSome = state.sortSpool.isSome) ∧
      next.Selects query rest selected := by
  unfold CursorState.select at hselect
  split at hselect
  next spool hspool =>
    obtain ⟨hreadable, hencoded, hrest⟩ := h.spool spool hspool
    -- the spool gives the same positions after it was advanced, and some when there are any
    obtain ⟨spool', hspool', hreadable', hrest', hnone⟩ : ∃ spool', spool' =
        (if spool.pending = [] then spool.advance retainedBytes else spool) ∧
        spool'.Readable ∧ spool'.rest = spool.rest ∧ (spool'.pending = [] → spool.rest = []) := by
      refine ⟨_, rfl, ?_⟩
      split
      next => exact hreadable.advance retainedBytes
      · simp [*]
    dsimp only at hselect
    rw [← hspool'] at hselect
    cases hselect
    have htracks : ({ state with sortSpool := some spool' } : CursorState).Tracks query rest := by
      refine ⟨?_, nofun, ?_, fun _ => h.keyed (.inr ?_)⟩
      · grind [consumed]
      · grind
      · rw [hspool]
        rfl
    refine ⟨htracks, ⟨some spool', rfl, by rw [hspool]; rfl⟩, ?_⟩
    cases hpending : spool'.pending with
    | nil =>
      refine ⟨fun _ => ?_, nofun⟩
      rw [hrest] at hnone
      exact map_eq_nil_iff.mp (hnone hpending)
    | cons position pending =>
      obtain ⟨found, rest', heq, hposition, hfound, hconsumed⟩ :=
        htracks.consume_spool rfl hpending
      exact ⟨found, rest', heq, ⟨hposition, hfound⟩, hconsumed⟩
  next hspool =>
    cases hselect
    refine ⟨h, ⟨none, by rw [← hspool], by rw [hspool]⟩, ?_⟩
    cases hwindow : state.sortWindow with
    | none => exact ⟨fun hsome => (by grind),
        fun _ => by simp [drained, hspool, hwindow]⟩
    | some window =>
      cases hentries : window.entries with
      | nil =>
        simp only [bind_some, hentries, head?_nil, map_none]
        exact ⟨fun hsome => (by grind),
          fun _ => by simp [*, drained]⟩
      | cons entry entries =>
        simp only [bind_some, hentries, head?_cons, map_some]
        obtain ⟨found, rest', heq, rfl, hconsumed⟩ :=
          h.consume_window hspool hwindow hentries
        exact ⟨found, rest', heq, ⟨rfl, rfl⟩, hconsumed⟩

end CursorState

namespace SortedQuery

variable {query : SortedQuery}

theorem find?_shard {sorter : DocumentSorter} {shards : List (ShardContent sorter)}
    (hnodup : (shards.map (·.shard)).Nodup) {content : ShardContent sorter}
    (h : content ∈ shards) : shards.find? (·.shard = content.shard) = some content := by
  induction shards with
  | nil => cases h
  | cons first shards ih =>
    rw [map_cons, nodup_cons] at hnodup
    rcases mem_cons.mp h with rfl | h
    · simp
    · have hne : first.shard ≠ content.shard :=
        fun heq => hnodup.1 (heq ▸ mem_map_of_mem h)
      simp [*]

theorem find?_record {records : List DocumentStorageRecord} {record : DocumentStorageRecord}
    (hnatural : records.Pairwise fun left right => left.naturalOrder < right.naturalOrder)
    (hpositive : ∀ record ∈ records, 0 < record.naturalOrder) (h : record ∈ records) :
    records.find? (fun other => (if 1 < record.naturalOrder then some (record.naturalOrder - 1)
      else none).all (· < other.naturalOrder)) = some record := by
  induction records with
  | nil => cases h
  | cons first records ih =>
    rw [pairwise_cons] at hnatural
    rw [forall_mem_cons] at hpositive
    rcases mem_cons.mp h with rfl | h
    · refine find?_cons_of_pos ?_
      grind
    · grind

theorem scanDocumentShard_eq {found : Match} (h : found ∈ query.allMatches) :
    query.scanDocumentShard found.shard (if 1 < found.record.naturalOrder then
      some (found.record.naturalOrder - 1) else none) = some found.record := by
  obtain ⟨content, hcontent, hshard, hrecord, -⟩ := mem_allMatches.mp h
  rw [scanDocumentShard, hshard, find?_shard query.shards_nodup hcontent]
  exact find?_record content.natural content.positive hrecord

theorem selectedKey_eq {found : Match} (h : found ∈ query.allMatches) :
    query.selectedKey found.record.document = .ok (some found.key) := by
  obtain ⟨content, -, -, -, hselects, hkey⟩ := mem_allMatches.mp h
  simp [*, selectedKey]

theorem fetch_eq {found : Match} {selected : SelectedPosition} (h : found ∈ query.allMatches)
    (hpoints : selected.Points found) : query.fetch selected = .ok (some found.record) := by
  have hselected : query.stillSelected found.record.document selected = .ok true := by
    cases selected with
    | memory position shard =>
      obtain ⟨rfl, -⟩ := hpoints
      simp [*, Std.ReflCmp.compare_self, stillSelected, selectedKey_eq, Match.entry]
    | spool position =>
      obtain ⟨rfl, hencoded⟩ := hpoints
      have hencoded : found.key.orderedBytes = .ok found.spoolPosition.key := hencoded
      simp [stillSelected, selectedKey_eq h, hencoded]
  have hlocation : selected.location = (found.record.naturalOrder, found.shard) := by
    cases selected with
    | memory position shard =>
      obtain ⟨rfl, rfl⟩ := hpoints
      rfl
    | spool position =>
      obtain ⟨rfl, -⟩ := hpoints
      rfl
  have hfilter : (some found.record).filter
      (fun record => decide (record.naturalOrder = found.record.naturalOrder)) =
        some found.record := by
    simp [Option.filter]
  simp [*, fetch, scanDocumentShard_eq]

end SortedQuery

def slice (found : List Match) (skip : Nat) : Option Nat → List Match
  | none => found.drop skip
  | some limit => (found.drop skip).take limit

theorem slice_nil (skip : Nat) (limit : Option Nat) : slice [] skip limit = [] := by
  cases limit <;> simp [slice]

theorem slice_skip (found : Match) (rest : List Match) (skip : Nat) (limit : Option Nat) :
    slice (found :: rest) (skip + 1) limit = slice rest skip limit := by
  cases limit <;> rfl

theorem slice_take (found : Match) (rest : List Match) {limit : Option Nat} (h : limit ≠ some 0) :
    slice (found :: rest) 0 limit = found :: slice rest 0 (limit.map (· - 1)) := by
  cases limit with
  | none => rfl
  | some limit =>
    cases limit with
    | zero => exact absurd rfl h
    | succ limit => rfl

def SortedQuery.Returns (query : SortedQuery) : List Match → List BsonDocument → Prop :=
  List.Forall₂ fun found document =>
    ∃ encodedLen, query.output found.record = .ok (document, encodedLen)

/-- The page has returned the beginning of a slice; the cursor is to return the rest. -/
structure PageState.Serves (query : SortedQuery) (expected : List Match) (state : PageState)
    (rest : List Match) : Prop where
  tracks : state.cursor.Tracks query rest
  returned : ∃ returned,
    expected = returned ++ slice rest state.cursor.skip state.cursor.remaining ∧
      query.Returns returned state.documents
  skipped : state.documents ≠ [] → state.cursor.skip = 0

structure PageState.Going (query : SortedQuery) (expected : List Match) (state : PageState)
    (rest : List Match) : Prop extends state.Serves query expected rest where
  remaining : state.cursor.remaining ≠ some 0
  active : state.selecting = true → state.cursor.Active

/-- The window was used up and there is more after it. -/
def CursorState.stalled (state : CursorState) : Bool :=
  state.drained && state.sortWindow.any (·.truncated)

/-- Bounds the steps that a page still takes. -/
def PageState.measure (state : PageState) (rest : List Match) : Nat :=
  3 * rest.length + if state.selecting then (if state.cursor.stalled then 2 else 0) else 1

/-- A step goes on with less to do, or ends the page and knows whether there is more. -/
def PageStep.Advances (query : SortedQuery) (expected : List Match) (bound : Nat) : PageStep → Prop
  | .next state => ∃ rest, state.Going query expected rest ∧ state.measure rest < bound
  | .done state more => ∃ rest, state.Serves query expected rest ∧ state.cursor.Active ∧
      (more = true ↔ slice rest state.cursor.skip state.cursor.remaining ≠ []) ∧
      (more = true → state.documents ≠ [])

namespace SortedQuery

variable {query : SortedQuery} {request : PageRequest} {expected rest : List Match}
  {cursor : CursorState} {requested : Nat} {plan : FanoutPlan} {found : Match}
    {page : Option (EngineResult (CursorState × List BsonDocument × Bool))}
    {next : CursorState → Option (EngineResult (List (List BsonDocument) × Bool))}
    {result : List (List BsonDocument) × Bool}

section

variable (htracks : cursor.Tracks query rest)
include htracks

/-- A new window is the beginning of what is left, and is not empty when it is cut. -/
theorem refillWindow_spec {next : CursorState} (hspool : cursor.sortSpool = none)
    (h : query.refillWindow plan cursor = .ok next) :
    ∃ window, next = { cursor with sortWindow := some window } ∧ next.Tracks query rest ∧
      (window.truncated = true → window.entries ≠ []) := by
  obtain ⟨window, hrun, h⟩ := bind_eq_ok.mp h
  cases h
  obtain ⟨consumed, hsorted, hafter⟩ := htracks.consumed
  obtain ⟨hkeyed, dropped, hholds, hscan⟩ := run_visitWindow hrun
  rw [hafter hspool, scan_matchesAfter hsorted] at hscan
  refine ⟨_, rfl, ⟨⟨consumed, hsorted, hafter⟩, ?_, ?_, fun _ => hkeyed⟩, ?_⟩
  · intro window' _ hwindow'
    cases hwindow'
    refine ⟨Scan.scan Entry.cmp id dropped, hscan, ?_⟩
    have hempty : Scan.scan Entry.cmp id dropped = [] ↔ dropped = [] := by
      have hlength := (Scan.scan_perm Entry.cmp id dropped).length_eq
      rw [← length_eq_zero_iff, hlength, length_eq_zero_iff]
    rw [Ne, hempty]
    constructor
    · exact fun htruncated => (hholds.full htruncated).2.2
    · intro hdropped
      cases htruncated : window.truncated with
      | true => rfl
      | false => exact absurd (hholds.complete htruncated) hdropped
  · simp [*]
  · intro htruncated hnone
    obtain ⟨hlength, hpos, -⟩ := hholds.full htruncated
    grind [length_nil]

theorem buildDocumentSortSpool_tracks {spool : SortSpool} (hspool : cursor.sortSpool = none)
    (h : query.buildDocumentSortSpool plan cursor.sortAfter = .ok spool) :
    ({ cursor with sortWindow := none, sortSpool := some spool } : CursorState).Tracks
      query rest := by
  obtain ⟨consumed, hsorted, hafter⟩ := htracks.consumed
  obtain ⟨hkeyed, hreadable, hencoded, hrest⟩ := buildDocumentSortSpool_spec h
  have hscan := Scan.scan_perm Entry.cmp Match.entry (query.matchesAfter cursor.sortAfter)
  rw [hafter hspool, scan_matchesAfter hsorted] at hrest hscan
  rw [hafter hspool] at hencoded
  refine ⟨⟨consumed, hsorted, nofun⟩, nofun, ?_,
    fun _ => hkeyed⟩
  grind

theorem rest_eq_nil (hdrained : cursor.drained = true) {window : SortWindow}
    (hwindow : cursor.sortWindow = some window) (hwhole : window.truncated = false) :
    rest = [] := by
  simp only [drained, hwindow, all_some, Bool.and_eq_true,
    isNone_iff_eq_none, List.isEmpty_iff] at hdrained
  obtain ⟨later, hrest, htruncated⟩ := htracks.window window hdrained.1 hwindow
  have hlater : later = [] := by
    by_contra hne
    rw [htruncated.mpr hne] at hwhole
    cases hwhole
  rw [hdrained.2, hlater, List.nil_append] at hrest
  exact map_eq_nil_iff.mp hrest

end

variable {state : PageState} {step : PageStep}

theorem refillStep_spec (h : state.Going query expected rest) (hphase : state.selecting = false)
    (hstep : query.refillStep request state = .ok step) :
    step.Advances query expected (state.measure rest) := by
  have hbound : state.measure rest = 3 * rest.length + 1 := by simp [PageState.measure, hphase]
  rw [hbound]
  obtain ⟨returned, hexpected, hreturned⟩ := h.returned
  unfold refillStep at hstep
  dsimp only at hstep
  split at hstep
  next hleft =>
    cases hstep
    refine ⟨rest, ⟨⟨h.tracks, ⟨returned, hexpected, hreturned⟩, h.skipped⟩, h.remaining, ?_⟩, ?_⟩
    · intro _
      by_contra hnone
      simp only [CursorState.Active, not_or, Bool.not_eq_true, isSome_eq_false_iff,
        isNone_iff_eq_none] at hnone
      exact hleft (by simp [drained, hnone.1, hnone.2])
    · simp [PageState.measure, stalled, hleft]
  next hdrained =>
    have hdrained : state.cursor.drained = true := not_not.mp hdrained
    have hspool : state.cursor.sortSpool = none := by
      simp only [drained, Bool.and_eq_true, isNone_iff_eq_none] at hdrained
      exact hdrained.1
    split at hstep
    next hwhole =>
      cases hstep
      cases hwindow : state.cursor.sortWindow with
      | none => simp [hwindow] at hwhole
      | some window =>
        have hnone := rest_eq_nil h.tracks hdrained hwindow (by simpa [hwindow] using hwhole)
        refine ⟨rest, h.toServes, .inl (by rw [hwindow]; rfl), ?_, nofun⟩
        rw [hnone, slice_nil]
        simp
    next hcut =>
      split at hstep
      next hspill =>
        split at hstep
        next => cases hstep
        next =>
          obtain ⟨spool, hbuild, hstep⟩ := bind_eq_ok.mp hstep
          cases hstep
          have htracks := buildDocumentSortSpool_tracks h.tracks hspool hbuild
          refine ⟨rest, ⟨⟨htracks, ⟨returned, hexpected, hreturned⟩, h.skipped⟩, h.remaining,
            fun _ => .inr rfl⟩, ?_⟩
          simp [PageState.measure, stalled, drained]
      next =>
        obtain ⟨cursor, hrefill, hstep⟩ := bind_eq_ok.mp hstep
        cases hstep
        obtain ⟨window, rfl, htracks, hcut⟩ := refillWindow_spec h.tracks hspool hrefill
        refine ⟨rest, ⟨⟨htracks, ⟨returned, hexpected, hreturned⟩, h.skipped⟩, h.remaining,
          fun _ => .inl rfl⟩, ?_⟩
        have hgoing : ({ state.cursor with sortWindow := some window } : CursorState).stalled =
            false := by
          rw [Bool.eq_false_iff]
          intro hstalled
          simp only [stalled, drained, all_some, any_some,
            Bool.and_eq_true, List.isEmpty_iff] at hstalled
          exact hcut hstalled.2 hstalled.1.2
        simp [PageState.measure, hgoing]

theorem done_before (h : state.Going query expected (found :: rest))
    (hskip : state.cursor.skip = 0) (hactive : state.cursor.Active)
    (hdocuments : state.documents ≠ []) :
    (PageStep.done state true).Advances query expected (state.measure (found :: rest)) := by
  refine ⟨found :: rest, h.toServes, hactive, ?_, fun _ => hdocuments⟩
  rw [hskip, slice_take found rest h.remaining]
  simp

theorem emit_spec (h : state.Going query expected (found :: rest))
    (hskip : state.cursor.skip = 0) (hselecting : state.selecting = true)
    (hconsumed : state.cursor.consumePosition.Tracks query rest)
    (hstep : query.emit request state found.record = .ok step) :
    step.Advances query expected (state.measure (found :: rest)) := by
  have hactive := h.active hselecting
  obtain ⟨⟨document, encodedLen⟩, houtput, hstep⟩ := bind_eq_ok.mp hstep
  dsimp only at hstep
  split at hstep
  next =>
    split at hstep
    next => cases hstep
    next hdocuments =>
      cases hstep
      exact done_before h hskip hactive hdocuments
  next =>
    split at hstep
    next => cases hstep
    next =>
      split at hstep
      next => cases hstep
      next =>
        obtain ⟨returned, hexpected, hreturned⟩ := h.returned
        rw [hskip, slice_take found rest h.remaining] at hexpected
        -- the document and its match move to the page together
        have hserves : (PageState.mk
            { state.cursor.consumePosition with
              remaining := state.cursor.consumePosition.remaining.map (· - 1) }
            (state.documents ++ [document])
            (state.resultBytes + documentResultRowBytes + documentResultValueBytes + encodedLen)
            state.fanouts state.selecting).Serves query expected rest := by
          refine ⟨⟨hconsumed.consumed, hconsumed.window, hconsumed.spool, hconsumed.keyed⟩,
            ⟨returned ++ [found], ?_, ?_⟩, ?_⟩
          · simp [*]
          · exact rel_append hreturned (.cons ⟨encodedLen, houtput⟩ .nil)
          · simp [*]
        have hconsumedActive : state.cursor.consumePosition.Active :=
          consumePosition_active.mpr hactive
        split at hstep
        next hlast =>
          cases hstep
          refine ⟨rest, hserves, hconsumedActive, ?_, nofun⟩
          grind [slice]
        next hgoing =>
          cases hstep
          refine ⟨rest, ⟨hserves, hgoing, fun _ => hconsumedActive⟩, ?_⟩
          simp only [PageState.measure, hselecting, if_true, length_cons]
          split <;> omega

section

variable (h : state.Going query expected rest)
include h

theorem serveSelected_spec {selected : Option SelectedPosition} (hrequested : 0 < requested)
    (hselecting : state.selecting = true) (hselected : state.cursor.Selects query rest selected)
    (hstep : query.serveSelected request requested state selected = .ok step) :
    step.Advances query expected (state.measure rest) := by
  have hactive := h.active hselecting
  cases selected with
  | none =>
    obtain ⟨hended, hdrained⟩ := hselected
    cases hspool : state.cursor.sortSpool with
    | some spool =>
      -- the spool is at its end
      simp only [serveSelected, hspool, isSome_some, Bool.true_or, if_true] at hstep
      cases hstep
      refine ⟨rest, h.toServes, hactive, ?_, nofun⟩
      simp [*, slice_nil]
    | none =>
      have hdrained := hdrained hspool
      obtain ⟨window, hwindow⟩ : ∃ window, state.cursor.sortWindow = some window := by
        refine isSome_iff_exists.mp (hactive.resolve_right ?_)
        simp [*]
      simp only [serveSelected, hspool, hwindow, isSome_none, Bool.false_or,
        all_some, Bool.not_eq_true'] at hstep
      split at hstep
      next hwhole =>
        cases hstep
        refine ⟨rest, h.toServes, hactive, ?_, nofun⟩
        rw [rest_eq_nil h.tracks hdrained hwindow hwhole, slice_nil]
        simp
      next hcut =>
        have htruncated : window.truncated = true := by simpa using hcut
        split at hstep
        next hdocuments =>
          cases hstep
          refine ⟨rest, h.toServes, hactive, ?_, fun _ => hdocuments⟩
          -- more follows the window, and nothing of it is skipped
          obtain ⟨later, hrest, hlater⟩ := h.tracks.window window hspool hwindow
          cases rest with
          | nil =>
            have hnone := (append_eq_nil_iff.mp hrest.symm).2
            exact absurd hnone (hlater.mp htruncated)
          | cons found rest =>
            rw [h.skipped hdocuments, slice_take found rest h.remaining]
            simp
        next =>
          cases hstep
          refine ⟨rest, ⟨⟨h.tracks, h.returned, h.skipped⟩, h.remaining,
            nofun⟩, ?_⟩
          simp [*, PageState.measure, stalled]
  | some selected =>
    obtain ⟨found, rest, rfl, hpoints, hconsumed⟩ := hselected
    simp only [serveSelected] at hstep
    split at hstep
    next hskip =>
      cases hstep
      obtain ⟨skip, hskip⟩ := Nat.exists_eq_succ_of_ne_zero (Nat.pos_iff_ne_zero.mp hskip)
      obtain ⟨returned, hexpected, hreturned⟩ := h.returned
      rw [hskip, slice_skip] at hexpected
      rw [consumePosition_setSkip, hskip, Nat.succ_sub_one]
      refine ⟨rest, ⟨⟨⟨hconsumed.consumed, hconsumed.window, hconsumed.spool, hconsumed.keyed⟩,
        ⟨returned, ?_, hreturned⟩, ?_⟩, ?_, fun _ => ?_⟩, ?_⟩
      · rwa [consumePosition_remaining]
      · intro hdocuments
        rw [h.skipped hdocuments] at hskip
        cases hskip
      · rw [consumePosition_remaining]
        exact h.remaining
      · exact consumePosition_active.mpr hactive
      · simp only [PageState.measure, hselecting, if_true, length_cons]
        split <;> omega
    next hskip =>
      have hskip : state.cursor.skip = 0 := by omega
      split at hstep
      next hfull =>
        cases hstep
        exact done_before h hskip hactive (length_pos_iff.mp (by omega))
      next =>
        rw [fetch_eq (h.tracks.mem_allMatches mem_cons_self) hpoints] at hstep
        exact emit_spec h hskip hselecting hconsumed hstep

theorem selectStep_spec (hrequested : 0 < requested) (hselecting : state.selecting = true)
    (hstep : query.selectStep request requested state = .ok step) :
    step.Advances query expected (state.measure rest) := by
  unfold selectStep at hstep
  rcases hselect : state.cursor.select query.readSpoolBytes with ⟨selected, cursor⟩
  rw [hselect] at hstep
  obtain ⟨htracks, ⟨spool, rfl, hsame⟩, hselected⟩ := h.tracks.select hselect
  have hactive : ({ state.cursor with sortSpool := spool } : CursorState).Active := by
    have hactive := h.active hselecting
    unfold CursorState.Active at hactive ⊢
    rwa [← hsame] at hactive
  have hmeasure : ({ state with cursor := { state.cursor with sortSpool := spool } } :
      PageState).measure rest = state.measure rest := by
    have hnone : spool.isNone = state.cursor.sortSpool.isNone := by
      rw [← not_isSome, ← not_isSome, hsame]
    simp [PageState.measure, stalled, drained, hnone]
  rw [← hmeasure]
  exact serveSelected_spec ⟨⟨htracks, h.returned, h.skipped⟩, h.remaining, fun _ => hactive⟩
    hrequested hselecting hselected hstep

theorem pageStep_spec (hrequested : 0 < requested)
    (hstep : query.pageStep request requested state = .ok step) :
    step.Advances query expected (state.measure rest) := by
  unfold pageStep at hstep
  split at hstep
  next hselecting => exact selectStep_spec h hrequested hselecting hstep
  next hphase => exact refillStep_spec h (by simpa using hphase) hstep

end

/-- A page returned the beginning of a slice and left the rest of it to its cursor. -/
def Delivers (query : SortedQuery) (expected : List Match) (cursor : CursorState)
    (documents : List BsonDocument) (left : List Match) : Prop :=
  ∃ rest returned, cursor.Tracks query rest ∧ left = slice rest cursor.skip cursor.remaining ∧
    expected = returned ++ left ∧ query.Returns returned documents

/-- The computation ends, and what it returns without an error has the property. -/
def Answers {α : Type} (P : α → Prop) (computation : Option (EngineResult α)) : Prop :=
  ∃ answer, computation = some answer ∧ ∀ value, answer = .ok value → P value

namespace Answers

variable {α : Type} {P Q : α → Prop} {computation : Option (EngineResult α)}

theorem error (error : EngineError) : Answers P (some (.error error)) := ⟨_, rfl, nofun⟩

theorem ok {value : α} (h : P value) : Answers P (some (.ok value)) := by
  refine ⟨_, rfl, ?_⟩
  rintro _ ⟨⟩
  exact h

theorem imp (h : Answers P computation) (himp : ∀ value, P value → Q value) :
    Answers Q computation := by
  obtain ⟨answer, hanswer, hvalue⟩ := h
  exact ⟨answer, hanswer, fun value heq => himp value (hvalue value heq)⟩

theorem of_eq_ok {value : α} (h : Answers P computation) (heq : computation = some (.ok value)) :
    P value := by
  obtain ⟨answer, hanswer, hvalue⟩ := h
  grind

end Answers

/-- Enough steps end a page. -/
theorem pageLoop_spec {fuel : Nat} (hrequested : 0 < requested)
    (h : state.Going query expected rest) (hfuel : state.measure rest < fuel) :
    Answers (fun (cursor, documents, more) =>
      ∃ left, query.Delivers expected cursor documents left ∧ cursor.Active ∧
        (more = true ↔ left ≠ []) ∧ (more = true → documents ≠ [])) (query.pageLoop request requested fuel state) := by
  induction fuel generalizing state rest with
  | zero => exact absurd hfuel (Nat.not_lt_zero _)
  | succ fuel ih =>
    unfold pageLoop
    cases hstep : query.pageStep request requested state with
    | error error => exact .error error
    | ok step =>
      have hadvances := pageStep_spec h hrequested hstep
      cases step with
      | next state =>
        obtain ⟨rest, hgoing, hless⟩ := hadvances
        exact ih hgoing (by omega)
      | done state more =>
        obtain ⟨rest, hserves, hactive, hmore⟩ := hadvances
        obtain ⟨returned, hexpected, hreturned⟩ := hserves.returned
        exact .ok ⟨_, ⟨rest, returned, hserves.tracks, rfl, hexpected, hreturned⟩, hactive, hmore⟩

/-- Every page of a cursor ends, and returns the beginning of what is left of the slice. -/
theorem readDocumentSourcePage_spec (h : cursor.Tracks query rest) :
    Answers (fun (next, documents, more) =>
      ∃ left, query.Delivers (slice rest cursor.skip cursor.remaining) next documents left ∧
        (more = false → left = []) ∧
        (0 < request.batchSize →
          (more = true → left ≠ [] ∧ documents ≠ []) ∧
            (cursor.remaining ≠ some 0 → query.Keyed)) ∧
        (request.batchSize = 0 → next = cursor ∧ (more = true ∨ cursor.remaining = some 0)))
      (query.readDocumentSourcePage request cursor) := by
  have hnothing : query.Delivers (slice rest cursor.skip cursor.remaining) cursor []
      (slice rest cursor.skip cursor.remaining) := ⟨rest, [], h, rfl, rfl, .nil⟩
  unfold readDocumentSourcePage
  split
  next => exact .error _
  next =>
    split
    next => exact .error _
    next =>
      split
      next hzero =>
        refine .ok ⟨_, hnothing, fun _ => ?_, fun _ => ⟨nofun, ?_⟩,
          fun _ => ⟨rfl, .inr hzero⟩⟩
        · rw [hzero]
          simp [slice]
        · exact fun hne => absurd hzero hne
      next hlimit =>
        split
        next hbatch =>
          exact .ok ⟨_, hnothing, nofun,
            fun hpos => absurd hbatch (Nat.pos_iff_ne_zero.mp hpos), fun _ => ⟨rfl, .inl rfl⟩⟩
        next hbatch =>
          have hgoing : (PageState.mk cursor [] request.baseBytes 0 false).Going query
              (slice rest cursor.skip cursor.remaining) rest :=
            ⟨⟨h, ⟨[], rfl, .nil⟩, fun hnot => absurd rfl hnot⟩, hlimit, nofun⟩
          have hfuel : (PageState.mk cursor [] request.baseBytes 0 false).measure rest <
              query.pageFuel := by
            have hle : rest.length ≤ (query.shards.flatMap (·.records)).length := by
              obtain ⟨consumed, hsorted, -⟩ := h.consumed
              have hlength := @length_sortedMatches_le query
              rw [hsorted, length_append] at hlength
              omega
            simp only [PageState.measure, pageFuel, Bool.false_eq_true, if_false]
            omega
          have hrequested : 0 < cursor.remaining.elim request.batchSize
              (min · request.batchSize) := by
            cases hremaining : cursor.remaining <;> grind
          refine (pageLoop_spec hrequested hgoing hfuel).imp ?_
          rintro ⟨next, documents, more⟩ ⟨left, hdelivers, hactive, hmore, hpage⟩
          refine ⟨left, hdelivers, ?_, fun _ => ⟨fun htrue => ⟨hmore.mp htrue, hpage htrue⟩,
            fun _ => ?_⟩, fun h => absurd h hbatch⟩
          · grind
          · obtain ⟨rest', -, htracks, -⟩ := hdelivers
            exact htracks.keyed hactive

/-- The pages that announced more documents: all but the last, which the flag tells of. -/
def announced (pages : List (List BsonDocument)) (more : Bool) : List (List BsonDocument) :=
  if more then pages else pages.dropLast

/-- A page was read that tells whether something is left, and is not empty then, at least when
the condition holds. -/
def Paged (query : SortedQuery) (expected : List Match) (positive : Prop) :
    CursorState × List BsonDocument × Bool → Prop
  | (cursor, documents, more) => ∃ left, query.Delivers expected cursor documents left ∧
      (more = false → left = []) ∧ (positive → more = true → left ≠ [] ∧ documents ≠ [])

/-- What a sequence of pages returned of a slice, and what it left. -/
def Pages (query : SortedQuery) (expected : List Match) (pages : List (List BsonDocument))
    (left : List Match) : Prop :=
  ∃ returned, expected = returned ++ left ∧ query.Returns returned pages.flatten

theorem mem_announced {documents page : List BsonDocument} {pages : List (List BsonDocument)}
    {more : Bool} (h : page ∈ announced (documents :: pages) more) :
    page = documents ∨ page ∈ announced pages more := by
  unfold announced at h ⊢
  cases more with
  | true => simpa using h
  | false =>
    cases pages with
    | nil => cases h
    | cons next pages => simpa using h

/-- What the pages after a page say of the slice that it left. -/
def Follow (query : SortedQuery) (left : List Match) (later : Prop) :
    List (List BsonDocument) × Bool → Prop
  | (pages, more) => ∃ last, query.Pages left pages last ∧ (more = false → last = []) ∧
      (more = true → last ≠ [] ∨ ¬ later ∧ last = left) ∧ ∀ page ∈ announced pages more, page ≠ []

/-- A page and the pages after it: the last answer tells whether something is left. -/
theorem thenPages_spec {positive later : Prop}
    (hpage : Answers (query.Paged expected positive) page)
    (hnext : ∀ cursor rest, cursor.Tracks query rest →
      Answers (query.Follow (slice rest cursor.skip cursor.remaining) later) (next cursor)) :
    Answers (fun (pages, more) => ∃ left, query.Pages expected pages left ∧
      (more = false → left = []) ∧ (positive ∨ later → more = true → left ≠ []) ∧
      (∀ page ∈ (announced pages more).tail, page ≠ []) ∧
      (positive → ∀ page ∈ announced pages more, page ≠ [])) (thenPages page next) := by
  obtain ⟨answer, rfl, hpage⟩ := hpage
  cases answer with
  | error error => exact .error error
  | ok result =>
    obtain ⟨cursor, documents, more⟩ := result
    obtain ⟨left, ⟨rest, returned, htracks, hleft, hexpected, hreturned⟩, hend, hmore⟩ :=
      hpage _ rfl
    cases more with
    | false =>
      refine .ok ⟨left, ⟨returned, hexpected, ?_⟩, hend, nofun, nofun, fun _ => nofun⟩
      simpa using hreturned
    | true =>
      obtain ⟨answer, hanswer, hrest⟩ := hnext cursor rest htracks
      rw [← hleft] at hrest
      simp only [thenPages, hanswer, map_some]
      cases answer with
      | error error => exact .error error
      | ok result =>
        obtain ⟨others, more'⟩ := result
        obtain ⟨left', ⟨returned', hleft', hreturned'⟩, hend', hmore', hfilled⟩ := hrest _ rfl
        refine .ok ⟨left', ⟨returned ++ returned', ?_, ?_⟩, hend', ?_, ?_, ?_⟩
        · rw [hexpected, hleft', append_assoc]
        · rw [flatten_cons]
          exact rel_append hreturned hreturned'
        · intro hpositive htrue
          rcases hmore' htrue with hne | ⟨hlast, rfl⟩
          · exact hne
          · exact (hmore (hpositive.resolve_right hlast) rfl).1
        · cases more' <;> cases others <;> simp_all [announced]
        · intro hpositive page hannounced
          rcases mem_announced hannounced with rfl | hlater
          · exact (hmore hpositive rfl).2
          · exact hfilled page hlater

theorem continuePages_spec (requests : List PageRequest) (h : cursor.Tracks query rest) :
    Answers (query.Follow (slice rest cursor.skip cursor.remaining) (requests ≠ []))
      (query.continuePages requests cursor) := by
  induction requests generalizing cursor rest with
  | nil => exact .ok ⟨_, ⟨[], rfl, .nil⟩, nofun, fun _ => .inr ⟨by simp, rfl⟩, nofun⟩
  | cons request requests ih =>
    have hpage : Answers (query.Paged (slice rest cursor.skip cursor.remaining) True)
        (query.continueCursor request cursor) := by
      unfold continueCursor
      split
      next => exact .error _
      next hbatch =>
        refine (@readDocumentSourcePage_spec query request rest
          { cursor with
            batchByteLimit := request.batchByteLimit.elim cursor.batchByteLimit fun bytes =>
              some (cursor.batchByteLimit.elim bytes (min · bytes)) }
          ⟨h.consumed, h.window, h.spool, h.keyed⟩).imp ?_
        rintro ⟨next, documents, more⟩ ⟨left, hdelivers, hend, hmore, -⟩
        exact ⟨left, hdelivers, hend, fun _ => (hmore (Nat.pos_of_ne_zero hbatch)).1⟩
    refine (thenPages_spec hpage fun cursor rest => ih).imp ?_
    rintro ⟨pages, more⟩ ⟨left, hpages, hend, hmore, -, hfilled⟩
    exact ⟨left, hpages, hend, fun htrue => .inl (hmore (.inl trivial) htrue), hfilled trivial⟩

theorem thenPages_eq_ok (h : thenPages page next = some (.ok result)) :
    ∃ cursor documents more, page = some (.ok (cursor, documents, more)) ∧
      (more = true → ∃ later, next cursor = some (.ok later)) := by
  unfold thenPages at h
  split at h
  next => cases h
  next => cases h
  next cursor documents => exact ⟨cursor, documents, false, rfl, nofun⟩
  next cursor documents =>
    refine ⟨cursor, documents, true, rfl, fun _ => ?_⟩
    obtain ⟨answer, hanswer, h⟩ := map_eq_some_iff.mp h
    cases answer with
    | error error => cases h
    | ok later => exact ⟨later, hanswer⟩

theorem findPages_keyed {allowSortSpill : Bool} {skip : Nat} {limit : Option Nat}
    {first : PageRequest} {requests : List PageRequest}
    (h : query.findPages allowSortSpill skip limit first requests = some (.ok result))
    (hpositive : 0 < first.batchSize ∨ requests ≠ []) (hlimit : limit ≠ some 0) : query.Keyed := by
  have htracks := @tracks_start query allowSortSpill skip limit
  obtain ⟨cursor, documents, more, hpage, hlater⟩ := thenPages_eq_ok h
  obtain ⟨left, -, -, hkeyed, hidle⟩ :=
    (readDocumentSourcePage_spec (htracks first.batchByteLimit)).of_eq_ok hpage
  rcases Nat.eq_zero_or_pos first.batchSize with hzero | hpos
  · -- the first page was empty, and the next one starts from the same cursor
    obtain ⟨rfl, hmore⟩ := hidle hzero
    obtain ⟨later, hlater⟩ := hlater (hmore.resolve_right hlimit)
    obtain ⟨request, others, rfl⟩ :=
      exists_cons_of_ne_nil (hpositive.resolve_left (by omega))
    obtain ⟨next, documents, more, hpage, -⟩ := thenPages_eq_ok hlater
    unfold continueCursor at hpage
    split at hpage
    next => cases hpage
    next hbatch =>
      obtain ⟨left, -, -, hkeyed, -⟩ := (readDocumentSourcePage_spec (htracks _)).of_eq_ok hpage
      exact (hkeyed (Nat.pos_of_ne_zero hbatch)).2 hlimit
  · exact (hkeyed hpos).2 hlimit

end SortedQuery

/-- The pages of a sorted cursor are the skip and limit slice of the matching documents by
sort key and natural order, whatever the limits, the sizes of the windows, the shards that
read an ordered index, the order in which they report and the moment at which the cursor
turns to a spool. -/
theorem sorted_pages_slice (query : SortedQuery) (allowSortSpill : Bool) (skip : Nat)
    (limit : Option Nat) (first : PageRequest) (requests : List PageRequest) :
    (∃ answer, query.findPages allowSortSpill skip limit first requests = some answer ∧
      ∀ pages more, answer = .ok (pages, more) →
        ∃ returned rest, slice query.sortedMatches skip limit = returned ++ rest ∧
          query.Returns returned pages.flatten ∧ (more = false → rest = []) ∧
          (0 < first.batchSize ∨ requests ≠ [] →
            (more = true → rest ≠ []) ∧ (limit ≠ some 0 → query.Keyed)) ∧
          (∀ page ∈ (SortedQuery.announced pages more).tail, page ≠ []) ∧
          (0 < first.batchSize → ∀ page ∈ SortedQuery.announced pages more, page ≠ [])) ∧
    ∀ (capacity byteLimit : Nat) (entries : List Entry) (window : Window),
      entries.foldlM (Window.consider query.entryBytes) (Window.new capacity byteLimit) =
        .ok window →
      ∃ dropped, (window.keys ++ dropped).Perm entries ∧
        Lowest Entry.cmp window.keys dropped ∧ (window.truncated = false → dropped = []) := by
  constructor
  · have hpage : SortedQuery.Answers
        (query.Paged (slice query.sortedMatches skip limit) (0 < first.batchSize))
        (query.readDocumentSourcePage first
          ⟨none, none, none, allowSortSpill, skip, limit, first.batchByteLimit⟩) := by
      refine (SortedQuery.readDocumentSourcePage_spec
        (tracks_start allowSortSpill skip limit first.batchByteLimit)).imp ?_
      rintro ⟨next, documents, more⟩ ⟨left, hdelivers, hend, hmore, -⟩
      exact ⟨left, hdelivers, hend, fun hpos => (hmore hpos).1⟩
    obtain ⟨answer, hanswer, hspec⟩ := SortedQuery.thenPages_spec hpage
      fun cursor rest htracks => SortedQuery.continuePages_spec requests htracks
    refine ⟨answer, hanswer, ?_⟩
    intro pages more heq
    obtain ⟨left, ⟨returned, hslice, hreturned⟩, hend, hmore, hfilled⟩ := hspec (pages, more) heq
    refine ⟨returned, left, hslice, hreturned, hend, fun hpositive => ⟨hmore hpositive, ?_⟩,
      hfilled⟩
    subst heq
    exact SortedQuery.findPages_keyed hanswer hpositive
  · intro capacity byteLimit entries window hrun
    obtain ⟨dropped, hholds, hperm⟩ := Window.consider_all (Window.holds_new _ _) hrun
    exact ⟨dropped, by simpa [Window.new] using hperm, hholds.lowest, hholds.complete⟩

namespace SortedPair

def key (second : Bool) : DocumentSortKey := ⟨[(false, .value (.int32 (if second then 1 else 2)))]⟩

theorem keyed (second : Bool) :
    (OrderedPair.sorter false).keyValidated (OrderedPair.record second).document =
      .ok (key second) := by
  cases second <;> rfl

def content (second indexed : Bool) : ShardContent (OrderedPair.sorter false) where
  shard := second.toNat
  records := [OrderedPair.record second]
  natural := pairwise_singleton _ _
  positive := by
    intro record hrecord
    cases mem_singleton.mp hrecord
    cases second <;> decide
  ordered := if indexed then some [(OrderedPair.record second, key second)] else none
  ordered_perm := by
    simp
  ordered_keys := by
    grind [keyed]
  ordered_ascending := by
    simp

def vacant : ShardContent (OrderedPair.sorter false) :=
  ⟨0, [], .nil, nofun, none, nofun, nofun, nofun⟩

def query (shards : List (ShardContent (OrderedPair.sorter false)))
    (hshards : (shards.map (·.shard)).Nodup)
    (hnaturals : (shards.flatMap fun content => content.records.map (·.naturalOrder)).Nodup) :
    SortedQuery where
  sorter := OrderedPair.sorter false
  selects _ := .ok true
  output record := .ok (record.document, record.encodedLen)
  retainedKeyBytes _ := 0
  pushedSpoolBytes _ := 0
  readSpoolBytes _ := 0
  windowKeys := 1
  windowBytes := 1000
  shards := shards
  shards_nodup := hshards
  naturals_nodup := hnaturals

def request (batchSize : Nat) : PageRequest where
  batchSize := batchSize
  batchByteLimit := none
  baseBytes := 16
  maxBytes := 1000
  maxRows := 10
  plan _ := ⟨fun _ => true, [1]⟩

theorem pages_eq : (query [content false true, content true false] (by decide)
    (by decide)).findPages
    true 0 none (request 1) [request 1] =
      some (.ok ([[OrderedPair.document 2 1], [OrderedPair.document 1 2]], false)) := by
  with_unfolding_all rfl

end SortedPair

theorem sorted_pages_slice_pair : ∃ returned,
    slice (SortedPair.query [SortedPair.content false true, SortedPair.content true false]
      (by decide) (by decide)).sortedMatches 0 none = returned ∧
    (SortedPair.query [SortedPair.content false true, SortedPair.content true false]
      (by decide) (by decide)).Returns returned
        [OrderedPair.document 2 1, OrderedPair.document 1 2] := by
  obtain ⟨⟨answer, hanswer, hspec⟩, -⟩ := sorted_pages_slice
    (SortedPair.query [SortedPair.content false true, SortedPair.content true false]
      (by decide) (by decide)) true 0 none (SortedPair.request 1) [SortedPair.request 1]
  cases hanswer.symm.trans SortedPair.pages_eq
  obtain ⟨returned, rest, hslice, hreturned, hend, -⟩ := hspec _ _ rfl
  rw [hend rfl, append_nil] at hslice
  exact ⟨returned, hslice, hreturned⟩

/-- The first page for a batch of size zero announces more documents of an empty shard. -/
theorem empty_first_page_announces_more :
    (SortedPair.query [SortedPair.vacant] (by decide) (by decide)).findPages true 0 none
        (SortedPair.request 0) [] = some (.ok ([[]], true)) ∧
      slice (SortedPair.query [SortedPair.vacant] (by decide) (by decide)).sortedMatches 0 none =
        [] := by
  constructor
  · rfl
  · with_unfolding_all rfl

end BriskDB.Engine
