import BriskDB.Storage.ShardSummary

/-! # What a shard summary may exclude

The summary of a shard covers a key when its filter may contain it and its extremes enclose
it. A published summary covers every row, and while a rebuild is between its scan and its
publication every row is covered by the scan or by what writes recorded since. A second
rebuild that starts in this gap resets what was recorded, so the argument needs that none
does.
-/

namespace BriskDB.Storage

open ByteOrder IndexKey Result Transition Blake3 List Option

def Bounds (extreme : Option (List UInt8)) (r : List UInt8 → Prop) : Prop :=
  ∃ key ∈ extreme, r key

/-- Bits and extremes that no test of the key can refute. -/
structure Covers (blake3 : List UInt8 → Blake3.Digest) (bits : BitVec bloomWidth)
    (minKey maxKey : Option (List UInt8)) (key : CanonicalIndexKey) : Prop where
  bits : ∀ position ∈ bloomPositions blake3 key.bytes, position ∈ Bloom.members bits
  min : Bounds minKey fun least => least ≤ key.bytes
  max : Bounds maxKey fun greatest => key.bytes ≤ greatest

variable {blake3 : List UInt8 → Blake3.Digest} {key : CanonicalIndexKey}
  {target candidate : Option (List UInt8)} {bytes : List UInt8}
    {predicate : SummaryPredicate} {reason : PruningReason} {index : SummaryIndex}
    {row : SummaryRow} {result : Option SummaryRow} {added : List CanonicalIndexKey}

theorem bounds_mergeMin (h : Bounds target (· ≤ bytes) ∨ Bounds candidate (· ≤ bytes)) :
    Bounds (mergeMin target candidate) (· ≤ bytes) := by
  unfold mergeMin
  split
  next => exact h.resolve_right (by rintro ⟨_, ⟨⟩, _⟩)
  next => exact h.resolve_left (by rintro ⟨_, ⟨⟩, _⟩)
  next candidate current =>
    have hle : current ≤ bytes ∨ candidate ≤ bytes := by simpa [Bounds] using h
    split
    next hlt => exact ⟨candidate, rfl, hle.elim hlt.le.trans id⟩
    next hlt => exact ⟨current, rfl, hle.elim id (not_lt.mp hlt).trans⟩

theorem bounds_mergeMax (h : Bounds target (bytes ≤ ·) ∨ Bounds candidate (bytes ≤ ·)) :
    Bounds (mergeMax target candidate) (bytes ≤ ·) := by
  unfold mergeMax
  split
  next => exact h.resolve_right (by rintro ⟨_, ⟨⟩, _⟩)
  next => exact h.resolve_left (by rintro ⟨_, ⟨⟩, _⟩)
  next candidate current =>
    have hle : bytes ≤ current ∨ bytes ≤ candidate := by simpa [Bounds] using h
    split
    next hlt => exact ⟨candidate, rfl, hle.elim hlt.le.trans' id⟩
    next hlt => exact ⟨current, rfl, hle.elim id (not_lt.mp hlt).trans'⟩

namespace SummaryAccumulator

def Covers (blake3 : List UInt8 → Blake3.Digest) (accumulator : SummaryAccumulator)
    (key : CanonicalIndexKey) : Prop :=
  Storage.Covers blake3 accumulator.bloom.bits accumulator.minKey accumulator.maxKey key

variable {accumulator : SummaryAccumulator}

theorem covers_insert_self (accumulator : SummaryAccumulator) (key : CanonicalIndexKey) :
    (accumulator.insert blake3 key).Covers blake3 key where
  bits := Bloom.Filter.mayContain_iff.mp (accumulator.bloom.mayContain_insert_self _)
  min := bounds_mergeMin (.inr ⟨key.bytes, rfl, le_rfl⟩)
  max := bounds_mergeMax (.inr ⟨key.bytes, rfl, le_rfl⟩)

theorem Covers.insert (h : accumulator.Covers blake3 key) (added : CanonicalIndexKey) :
    (accumulator.insert blake3 added).Covers blake3 key where
  bits position hposition := by
    rw [SummaryAccumulator.insert, Bloom.Filter.members_insert]
    exact Finset.mem_union_right _ (h.bits position hposition)
  min := bounds_mergeMin (.inl h.min)
  max := bounds_mergeMax (.inl h.max)

theorem covers_foldl {keys : List CanonicalIndexKey}
    (h : accumulator.Covers blake3 key ∨ key ∈ keys) :
    (keys.foldl (.insert blake3) accumulator).Covers blake3 key := by
  induction keys generalizing accumulator with
  | nil => exact h.resolve_right not_mem_nil
  | cons head keys ih =>
    apply ih
    rcases h with hcovered | hmem
    · exact .inl (hcovered.insert head)
    · grind [covers_insert_self]

theorem covers_mergeSummary {summary : Summary} (h : accumulator.Covers blake3 key ∨
      Storage.Covers blake3 summary.bloom.bits summary.minKey summary.maxKey key) :
    (accumulator.mergeSummary summary).Covers blake3 key where
  bits position hposition := by
    rw [mergeSummary, Bloom.Filter.members_merge, Finset.mem_union]
    exact h.imp (·.bits position hposition) (·.bits position hposition)
  min := bounds_mergeMin (h.imp (·.min) (·.min))
  max := bounds_mergeMax (h.imp (·.max) (·.max))

end SummaryAccumulator

def Summary.Covers (blake3 : List UInt8 → Blake3.Digest) (summary : Summary)
    (key : CanonicalIndexKey) : Prop :=
  Storage.Covers blake3 summary.bloom.bits summary.minKey summary.maxKey key

/-- What lies up to an extreme does not satisfy a bound that the extreme does not reach. -/
theorem not_beyond {α : Type} [LinearOrder α] {extreme limit value : α} {inclusive : Bool}
    (hexcluded : extreme < limit ∨ inclusive = false ∧ extreme = limit) (hle : value ≤ extreme) :
    ¬ (limit < value ∨ inclusive = true ∧ limit = value) := by
  rcases hexcluded with hlt | ⟨rfl, rfl⟩
  · grind
  · simp [*]

theorem not_satisfied_of_exclusionReason {summary : Summary} (hcovers : summary.Covers blake3 key)
    (hrows : ¬ (summary.observedRows = 0 ∧ summary.additions = 0))
    (h : exclusionReason blake3 summary predicate = some reason) : ¬ predicate.Satisfied key := by
  unfold exclusionReason at h
  rw [if_neg hrows] at h
  cases predicate with
  | equality keys =>
    rintro ⟨candidate, hcandidate, hbytes⟩
    have hcontains : (keys.any fun key =>
        summary.bloom.mayContain (bloomPositions blake3 key.bytes)) = true := by
      refine any_eq_true.mpr ⟨candidate, hcandidate, ?_⟩
      rw [hbytes]
      exact Bloom.Filter.mayContain_iff.mpr hcovers.bits
    grind
  | range lower upper =>
    obtain ⟨least, hleast, hmin⟩ := hcovers.min
    obtain ⟨greatest, hgreatest, hmax⟩ := hcovers.max
    rintro ⟨hlower, hupper⟩
    simp only [mem_def.mp hleast, mem_def.mp hgreatest] at h
    split at h
    next hexcluded =>
      -- the maximum is below the lower bound, and the key is at most the maximum
      cases lower with
      | none => cases hexcluded
      | some bound =>
        have hexcluded : greatest < bound.key.bytes ∨ bound.inclusive = false ∧
          greatest = bound.key.bytes := by simpa [SummaryBound.excludesMax] using hexcluded
        exact not_beyond hexcluded hmax (hlower bound rfl)
    next =>
      split at h
      next hexcluded =>
        cases upper with
        | none => cases hexcluded
        | some bound =>
          have hexcluded : bound.key.bytes < least ∨ bound.inclusive = false ∧
            least = bound.key.bytes := by simpa [SummaryBound.excludesMin] using hexcluded
          exact @not_beyond (List UInt8)ᵒᵈ _ _ _ _ _ hexcluded hmin
            ((hupper bound rfl).imp_right (And.imp_right Eq.symm))
      next => cases h

theorem exclusionReason_of_pruned {shardCount shard : Nat}
    {summaries : Nat → Option SummaryRow} {shards : List Nat}
    {resolution result : SummaryResolution}
    (hresolve : resolve blake3 index shardCount summaries predicate shards resolution = .ok result)
    (hpruned : (shard, reason) ∈ result.pruned) :
    (shard, reason) ∈ resolution.pruned ∨
      ∃ row summary, summaries shard = some row ∧ row.readSummary = .ok summary ∧
        summary.state = .ready ∧ exclusionReason blake3 summary predicate = some reason := by
  induction shards generalizing resolution with
  | nil =>
    cases hresolve
    exact .inl hpruned
  | cons head shards ih =>
    unfold resolve at hresolve
    split at hresolve
    next => cases hresolve
    next =>
      split at hresolve
      next summary hread =>
        split at hresolve
        next hready =>
          split at hresolve
          next found hreason =>
            rcases ih hresolve with hmem | hlater
            · rcases mem_append.mp hmem with hmem | hmem
              · exact .inl hmem
              · cases mem_singleton.mp hmem
                obtain ⟨row, hrow, hread⟩ := map_eq_some_iff.mp hread
                exact .inr ⟨row, summary, hrow, hread, hready.1, hreason⟩
            · exact .inr hlater
          next =>
            grind
        next =>
          grind
      next =>
        grind

namespace SummaryRow

variable (blake3)

def Covers (row : SummaryRow) (key : CanonicalIndexKey) : Prop :=
  Storage.Covers blake3 row.bloomBits row.minKey row.maxKey key

variable {row : SummaryRow} {summary : Summary}

theorem readSummary_eq_ok (h : row.readSummary = .ok summary) :
    ∃ bloom : Bloom, bloom.bits = row.bloomBits ∧
      summary = { row with state := row.summaryState, bloom } := by
  unfold readSummary at h
  split at h
  next => cases h
  next =>
    obtain ⟨bloom, hbloom, h⟩ := bind_eq_ok.mp h
    cases h
    refine ⟨bloom, ?_, rfl⟩
    unfold Bloom.fromParts at hbloom
    split at hbloom
    next => cases hbloom
    next =>
      split at hbloom
      next => cases hbloom; rfl
      next => cases hbloom

theorem readSummary_of_filter {bloom : Bloom} (hbits : row.bloomBits = bloom.bits)
    (hcount : row.bloomSetBits = bloom.setBits) (hdigest : row.definitionDigest.length = 32)
    (hextremes : extremesValid row.minKey row.maxKey = true) :
    row.readSummary = .ok { row with state := row.summaryState, bloom } := by
  have hwidth : ¬ row.bloomSetBits > bloomWidth := by
    rw [hcount, ← bloom.counted, not_lt]
    exact (Finset.card_le_univ _).trans_eq (Fintype.card_fin bloomWidth)
  have hcounted : Bloom.count row.bloomBits = row.bloomSetBits := by
    rw [hbits, hcount, bloom.counted]
  have hbloom : Bloom.fromParts row.bloomBits row.bloomSetBits = .ok bloom := by
    unfold Bloom.fromParts
    rw [if_neg hwidth, dif_pos hcounted]
    cases bloom
    cases hbits
    cases hcount
    rfl
  unfold readSummary
  rw [if_neg, hbloom]
  · rfl
  · simp [hdigest, hwidth, hextremes]

theorem readSummary_beginRebuild (index : SummaryIndex) :
    (beginRebuild index).readSummary =
      .ok { beginRebuild index with state := .building, bloom := .empty } :=
  readSummary_of_filter rfl rfl index.definitionDigest.property rfl

variable (row)

/-- The row covers the key and knows of a row. -/
structure Recorded (key : CanonicalIndexKey) : Prop where
  covers : row.Covers blake3 key
  additions : row.additions ≠ 0

/-- The row covers the key and was published from a row or knows of one. -/
structure Held (key : CanonicalIndexKey) : Prop where
  covers : row.Covers blake3 key
  rows : ¬ (row.observedRows = 0 ∧ row.additions = 0)

/-- The row after writes recorded keys in it. -/
structure Grown (added : List CanonicalIndexKey) (next : SummaryRow) : Prop where
  state : next.summaryState = row.summaryState
  observedRows : next.observedRows = row.observedRows
  additions : row.additions ≠ 0 → next.additions ≠ 0
  covers : ∀ key, row.Covers blake3 key → next.Covers blake3 key
  recorded : ∀ key ∈ added, next.Recorded blake3 key

variable {blake3}

namespace Grown

variable {next last : SummaryRow} {added later : List CanonicalIndexKey}

theorem refl : Grown blake3 row [] row where
  state := rfl
  observedRows := rfl
  additions := id
  covers _ := id
  recorded _ h := absurd h not_mem_nil

variable {row}

section

variable (h : Grown blake3 row added next)
include h

theorem keeps (hkey : row.Recorded blake3 key) : next.Recorded blake3 key :=
  ⟨h.covers key hkey.covers, h.additions hkey.additions⟩

theorem keepsHeld (hkey : row.Held blake3 key) : next.Held blake3 key := by
  refine ⟨h.covers key hkey.covers, ?_⟩
  rintro ⟨hobserved, hadditions⟩
  apply hkey.rows
  rw [h.observedRows] at hobserved
  exact ⟨hobserved, by_contra fun hne => h.additions hne hadditions⟩

theorem holds (hkey : key ∈ added) : next.Held blake3 key :=
  ⟨(h.recorded key hkey).covers, fun hrows => (h.recorded key hkey).additions hrows.2⟩

theorem trans (h' : Grown blake3 next later last) : Grown blake3 row (added ++ later) last where
  state := h'.state.trans h.state
  observedRows := h'.observedRows.trans h.observedRows
  additions := h'.additions ∘ h.additions
  covers key hkey := h'.covers key (h.covers key hkey)
  recorded key hkey := by
    rcases mem_append.mp hkey with hkey | hkey
    · exact h'.keeps (h.recorded key hkey)
    · exact h'.recorded key hkey

end

end Grown

end SummaryRow

open SummaryRow

theorem recordAddition_cases {added : CanonicalIndexKey}
    (h : recordAddition blake3 (some row) added = .ok result) :
    ∃ next, result = some next ∧
      (next.summaryState = .stale ∨ Grown blake3 row [added] next) := by
  unfold recordAddition at h
  dsimp only at h
  split at h
  next error _ =>
    split at h
    next =>
      cases h
      exact ⟨row.markStale, rfl, .inl rfl⟩
    next => cases h
  next summary hread =>
    obtain ⟨bloom, hbits, rfl⟩ := readSummary_eq_ok hread
    split at h
    next hstale =>
      cases h
      exact ⟨row, rfl, .inl hstale⟩
    next =>
      obtain ⟨additions, hadditions, h⟩ := bind_eq_ok.mp h
      cases h
      have hpos : additions ≠ 0 := by
        unfold toSqliteU64 at hadditions
        split at hadditions
        next => grind
        next => cases hadditions
      refine ⟨_, rfl, .inr ?_⟩
      exact
        { state := rfl
          observedRows := rfl
          additions := fun _ => hpos
          covers := fun key hkey => by
            have hcovers : SummaryAccumulator.Covers blake3
              ⟨bloom, row.minKey, row.maxKey⟩ key := by
              unfold SummaryAccumulator.Covers
              rw [hbits]
              exact hkey
            exact hcovers.insert added
          recorded := fun key hkey => by
            cases mem_singleton.mp hkey
            exact ⟨SummaryAccumulator.covers_insert_self _ _, hpos⟩ }

theorem recordAdditions_cases (h : recordAdditions blake3 (some row) added = .ok result) :
    ∃ next, result = some next ∧
      (next.summaryState = .stale ∨ Grown blake3 row added next) := by
  induction added generalizing row with
  | nil =>
    cases h
    exact ⟨row, rfl, .inr (.refl row)⟩
  | cons head added ih =>
    rw [recordAdditions, foldlM_cons] at h
    obtain ⟨middle, hmiddle, h⟩ := bind_eq_ok.mp h
    obtain ⟨middle, rfl, hcase⟩ := recordAddition_cases hmiddle
    obtain ⟨next, rfl, hrest⟩ := ih h
    refine ⟨next, rfl, ?_⟩
    rcases hrest with hstale | hrest
    · exact .inl hstale
    · rcases hcase with hstale | hgrown
      · exact .inl (hrest.state.trans hstale)
      · exact .inr (hgrown.trans hrest)

theorem recordAdditions_none
    (h : recordAdditions blake3 none added = .ok result) : result = none := by
  induction added with
  | nil =>
    cases h
    rfl
  | cons head added ih => exact ih h

/-- A rebuild publishes the scan merged with a summary that is still being built. -/
theorem finishRebuild_eq_ok (blake3 : List UInt8 → Blake3.Digest) {stored : Option SummaryRow}
    {scanned : SummaryAccumulator} {observedRows : Nat} {next : SummaryRow}
    (h : finishRebuild index stored scanned observedRows = .ok next) :
    ∃ row, stored = some row ∧ row.summaryState = .building ∧
      next.summaryState = .ready ∧ next.observedRows = observedRows ∧
      next.additions = row.additions ∧
      ∀ key, scanned.Covers blake3 key ∨ row.Covers blake3 key → next.Covers blake3 key := by
  cases stored with
  | none => cases h
  | some row =>
    obtain ⟨summary, hread, h⟩ := bind_eq_ok.mp h
    obtain ⟨bloom, hbits, rfl⟩ := readSummary_eq_ok hread
    obtain ⟨hbuilding, h⟩ := ite_throw_eq_ok.mp h
    obtain ⟨rows, hrows, h⟩ := bind_eq_ok.mp h
    cases h
    unfold toSqliteU64 at hrows
    split at hrows
    next =>
      cases hrows
      refine ⟨row, rfl, ?_, rfl, rfl, rfl, ?_⟩
      · exact not_not.mp fun hne => hbuilding (.inl hne)
      · rintro key (hkey | hkey)
        · exact SummaryAccumulator.covers_mergeSummary (.inl hkey)
        · refine SummaryAccumulator.covers_mergeSummary (.inr ?_)
          dsimp only
          rw [hbits]
          exact hkey
    next => cases hrows

theorem finishRebuild_of_read {summary : Summary}
    {scanned : SummaryAccumulator} {rows : Nat} (hread : row.readSummary = .ok summary)
    (hbuilding : summary.state = .building)
    (hdigest : summary.definitionDigest = index.definitionDigest.val) (hrows : rows < 2 ^ 63) :
    finishRebuild index (some row) scanned rows = .ok
      { row with
        summaryState := .ready
        bloomBits := (scanned.mergeSummary summary).bloom.bits
        bloomSetBits := (scanned.mergeSummary summary).bloom.setBits
        minKey := (scanned.mergeSummary summary).minKey
        maxKey := (scanned.mergeSummary summary).maxKey
        observedRows := rows
        saturated := (scanned.mergeSummary summary).bloom.saturated } := by
  have hcheck : ¬ (summary.state ≠ .building ∨
      summary.definitionDigest ≠ index.definitionDigest.val) := by
    rintro (hstate | hother)
    · exact hstate hbuilding
    · exact hother hdigest
  unfold finishRebuild toSqliteU64
  dsimp only
  rw [hread, ok_bind, if_neg hcheck, if_pos hrows]
  rfl

section Building

variable {bloom : Bloom} (hread : row.readSummary = .ok { row with state := .building, bloom })
include hread

theorem finishRebuild_building {scanned : SummaryAccumulator} {rows : Nat}
    (hdigest : row.definitionDigest = index.definitionDigest.val) (hrows : rows < 2 ^ 63)
    (hextremes : extremesValid (mergeMin scanned.minKey row.minKey)
      (mergeMax scanned.maxKey row.maxKey) = true) :
    ∃ finished summary, finishRebuild index (some row) scanned rows = .ok finished ∧
      finished.readSummary = .ok summary ∧ summary.state = .ready ∧
      summary.definitionDigest = index.definitionDigest.val ∧
      summary.minKey = mergeMin scanned.minKey row.minKey ∧
      summary.maxKey = mergeMax scanned.maxKey row.maxKey ∧
      summary.observedRows = rows ∧ summary.additions = row.additions := by
  have hlength : row.definitionDigest.length = 32 := hdigest ▸ index.definitionDigest.property
  have hfinish := @finishRebuild_of_read index _ _ scanned rows hread rfl hdigest hrows
  generalize hmerged : scanned.mergeSummary { row with state := .building, bloom } = merged
    at hfinish
  have hmin : merged.minKey = mergeMin scanned.minKey row.minKey := hmerged ▸ rfl
  have hmax : merged.maxKey = mergeMax scanned.maxKey row.maxKey := hmerged ▸ rfl
  refine ⟨_, _, hfinish, readSummary_of_filter rfl rfl hlength ?_, rfl, hdigest, hmin, hmax, rfl,
    rfl⟩
  simpa only [hmin, hmax] using hextremes

theorem recordAddition_building (hdigest : row.definitionDigest.length = 32)
    (hadditions : row.additions + 1 < 2 ^ 63) (key : CanonicalIndexKey)
    (hextremes : extremesValid (mergeMin row.minKey (some key.bytes))
      (mergeMax row.maxKey (some key.bytes)) = true) :
    ∃ next bloom', recordAddition blake3 (some row) key = .ok (some next) ∧
      next.readSummary = .ok { next with state := .building, bloom := bloom' } ∧
      next.definitionDigest = row.definitionDigest ∧
      next.minKey = mergeMin row.minKey (some key.bytes) ∧
      next.maxKey = mergeMax row.maxKey (some key.bytes) ∧
      next.additions = row.additions + 1 := by
  have hstate : row.summaryState = .building := by
    obtain ⟨_, _, hrow⟩ := readSummary_eq_ok hread
    exact (congrArg Summary.state hrow).symm
  unfold recordAddition toSqliteU64
  dsimp only
  rw [hread]
  dsimp only
  rw [if_neg (by simp), if_pos hadditions]
  simp only [SummaryAccumulator.insert]
  generalize bloom.insert (bloomPositions blake3 key.bytes) = grown
  refine ⟨_, grown, rfl, ?_, rfl, rfl, rfl, rfl⟩
  rw [← hstate]
  exact readSummary_of_filter rfl rfl hdigest hextremes

end Building

namespace SummarySystem

variable {ρ : Type} {source : IndexSource ρ}

/-- A published summary covers every row. -/
structure Covered (blake3 : List UInt8 → Blake3.Digest) (system : SummarySystem source) : Prop where
  ready : ∀ row, system.summary = some row → row.summaryState = .ready →
    ∀ identity key, system.table.keyAt identity = some key → row.Held blake3 key
  scanned : ∀ call accumulator rows, system.rebuilds call = .scanned accumulator rows →
    ∀ row, system.summary = some row → row.summaryState = .building →
      ∀ identity key, system.table.keyAt identity = some key →
        accumulator.Covers blake3 key ∧ rows ≠ 0 ∨ row.Recorded blake3 key

/-- No rebuild starts while another one is between its scan and its publication. -/
def Undisturbed (system : SummarySystem source) : SummaryAction ρ → Prop
  | .begin _ => ∀ call accumulator rows, system.rebuilds call ≠ .scanned accumulator rows
  | _ => True

variable {system next : SummarySystem source}

theorem covered_initial (table : RowTable source) : Covered blake3 (initial table) where
  ready row h := by cases h
  scanned call accumulator rows h := by cases h

theorem Covered.stop (h : Covered blake3 system) (call : Nat) :
    Covered blake3 (system.setRebuild call .stopped) where
  ready := h.ready
  scanned other accumulator rows hphase := by
    simp only [setRebuild, Function.update_apply] at hphase
    split at hphase
    next => cases hphase
    next => exact h.scanned other accumulator rows hphase

variable (system)

theorem covered_markStale :
    Covered blake3 { system with summary := system.summary.map .markStale } where
  ready row hrow hready := by
    obtain ⟨stored, _, rfl⟩ := map_eq_some_iff.mp hrow
    cases hready
  scanned call accumulator rows hphase row hrow hbuilding := by
    obtain ⟨stored, _, rfl⟩ := map_eq_some_iff.mp hrow
    cases hbuilding

variable {index : SummaryIndex} {table : RowTable source} {keys : List CanonicalIndexKey}
    {shard : Nat}

theorem covered_begin (call : Nat)
    (hundisturbed : ∀ other accumulator rows, system.rebuilds other ≠ .scanned accumulator rows) :
    Covered blake3 ({ system with summary := some (beginRebuild index) }.setRebuild call .begun)
      where
  ready row hrow hready := by
    cases hrow
    cases hready
  scanned other accumulator rows hphase := by
    simp only [setRebuild, Function.update_apply] at hphase
    grind

variable {system}

theorem mem_scanSourceKeys
    (hscan : scanSourceKeys table = .ok keys) {identity : List UInt8}
    (hkey : table.keyAt identity = some key) : key ∈ keys := by
  obtain ⟨row, hrow, _, hrowKey⟩ := RowTable.exists_row_of_keyAt hkey
  obtain ⟨values, hvalues, hscan⟩ := bind_eq_ok.mp hscan
  cases hscan
  refine mem_filterMap.mpr ⟨some key, ?_, rfl⟩
  exact mem_of_mapM_eq_ok hvalues hrow hrowKey

theorem Covered.scan (h : Covered blake3 system) (call : Nat)
    (hscan : scanSourceKeys system.table = .ok keys) :
    Covered blake3 (system.setRebuild call
      (.scanned (keys.foldl (.insert blake3) .new) keys.length)) where
  ready := h.ready
  scanned other accumulator rows hphase row hrow hbuilding identity key hkey := by
    simp only [setRebuild, Function.update_apply] at hphase
    split at hphase
    next =>
      cases hphase
      have hmem := mem_scanSourceKeys hscan hkey
      grind [SummaryAccumulator.covers_foldl]
    next => exact h.scanned other accumulator rows hphase row hrow hbuilding identity key hkey

theorem Covered.finish (h : Covered blake3 system) (call : Nat)
    {accumulator : SummaryAccumulator} {rows : Nat} {next : SummaryRow}
    (hphase : system.rebuilds call = .scanned accumulator rows)
    (hfinish : finishRebuild index system.summary accumulator rows = .ok next) :
    Covered blake3 ({ system with summary := some next }.setRebuild call .stopped) := by
  obtain ⟨row, hrow, hbuilding, hready, hobserved, hadditions, hcovers⟩ :=
    finishRebuild_eq_ok blake3 hfinish
  refine ⟨?_, ?_⟩
  · intro published hpublished _ identity key hkey
    cases hpublished
    rcases h.scanned call accumulator rows hphase row hrow hbuilding identity key hkey with
      ⟨hscanned, hrows⟩ | hrecorded
    · refine ⟨hcovers key (.inl hscanned), ?_⟩
      omega
    · refine ⟨hcovers key (.inr hrecorded.covers), ?_⟩
      rintro ⟨_, hzero⟩
      exact hrecorded.additions (hadditions.symm.trans hzero)
  · -- any other scan finds a published summary and fails
    intro other accumulator rows _ published hpublished hstate
    cases hpublished
    grind

variable [DecidableEq ρ]

theorem Covered.write (h : Covered blake3 system) {changes : List (CapturedPhysicalChange ρ)}
    {summary : Option SummaryRow} (hchanges : system.table.applyChanges changes = some table)
    (hmaintain : system.maintain blake3 shard changes = .ok summary) :
    Covered blake3 { system with table, summary } := by
  obtain ⟨added, hplan, hrecord⟩ := bind_eq_ok.mp hmaintain
  cases hstored : system.summary with
  | none =>
    rw [hstored] at hrecord
    cases recordAdditions_none hrecord
    refine ⟨?_, ?_⟩
    · rintro row ⟨⟩
    · simp
  | some row =>
    rw [hstored] at hrecord
    obtain ⟨next, rfl, hstale | hgrown⟩ := recordAdditions_cases hrecord
    · refine ⟨?_, ?_⟩
      · simp [*]
      · simp [*]
    · refine ⟨?_, ?_⟩
      · rintro _ ⟨⟩ hready identity key hkey
        rcases keyAt_or_mem_additions hchanges hplan hkey with hbefore | hadded
        · exact hgrown.keepsHeld
            (h.ready row hstored (hgrown.state.symm.trans hready) identity key hbefore)
        · exact hgrown.holds hadded
      · rintro call accumulator rows hphase _ ⟨⟩ hbuilding identity key hkey
        rcases keyAt_or_mem_additions hchanges hplan hkey with hbefore | hadded
        · have hbuilding := hgrown.state.symm.trans hbuilding
          exact (h.scanned call accumulator rows hphase row hstored hbuilding identity key
            hbefore).imp_right hgrown.keeps
        · exact .inr (hgrown.recorded key hadded)

/-- Every undisturbed step keeps the rows covered. -/
theorem Covered.step (h : Covered blake3 system)
    {action : SummaryAction ρ} (hundisturbed : Undisturbed system action)
    (hstep : system.step blake3 index shard action = some next) : Covered blake3 next := by
  cases action with
  | write changes =>
    simp only [SummarySystem.step] at hstep
    split at hstep
    next => cases hstep
    next table hchanges =>
      split at hstep
      next summary hmaintain =>
        cases hstep
        exact h.write hchanges hmaintain
      next =>
        cases hstep
        exact h
  | markStale =>
    cases hstep
    exact covered_markStale system
  | begin call =>
    simp only [SummarySystem.step] at hstep
    split at hstep
    next =>
      cases hstep
      exact covered_begin system call hundisturbed
    next => cases hstep
  | scan call =>
    simp only [SummarySystem.step] at hstep
    split at hstep
    next =>
      split at hstep
      next keys hscan =>
        cases hstep
        exact h.scan call hscan
      next =>
        cases hstep
        exact h.stop call
    next => cases hstep
  | finish call =>
    simp only [SummarySystem.step] at hstep
    split at hstep
    next accumulator rows hphase =>
      split at hstep
      next row hfinish =>
        cases hstep
        exact h.finish call hphase hfinish
      next =>
        cases hstep
        exact h.stop call
    next => cases hstep
  | stop call =>
    cases hstep
    exact h.stop call

/-- In every run in which no rebuild starts while another one is between its scan and its
publication, a shard that is pruned holds no row whose key satisfies the predicate. -/
theorem pruned_shard_has_no_match (blake3 : List UInt8 → Blake3.Digest) (index : SummaryIndex)
    (shard : Nat) (table : RowTable source) (actions : List (SummaryAction ρ))
    (hundisturbed : Transition.Along (step blake3 index shard) Undisturbed (initial table) actions)
    (hrun : run (step blake3 index shard) (initial table) actions = some system)
    {shardCount : Nat} {summaries : Nat → Option SummaryRow} {predicate : SummaryPredicate}
    {targets : List Nat} {resolution : SummaryResolution} {reason : PruningReason}
    (hstored : summaries shard = system.summary)
    (hresolve : resolve blake3 index shardCount summaries predicate targets ⟨[], [], 0⟩ =
      .ok resolution)
    (hpruned : (shard, reason) ∈ resolution.pruned) {row : ρ} {key : CanonicalIndexKey}
    (hrow : row ∈ system.table.rows) (hkey : source.key row = .ok (some key)) :
    ¬ predicate.Satisfied key := by
  have hcovered : Covered blake3 system :=
    run_preserves_along (fun _ _ _ h hallowed hstep => h.step hallowed hstep)
      (covered_initial table) hundisturbed hrun
  rcases exclusionReason_of_pruned hresolve hpruned with hnone | hfound
  · exact absurd hnone not_mem_nil
  · obtain ⟨stored, summary, hsome, hread, hready, hreason⟩ := hfound
    obtain ⟨bloom, hbits, rfl⟩ := readSummary_eq_ok hread
    have hheld := hcovered.ready stored (hstored.symm.trans hsome) hready _ key
      (RowTable.keyAt_of_mem hrow hkey)
    refine not_satisfied_of_exclusionReason ?_ hheld.rows hreason
    unfold Summary.Covers
    dsimp only
    rw [hbits]
    exact hheld.covers

section Runs

def flagKey (flag : Bool) : CanonicalIndexKey where
  bytes := header ++ [16, 1, 1, tagBoolean, if flag then 1 else 0]
  componentCount := 1
  encoded := ⟨[.ascending (.boolean flag)], by simp, rfl, by cases flag <;> rfl, rfl⟩

def flagSource : IndexSource Bool where
  locator flag := [if flag then 1 else 0]
  key flag := .ok (some (flagKey flag))

def flagIndex : SummaryIndex := ⟨1, hash []⟩

def flagTable (flags : List Bool) (h : KeyedList.Sorted flagSource.locator flags) :
    RowTable flagSource := ⟨flags, h⟩

variable {index : SummaryIndex} {row : SummaryRow} {system : SummarySystem source} {shard : Nat}

theorem resolve_of_summary {summary : Summary}
    (hread : row.readSummary = .ok summary) (hready : summary.state = .ready)
    (hdigest : summary.definitionDigest = index.definitionDigest.val)
    (hreason : exclusionReason blake3 summary predicate = some reason) :
    resolve blake3 index 1 (fun _ => some row) predicate [0] ⟨[], [], 0⟩ =
      .ok ⟨[], [(0, reason)], 1⟩ := by
  simp [*, resolve]

theorem step_write
    {changes : List (CapturedPhysicalChange ρ)} {summary : Option SummaryRow}
    (happly : system.table.applyChanges changes = some table)
    (hmaintain : system.maintain blake3 shard changes = .ok summary) :
    step blake3 index shard system (.write changes) = some { system with table, summary } := by
  simp [step, happly, hmaintain]

theorem step_finish {call rows : Nat} {accumulator : SummaryAccumulator}
    (hphase : system.rebuilds call = .scanned accumulator rows)
    (hfinish : finishRebuild index system.summary accumulator rows = .ok row) :
    step blake3 index shard system (.finish call) =
      some ({ system with summary := some row }.setRebuild call .stopped) := by
  simp [step, hphase, hfinish]

/-- A rebuild has scanned an empty table. -/
def scannedEmpty : SummarySystem flagSource :=
  ({ initial (flagTable [] .nil) with summary := some (beginRebuild flagIndex) }.setRebuild 0
    .begun).setRebuild 0 (.scanned .new 0)

theorem run_scannedEmpty : run (step hash flagIndex 0) (initial (flagTable [] .nil))
    [.begin 0, .scan 0] = some scannedEmpty := rfl

/-- A write after the scan is recorded in the summary that is built. -/
theorem write_scannedEmpty (flag : Bool) :
    ∃ recorded bloom, step hash flagIndex 0 scannedEmpty (.write [⟨none, some flag⟩]) =
        some { scannedEmpty with
          table := flagTable [flag] (pairwise_singleton _ _)
          summary := some recorded } ∧
      recorded.readSummary = .ok { recorded with state := .building, bloom } ∧
      recorded.definitionDigest = flagIndex.definitionDigest.val ∧
      recorded.minKey = some (flagKey flag).bytes ∧
      recorded.maxKey = some (flagKey flag).bytes ∧ recorded.additions = 1 := by
  obtain ⟨recorded, bloom, hrecord, hread, hdigest, hkeys⟩ := @recordAddition_building hash _ _
    (readSummary_beginRebuild flagIndex) flagIndex.definitionDigest.property (by decide)
    (flagKey flag) (by cases flag <;> decide)
  refine ⟨recorded, bloom, step_write ?_ ?_, hread, hdigest, hkeys⟩
  · cases flag <;> with_unfolding_all rfl
  · have hplan : planGlobalIndexWriteImpact flagSource 0 [⟨none, some flag⟩] =
        .ok [flagKey flag] := by
      cases flag <;> with_unfolding_all rfl
    rw [maintain, hplan, ok_bind]
    simp [recordAdditions, scannedEmpty, setRebuild, hrecord]

/-- A rebuild is scanned, a write adds a row, another rebuild starts, and the first one is
published: the row is in neither part of the merge. -/
theorem overlapping_rebuild_prunes_row :
    ∃ (system : SummarySystem flagSource) (resolution : SummaryResolution),
      run (step hash flagIndex 0) (initial (flagTable [] .nil))
        [.begin 0, .scan 0, .write [⟨none, some true⟩], .begin 1, .finish 0] = some system ∧
      resolve hash flagIndex 1 (fun _ => system.summary) (.equality [flagKey true]) [0]
        ⟨[], [], 0⟩ = .ok resolution ∧
      (0, .emptySummary) ∈ resolution.pruned ∧
      true ∈ system.table.rows ∧ flagSource.key true = .ok (some (flagKey true)) ∧
      SummaryPredicate.Satisfied (.equality [flagKey true]) (flagKey true) := by
  obtain ⟨row, summary, hfinish, hread, hready, hdigest, _, _, hrows, hadditions⟩ :=
    @finishRebuild_building flagIndex _ _ (readSummary_beginRebuild flagIndex) .new 0 rfl
      (by decide) rfl
  obtain ⟨recorded, _, hwrite, -⟩ := write_scannedEmpty true
  let restarted : SummarySystem flagSource := { scannedEmpty with
    table := flagTable [true] (pairwise_singleton _ _)
    summary := some (beginRebuild flagIndex) }.setRebuild 1 .begun
  let published := { restarted with summary := some row }.setRebuild 0 .stopped
  have hpublish : step hash flagIndex 0 restarted (.finish 0) =
      some published := step_finish rfl hfinish
  refine ⟨published, ⟨[], [(0, .emptySummary)], 1⟩, ?_, ?_, mem_singleton_self _,
    mem_singleton_self true, rfl, flagKey true, mem_singleton_self _, rfl⟩
  · refine run_append_eq_some.mpr ⟨_, run_scannedEmpty, run_cons_eq_some.mpr ⟨_, hwrite, ?_⟩⟩
    exact run_cons_eq_some.mpr ⟨restarted, rfl, run_cons_eq_some.mpr ⟨_, hpublish, rfl⟩⟩
  · refine resolve_of_summary hread hready hdigest ?_
    rw [exclusionReason, if_pos ⟨hrows, hadditions⟩]

/-- A row is written during a rebuild, and read with a range above it. -/
theorem pruned_shard_has_no_match_above :
    ∃ (system : SummarySystem flagSource) (resolution : SummaryResolution),
      run (step hash flagIndex 0) (initial (flagTable [] .nil))
        [.begin 0, .scan 0, .write [⟨none, some false⟩], .finish 0] = some system ∧
      system.table.rows = [false] ∧
      resolve hash flagIndex 1 (fun _ => system.summary)
        (.range (some ⟨flagKey true, true⟩) none) [0] ⟨[], [], 0⟩ = .ok resolution ∧
      (0, .maximumBelowLowerBound) ∈ resolution.pruned ∧
      ¬ SummaryPredicate.Satisfied (.range (some ⟨flagKey true, true⟩) none) (flagKey false) := by
  obtain ⟨recorded, _, hwrite, hrecorded, hsame, hlower, hupper, hone⟩ :=
    write_scannedEmpty false
  have hextremes : extremesValid (mergeMin (SummaryAccumulator.minKey .new) recorded.minKey)
      (mergeMax (SummaryAccumulator.maxKey .new) recorded.maxKey) = true := by
    rw [hlower, hupper]
    decide
  obtain ⟨row, summary, hfinish, hread, hready, hdigest, hmin, hmax, -, hadditions⟩ :=
    @finishRebuild_building flagIndex _ _ hrecorded .new 0 hsame (by decide) hextremes
  let written : SummarySystem flagSource := { scannedEmpty with
    table := flagTable [false] (pairwise_singleton _ _)
    summary := some recorded }
  let published := { written with summary := some row }.setRebuild 0 .stopped
  have hpublish : step hash flagIndex 0 written (.finish 0) = some published :=
    step_finish rfl hfinish
  have hrun : run (step hash flagIndex 0) (initial (flagTable [] .nil))
      [.begin 0, .scan 0, .write [⟨none, some false⟩], .finish 0] = some published :=
    run_append_eq_some.mpr ⟨_, run_scannedEmpty, run_cons_eq_some.mpr ⟨_, hwrite,
      run_cons_eq_some.mpr ⟨_, hpublish, rfl⟩⟩⟩
  have hresolve : resolve hash flagIndex 1 (fun _ => published.summary)
      (.range (some ⟨flagKey true, true⟩) none) [0] ⟨[], [], 0⟩ =
        .ok ⟨[], [(0, .maximumBelowLowerBound)], 1⟩ := by
    refine resolve_of_summary hread hready hdigest ?_
    have hsome : ¬ (summary.observedRows = 0 ∧ summary.additions = 0) := by
      rintro ⟨_, hzero⟩
      exact absurd ((hadditions.trans hone).symm.trans hzero) (by decide)
    unfold exclusionReason
    rw [if_neg hsome, hmin, hmax, hlower, hupper]
    have hexcluded :
        (SummaryBound.mk (flagKey true) true).excludesMax (flagKey false).bytes = true := by
      decide
    exact if_pos hexcluded
  refine ⟨published, _, hrun, rfl, hresolve, mem_singleton_self _, ?_⟩
  refine pruned_shard_has_no_match hash flagIndex 0 _ _ ?_ hrun rfl hresolve
    (mem_singleton_self _) (mem_singleton_self false) rfl
  refine ⟨?_, fun _ _ => ⟨trivial, fun _ _ => ⟨trivial, fun _ _ => ⟨trivial, fun _ _ => trivial⟩⟩⟩⟩
  intro call scan rows hphase
  cases hphase

end Runs

end SummarySystem

end BriskDB.Storage
