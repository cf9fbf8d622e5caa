import BriskDB.Document.IndexKeys
import BriskDB.Document.OrderedIndex

/-! # Preparing the index entries of a document

All secondary indexes of a collection are prepared for one document under one budget: the
frames of its equality keys, and for an index that keeps ordered keys the order keys of
both directions. A value that a unique index cannot represent is refused. For an index that
is not unique it becomes one marker outside the space of equality frames, and the work that
was charged before the value was met stays charged.
-/

namespace BriskDB.Document

open Accounting IndexKeys IndexKeys.Budget Result List

/-- The equality frames of one index, and the order keys of its two directions. -/
structure PreparedDocumentIndexKeys where
  indexId : Nat
  unique : Bool
  keys : List (List UInt8)
  ordered : Option (List (Option (List UInt8)))

structure PreparedDocumentIndexEntries where
  collectionId : Nat
  indexes : List PreparedDocumentIndexKeys

namespace DocumentIndexPreparation

def maxDocumentPreparedIndexes : Nat := 64

/-- Outside the frames of equality keys, so that it equals none of them. -/
def nonUniqueFallbackKey : List UInt8 := Utf8.bytes "BDIF" ++ [0, 0, 0, 1, 0, 0, 0, 1, 0]

structure CompiledIndex where
  id : Nat
  unique : Bool
  generator : DocumentIndexKeyGenerator
  ordering : Option IndexOrdering

end DocumentIndexPreparation

/-- The compiled indexes of a collection, limited in number and with different identities. -/
structure DocumentIndexPreparation where
  collectionId : Nat
  indexes : List DocumentIndexPreparation.CompiledIndex
  retainedBytes : Nat
  length_le : indexes.length ≤ DocumentIndexPreparation.maxDocumentPreparedIndexes
  ids_nodup : (indexes.map (·.id)).Nodup
  ids_pos : ∀ index ∈ indexes, 0 < index.id

/-- What the sorters take from the budget: their steps, and the capacity of a key that they
allocate. -/
structure SorterCosts where
  steps : IndexOrdering → BsonDocument → Nat
  capacity : List UInt8 → Nat

namespace DocumentIndexPreparation

section Definitions

variable (costs : SorterCosts)

def orderedKeys (document : BsonDocument) :
    Option IndexOrdering → Work (Option (List (Option (List UInt8))))
  | none => return none
  | some ordering => do
    update (stepped (costs.steps ordering document))
    let keys ← (ordering.prepare document : EngineResult _)
    keys.forM fun key => match key with
      | some key => Budget.charge (costs.capacity key)
      | none => pure ()
    return some keys

def fallbackKeys : Work (List (List UInt8)) := do
  step
  addKeys 1
  Budget.charge (32 + nonUniqueFallbackKey.length)
  return [nonUniqueFallbackKey]

def encodeTuple (tuple : DocumentIndexKey) : Work (List UInt8) := do
  let length ← tuple.encodedLen
  Budget.charge length
  tuple.toBytes

def equalityKeys (allowFallback : Bool) (document : BsonDocument) (index : CompiledIndex) :
    Work (List (List UInt8)) := do
  match ← attempt (index.generator.keysValidated document) with
  | .ok tuples => do
    Budget.charge (tuples.length * 32)
    tuples.mapM encodeTuple
  | .error error =>
    if allowFallback ∧ ¬ index.unique ∧ error.source = .unsupportedIndexedValue then fallbackKeys
    else throw error

def prepareIndex (allowFallback : Bool) (document : BsonDocument) (index : CompiledIndex) :
    Work PreparedDocumentIndexKeys := do
  step
  let ordered ← orderedKeys costs document index.ordering
  let keys ← equalityKeys allowFallback document index
  return ⟨index.id, index.unique, keys, ordered⟩

variable (preparation : DocumentIndexPreparation)

def prepareInner (allowFallback : Bool) (document : BsonDocument) :
    Work PreparedDocumentIndexEntries := do
  step
  Budget.charge preparation.retainedBytes
  let length ← ((encodedDocumentLen document BsonCodecOptions.new 1 "$").toEngine .clientInput :
    EngineResult Nat)
  Budget.charge length
  let bytes ← ofRun (Memory.documentBytes (stepped 1) maxWorkBytes document)
  Budget.charge bytes
  step
  Budget.charge (128 + preparation.indexes.length * 128)
  let indexes ← preparation.indexes.mapM (prepareIndex costs allowFallback document)
  step
  return ⟨preparation.collectionId, indexes⟩

def prepareForStorage (document : BsonDocument) : EngineResult PreparedDocumentIndexEntries :=
  (outcome (preparation.prepareInner costs true document) Budget.new).1

end Definitions

end DocumentIndexPreparation

/-- Stored order keys are bounded, and there is one for each direction. -/
def OrderKeysBounded (keys : List (Option (List UInt8))) : Prop :=
  keys.length = 2 ∧ ∀ key, some key ∈ keys → 9 ≤ key.length ∧ key.length ≤ maxOrderKeyBytes

/-- Entries that a record can keep: no key twice, and within the bounds. -/
structure PreparedDocumentIndexEntries.WellFormed (entries : PreparedDocumentIndexEntries) :
    Prop where
  ids_nodup : (entries.indexes.map (·.indexId)).Nodup
  ids_pos : ∀ index ∈ entries.indexes, 0 < index.indexId
  length_le : entries.indexes.length ≤ DocumentIndexPreparation.maxDocumentPreparedIndexes
  keys_nodup : ∀ index ∈ entries.indexes, index.keys.Nodup
  keys_le : (entries.indexes.map (·.keys.length)).sum ≤ maxKeys
  ordered : ∀ index ∈ entries.indexes, ∀ keys, index.ordered = some keys → OrderKeysBounded keys

namespace IndexOrdering

theorem prepareKey_bounds {sorter : DocumentSorter} {document : BsonDocument}
    {bytes : List UInt8} (h : prepareKey sorter document = .ok (some bytes)) :
    9 ≤ bytes.length ∧ bytes.length ≤ maxOrderKeyBytes := by
  obtain ⟨key, -, -, hbytes⟩ := prepareKey_eq_some h
  refine ⟨?_, length_le_of_orderedBytesBounded hbytes⟩
  obtain ⟨rfl, -⟩ := orderedBytesBounded_eq hbytes
  have hheader : orderedHeader.length = 8 := by decide
  simp only [length_append, hheader, OrderCode.terminated, length_cons, length_nil]
  omega

theorem prepare_bounds {ordering : IndexOrdering} {document : BsonDocument}
    {keys : List (Option (List UInt8))} (h : ordering.prepare document = .ok keys) :
    OrderKeysBounded keys := by
  unfold prepare at h
  simp only [mapM_cons, mapM_nil] at h
  obtain ⟨declared, hdeclared, h⟩ := bind_eq_ok.mp h
  obtain ⟨rest, hrest, h⟩ := bind_eq_ok.mp h
  obtain ⟨inverse, hinverse, hrest⟩ := bind_eq_ok.mp hrest
  cases hrest
  cases h
  refine ⟨rfl, ?_⟩
  grind [prepareKey_bounds]

end IndexOrdering

namespace DocumentIndexPreparation

/-- The computation counts at least as many keys as its result has, within the maximum. -/
def Counts {α : Type} (size : α → Nat) (work : Work α) (P : α → Prop) : Prop :=
  ∀ budget result next, budget.keys ≤ maxKeys → outcome work budget = (.ok result, next) →
    budget.keys + size result ≤ next.keys ∧ next.keys ≤ maxKeys ∧ P result

namespace Counts

variable {α β : Type} {S : α → Nat} {work : Work α} {P : α → Prop} {R : β → Prop}
  {sizeOf : β → Nat} {rest : α → Work β}

theorem after (h : Yields Budget.keys work P)
    (hrest : ∀ value, P value → Counts sizeOf (rest value) R) :
    Counts sizeOf (work >>= rest) R := by
  intro budget result next hbudget hrun
  obtain ⟨value, middle, hfirst, hrun⟩ := bind_eq_ok.mp hrun
  obtain ⟨hkept, hvalue⟩ := h budget
  rw [hfirst] at hkept hvalue
  simp only at hkept hvalue
  rw [← hkept] at hbudget ⊢
  exact hrest value (hvalue value rfl) middle result next hbudget hrun

theorem bind (h : Counts S work P) (hrest : ∀ value, P value →
      Yields Budget.keys (rest value) fun result => sizeOf result = S value ∧ R result) :
    Counts sizeOf (work >>= rest) R := by
  intro budget result next hbudget hrun
  obtain ⟨value, middle, hfirst, hrun⟩ := bind_eq_ok.mp hrun
  obtain ⟨hle, hmax, hvalue⟩ := h budget value middle hbudget hfirst
  obtain ⟨hkept, hresult⟩ := hrest value hvalue middle
  grind

theorem mapM {γ : Type} {Q : γ → α → Prop} {step : γ → Work α} (items : List γ)
    (hstep : ∀ item, Counts S (step item) (Q item)) :
    Counts (fun results => (results.map S).sum) (items.mapM step) (List.Forall₂ Q items) := by
  induction items with
  | nil =>
    intro budget result next hbudget hrun
    cases hrun
    exact ⟨by simp, hbudget, .nil⟩
  | cons item items ih =>
    intro budget result next hbudget hrun
    rw [mapM_cons] at hrun
    obtain ⟨value, middle, hfirst, hrun⟩ := bind_eq_ok.mp hrun
    obtain ⟨values, last, hrest, hrun⟩ := bind_eq_ok.mp hrun
    cases hrun
    obtain ⟨hle, hmax, hvalue⟩ := hstep item budget value middle hbudget hfirst
    obtain ⟨hle', hmax', hvalues⟩ := ih middle values next hmax hrest
    refine ⟨?_, hmax', .cons hvalue hvalues⟩
    grind

end Counts

theorem yields_orderedKeys (costs : SorterCosts)
    (document : BsonDocument) (ordering : Option IndexOrdering) :
    Yields Budget.keys (orderedKeys costs document ordering) fun ordered =>
      ∀ keys, ordered = some keys → OrderKeysBounded keys := by
  cases ordering with
  | none => exact .pure nofun
  | some ordering =>
    refine .bind (.update fun _ _ => stepped_keys) fun _ _ => ?_
    refine Yields.bind (Yields.lift fun keys h => IndexOrdering.prepare_bounds h) fun keys hkeys =>
      ?_
    refine .bind (.forM _ fun key => ?_) fun _ _ => .pure ?_
    · cases key with
      | none => exact .pure trivial
      | some key => exact yields_charge _
    · simp [*]

theorem yields_encodeTuple (tuple : DocumentIndexKey) :
    Yields Budget.keys (encodeTuple tuple) fun bytes => tuple.Bounded ∧ bytes = tuple.frame :=
  (tuple.yields_encodedLen).bind fun _ _ => (yields_charge _).bind fun _ _ => tuple.yields_toBytes

theorem nodup_frames {tuples : List DocumentIndexKey} {frames : List (List UInt8)}
    (htuples : tuples.Nodup)
    (h : List.Forall₂ (fun tuple bytes => tuple.Bounded ∧ bytes = tuple.frame) tuples frames) :
    frames.Nodup ∧ frames.length = tuples.length := by
  have hframes : (∀ tuple ∈ tuples, tuple.Bounded) ∧ frames =
    tuples.map DocumentIndexKey.frame := by
    clear htuples
    induction h with
    | nil => exact ⟨nofun, rfl⟩
    | cons hhead _ ih =>
      grind
  obtain ⟨hbounded, rfl⟩ := hframes
  refine ⟨List.Nodup.map_on ?_ htuples, length_map _⟩
  grind [DocumentIndexKey.frame_inj]

theorem counts_fallbackKeys : Counts List.length fallbackKeys List.Nodup := by
  refine Counts.after yields_step fun _ _ => ?_
  refine .bind (S := fun _ => 1) (P := fun _ => True) ?_ fun _ _ => ?_
  · intro budget result next hbudget hrun
    rw [outcome_addKeys] at hrun
    grind
  · exact (yields_charge _).bind fun _ _ => .pure ⟨rfl, nodup_singleton _⟩

theorem counts_equalityKeys (allowFallback : Bool) (document : BsonDocument)
    (index : CompiledIndex) :
    Counts List.length (equalityKeys allowFallback document index) List.Nodup := by
  intro budget result next hbudget hrun
  obtain ⟨tuples, middle, hattempt, hrun⟩ := bind_eq_ok.mp hrun
  rw [outcome_attempt] at hattempt
  generalize hkeys : outcome (index.generator.keysValidated document) budget = run at hattempt
  obtain ⟨found, middle⟩ := run
  cases hattempt
  obtain ⟨hle, hmax, hspec⟩ := index.generator.keysValidated_spec hbudget hkeys
  cases found with
  | error error =>
    simp only at hrun
    split at hrun
    next =>
      -- what was counted before the failure stays counted
      obtain ⟨hle', hmax', hnodup⟩ := counts_fallbackKeys _ result next hmax hrun
      exact ⟨by omega, hmax', hnodup⟩
    next => cases hrun
  | ok tuples =>
    obtain ⟨hnodup, hcount⟩ := hspec tuples rfl
    have hencode := (yields_charge (tuples.length * 32)).bind fun _ _ =>
      Yields.mapM tuples yields_encodeTuple
    obtain ⟨hkept, hframes⟩ := hencode middle
    grind [nodup_frames]

structure PreparedFor (index : CompiledIndex) (prepared : PreparedDocumentIndexKeys) : Prop where
  id : prepared.indexId = index.id
  nodup : prepared.keys.Nodup
  ordered : ∀ keys, prepared.ordered = some keys → OrderKeysBounded keys

variable {costs : SorterCosts}

theorem counts_prepareIndex (allowFallback : Bool) (document : BsonDocument)
    (index : CompiledIndex) :
    Counts (fun prepared => prepared.keys.length)
      (prepareIndex costs allowFallback document index) (PreparedFor index) := by
  refine Counts.after yields_step fun _ _ => ?_
  refine .after (yields_orderedKeys costs document index.ordering) fun ordered
    hordered => ?_
  refine .bind (counts_equalityKeys allowFallback document index) fun keys hkeys => ?_
  exact .pure ⟨rfl, rfl, hkeys, hordered⟩

theorem wellFormed_of_preparedFor {compiled : List CompiledIndex} {collectionId : Nat}
    {indexes : List PreparedDocumentIndexKeys} (hids : (compiled.map (·.id)).Nodup)
    (hpos : ∀ index ∈ compiled, 0 < index.id)
    (hlength : compiled.length ≤ maxDocumentPreparedIndexes)
    (h : List.Forall₂ PreparedFor compiled indexes)
    (hcount : (indexes.map (·.keys.length)).sum ≤ maxKeys) :
    PreparedDocumentIndexEntries.WellFormed ⟨collectionId, indexes⟩ := by
  have hprepared : indexes.map (·.indexId) = compiled.map (·.id) ∧
      ∀ prepared ∈ indexes, ∃ index, 0 < index.id ∧ PreparedFor index prepared := by
    clear hcount hlength hids
    induction h with
    | nil => exact ⟨rfl, nofun⟩
    | cons hhead _ ih =>
      obtain ⟨hpos, hrest⟩ := forall_mem_cons.mp hpos
      obtain ⟨hids, hprepared⟩ := ih hrest
      refine ⟨?_, forall_mem_cons.mpr ⟨⟨_, hpos, hhead⟩, hprepared⟩⟩
      rw [map_cons, map_cons, hhead.id, hids]
  obtain ⟨heq, hprepared⟩ := hprepared
  refine ⟨heq ▸ hids, ?_, h.length_eq ▸ hlength, ?_, hcount, ?_⟩
  · intro prepared hmem
    obtain ⟨index, hpos, hindex⟩ := hprepared prepared hmem
    exact hindex.id ▸ hpos
  · intro prepared hmem
    obtain ⟨index, -, hindex⟩ := hprepared prepared hmem
    exact hindex.nodup
  · intro prepared hmem
    obtain ⟨index, -, hindex⟩ := hprepared prepared hmem
    exact hindex.ordered

/-- Prepared entries have no key twice and keep within the bounds of a record. -/
theorem prepareForStorage_wellFormed {preparation : DocumentIndexPreparation}
    {document : BsonDocument} {entries : PreparedDocumentIndexEntries}
    (h : preparation.prepareForStorage costs document = .ok entries) :
    entries.WellFormed ∧ entries.collectionId = preparation.collectionId := by
  have hcounts : Counts (fun entries => (entries.indexes.map (·.keys.length)).sum)
      (preparation.prepareInner costs true document) fun entries =>
        entries.collectionId = preparation.collectionId ∧
          List.Forall₂ PreparedFor preparation.indexes entries.indexes := by
    refine Counts.after yields_step fun _ _ => Counts.after (yields_charge _) fun _ _ => ?_
    refine .after (P := fun _ => True) (.lift fun _ _ => trivial) fun _ _ => ?_
    refine .after (yields_charge _) fun _ _ => ?_
    refine .after (P := fun _ => True) (.ofRun ?_) fun _ _ => ?_
    · intro budget bytes next hrun
      exact ⟨Memory.documentBytes_keepsView maxWorkBytes
        (fun _ _ => stepped_keys) document _ _ _ hrun,
        trivial⟩
    refine .after (yields_charge _) fun _ _ => .after yields_step fun _ _ => ?_
    refine .after (yields_charge _) fun _ _ => ?_
    refine .bind (.mapM _ fun index => counts_prepareIndex true document index) ?_
    intro indexes hindexes
    exact yields_step.bind fun _ _ => .pure ⟨rfl, rfl, hindexes⟩
  obtain ⟨hle, hmax, hcollection, hindexes⟩ := hcounts .new entries _ (Nat.zero_le _)
    (Prod.ext h rfl)
  refine ⟨?_, hcollection⟩
  have hcount : (entries.indexes.map (·.keys.length)).sum ≤ maxKeys :=
    (Nat.le_add_left _ _).trans (hle.trans hmax)
  obtain ⟨collectionId, indexes⟩ := entries
  cases hcollection
  exact wellFormed_of_preparedFor preparation.ids_nodup preparation.ids_pos preparation.length_le
    hindexes hcount

end DocumentIndexPreparation

end BriskDB.Document
