import BriskDB.Document.Sorter
import BriskDB.Document.SortKeyOrder

/-! # Order keys of an index

An index that keeps ordered keys stores two of them for every document: the key of
the declared sort and the key of the fully inverted one. An array selects different
values in the two directions, so each is derived by a sorter of its own. A document
whose key cannot be derived within the limits gets a marker instead.
-/

namespace BriskDB.Document

def maxOrderKeyBytes : Nat := 64 * 1024

def DocumentSortKey.orderedBytes (key : DocumentSortKey) : EngineResult (List UInt8) :=
  key.orderedBytesBounded quietHost () maxOrderedBytes

/-- The declared keys of an index with its membership options. -/
structure IndexDefinition where
  keys : BsonDocument
  sparse : Bool
  partialFilter : Option BsonDocument

structure DocumentIndexMetadata where
  id : Nat
  isBuiltIn : Bool
  hasOrderedKeys : Bool
  definition : Option IndexDefinition

structure IndexOrdering where
  declared : DocumentSorter
  inverse : DocumentSorter
  declared_compiled : ∃ spec, DocumentSorter.compileFields spec = .ok declared
  inverse_compiled : ∃ spec, DocumentSorter.compileFields spec = .ok inverse

namespace IndexOrdering

def invalid : EngineError :=
  .new .dataCorruption "ordered index capability has an unsupported definition"

variable (ordering : IndexOrdering)

def direction (sorter : DocumentSorter) : Option Nat :=
  if ordering.declared.sameSpecification sorter then some 0
  else if ordering.inverse.sameSpecification sorter then some 1
  else none

def inverseDirection (direction : BsonValue) : BsonValue :=
  .int32 (if direction.eq (.int32 1) then -1 else 1)

def compileSorters [BsonWire.Crate] (keys inverse : BsonDocument) : EngineResult IndexOrdering :=
  match hdeclared : DocumentSorter.compile keys, hinverse : DocumentSorter.compile inverse with
  | .ok declared, .ok inverse' => .ok ⟨declared, inverse',
      ⟨_, DocumentSorter.compileFields_of_compile hdeclared⟩,
      ⟨_, DocumentSorter.compileFields_of_compile hinverse⟩⟩
  | .error error, _ => .error error
  | _, .error error => .error error

def compile [BsonWire.Crate] (metadata : DocumentIndexMetadata) : EngineResult (Option IndexOrdering) := do
  if ¬ metadata.hasOrderedKeys then return none
  else
    match metadata.definition with
    | none => throw invalid
    | some definition => do
      if metadata.isBuiltIn ∨ definition.sparse ∨ definition.partialFilter.isSome then
        throw invalid
      let inverse ← (BsonDocument.fromEntries (definition.keys.map fun entry =>
        (entry.1, inverseDirection entry.2))).toEngine .storedData
      return some (← compileSorters definition.keys inverse)

section Inverse

open DocumentSorter Result

theorem checkDirection_inverseDirection {direction : BsonValue} {descending : Bool}
    (h : checkDirection direction = .ok descending) :
    checkDirection (inverseDirection direction) = .ok !descending := by
  have hone : checkDirection (.int32 1) = .ok false := by decide +kernel
  have hminus : checkDirection (.int32 (-1)) = .ok true := by decide +kernel
  grind [inverseDirection, eq_one_of_checkDirection]

theorem specifies_inverseDirection {keys : BsonDocument} {specs inverse : List (List String × Bool)}
    (hspecs : List.Forall₂ Specifies keys specs) (hinverse : List.Forall₂ Specifies
      (keys.map fun entry => (entry.1, inverseDirection entry.2)) inverse) :
    inverse = specs.map fun field => (field.1, !field.2) := by
  induction hspecs generalizing inverse with
  | nil =>
    cases hinverse
    rfl
  | @cons entry spec keys specs hspec hspecs ih =>
    cases hinverse with
    | @cons _ other _ _ hother hothers =>
      have hname : other.1 = spec.1 := Except.ok.inj (hother.1.symm.trans hspec.1)
      have hdirection : other.2 = !spec.2 :=
        Except.ok.inj (hother.2.symm.trans (checkDirection_inverseDirection hspec.2))
      rw [List.map_cons, ← ih hothers, ← hname, ← hdirection]

theorem fromEntries_eq {entries document : BsonDocument}
    (h : BsonDocument.fromEntries entries = .ok document) : document = entries := by
  suffices hfold : ∀ pushed : BsonDocument, entries.foldlM
      (fun document entry => BsonDocument.push document entry.1 entry.2) pushed = .ok document →
        document = pushed ++ entries from hfold [] h
  clear h
  induction entries with
  | nil =>
    simp
  | cons entry entries ih =>
    intro pushed h
    obtain ⟨next, hnext, h⟩ := bind_eq_ok.mp h
    obtain ⟨-, hnext⟩ := ite_error_eq_ok.mp hnext
    grind

/-- The inverse sorter has the fields of the declared one in the opposite directions. -/
theorem compile_inverts [BsonWire.Crate] {metadata : DocumentIndexMetadata}
    {ordering : IndexOrdering} (h : compile metadata = .ok (some ordering)) :
    ordering.inverse.specification =
      ordering.declared.specification.map fun field => (field.1, !field.2) := by
  unfold compile at h
  split at h
  · cases h
  · split at h
    · cases h
    · obtain ⟨-, h⟩ := ite_throw_eq_ok.mp h
      obtain ⟨inverse, hinverse, h⟩ := bind_eq_ok.mp h
      obtain ⟨compiled, hcompiled, h⟩ := bind_eq_ok.mp h
      cases h
      cases fromEntries_eq (BsonResult.toEngine_eq_ok.mp hinverse)
      unfold compileSorters at hcompiled
      split at hcompiled
      next declared inverse hdeclared hinverse =>
        cases hcompiled
        obtain ⟨left, rfl, -, hleft⟩ :=
          specification_of_compileFields (compileFields_of_compile hdeclared)
        obtain ⟨right, rfl, -, hright⟩ :=
          specification_of_compileFields (compileFields_of_compile hinverse)
        exact specifies_inverseDirection hleft hright
      all_goals cases hcompiled

end Inverse

def prepareKey (sorter : DocumentSorter) (document : BsonDocument) :
    EngineResult (Option (List UInt8)) :=
  match sorter.keyValidated document >>= fun key =>
      key.orderedBytesBounded quietHost () maxOrderKeyBytes with
  | .ok key => .ok (some key)
  | .error error =>
    match error.kind with
    | .invalidArgument | .invalidQuery | .unsupported | .limitExceeded => .ok none
    | _ => .error error

def prepare (document : BsonDocument) : EngineResult (List (Option (List UInt8))) :=
  [ordering.declared, ordering.inverse].mapM fun sorter => prepareKey sorter document

def sorterOf (direction : Nat) : DocumentSorter :=
  if direction = 0 then ordering.declared else ordering.inverse

/-- The direction is found by its specification, which determines the sorter. -/
theorem sorterOf_direction {ordering : IndexOrdering} {sorter : DocumentSorter}
    {spec : BsonDocument} {direction : Nat} (hsorter : DocumentSorter.compileFields spec = .ok sorter)
    (h : ordering.direction sorter = some direction) :
    direction < 2 ∧ ordering.sorterOf direction = sorter := by
  unfold IndexOrdering.direction at h
  obtain ⟨declared, hdeclared⟩ := ordering.declared_compiled
  obtain ⟨inverse, hinverse⟩ := ordering.inverse_compiled
  split at h
  next hsame =>
    cases h
    exact ⟨by omega, DocumentSorter.eq_of_sameSpecification hdeclared hsorter hsame⟩
  · split at h
    next hsame =>
      cases h
      exact ⟨by omega, DocumentSorter.eq_of_sameSpecification hinverse hsorter hsame⟩
    · cases h

/-- A stored order key is the ordered encoding of the sort key, within a wider bound too. -/
theorem prepareKey_eq_some {sorter : DocumentSorter} {document : BsonDocument}
    {bytes : List UInt8} (h : prepareKey sorter document = .ok (some bytes)) :
    ∃ key, sorter.keyValidated document = .ok key ∧ key.orderedBytes = .ok bytes ∧
      key.orderedBytesBounded quietHost () maxOrderKeyBytes = .ok bytes := by
  unfold prepareKey at h
  split at h
  next prepared hprepared =>
    cases h
    obtain ⟨key, hkey, hbytes⟩ := Result.bind_eq_ok.mp hprepared
    refine ⟨key, hkey, ?_, hbytes⟩
    exact orderedBytesBounded_mono quietHost_quiet () (by decide) hbytes
  · split at h <;> cases h

end IndexOrdering

end BriskDB.Document
