import BriskDB.Document.Codec
import BriskDB.Document.Memory
import BriskDB.Document.SortKey

/-! # Sort specifications and the keys they select

A compiled sort specification selects one key from a document. A path that meets an
array has one candidate for each member, and the candidates of several paths are
joined only when they agree on the members of the arrays they share. The caller's
cooperative check, which can end any of these calls with an error of its own, is not
part of the model; the work budget is.
-/

namespace BriskDB.Document

open Result

def maxSortSpecBytes : Nat := 1024 * 1024
def maxSortFields : Nat := 32
def maxSortCandidates : Nat := 16384
def maxSortWorkBytes : Nat := 64 * 1024 * 1024
def maxSortKeyBytes : Nat := 8 * 1024 * 1024

def splitPath (name : String) : List String :=
  (name.toList.splitOn '.').map String.ofList

namespace DocumentSorter

/-- One sort field. -/
structure Field where
  parts : List String
  prefixes : List Nat
  descending : Bool
  deriving DecidableEq

end DocumentSorter

structure DocumentSorter where
  fields : List DocumentSorter.Field
  parents : List Nat
  deriving DecidableEq

namespace DocumentSorter

/-- The paths and directions that the sorter was compiled from. -/
def specification (sorter : DocumentSorter) : List (List String × Bool) :=
  sorter.fields.map fun field => (field.parts, field.descending)

def sameSpecification (sorter other : DocumentSorter) : Bool :=
  sorter.specification = other.specification

structure Compiling where
  fields : List Field
  parents : List Nat
  interned : List ((Nat × String) × Nat)

def internPart (state : Compiling × List Nat) (part : String) : Compiling × List Nat :=
  let (compiling, path) := state
  let parent := path.getLastD 0
  match compiling.interned.lookup (parent, part) with
  | some id => (compiling, path ++ [id])
  | none =>
    let id := compiling.parents.length
    ({ compiling with
        parents := compiling.parents ++ [parent]
        interned := compiling.interned ++ [((parent, part), id)] }, path ++ [id])

def addField (compiling : Compiling) (spec : List String × Bool) : Compiling :=
  let (compiling, path) := spec.1.foldl internPart (compiling, [0])
  { compiling with fields := compiling.fields ++ [⟨spec.1, path, spec.2⟩] }

/-- Names that may begin with a dollar sign inside a path. -/
def reservedParts : List String :=
  ["$db", "$id", "$recordId", "$ref", "$searchRootDocumentId", "$searchScore",
    "$searchSortValues", "$sortKey"]

def startsWithDollar (text : String) : Bool := text.toList.head? = some '$'

def checkName (name : String) : EngineResult (List String) := do
  if name.isEmpty then throw (queryError 40352)
  if startsWithDollar name then throw (queryError 16410)
  if name.toList.getLast? = some '.' then throw (queryError 40353)
  let parts := splitPath name
  if parts.any (·.isEmpty) then throw (queryError 15998)
  if parts.length > maxSortDepth then throw sortLimit
  if parts.any fun part => startsWithDollar part && !reservedParts.contains part then
    throw (queryError 16410)
  return parts

def checkDirection (direction : BsonValue) : EngineResult Bool := do
  if let .document document := direction then
    if (BsonDocument.getFirst document "$meta").isSome then throw (queryError 115)
  if direction.canonicalNumber.isNone then throw (queryError 15974)
  if direction.eq (.int32 1) then return false
  if direction.eq (.int32 (-1)) then return true
  throw (queryError 15975)

/-- An accepted direction is descending unless it equals one. -/
theorem eq_one_of_checkDirection {direction : BsonValue} {descending : Bool}
    (h : checkDirection direction = .ok descending) : direction.eq (.int32 1) = !descending := by
  cases hone : direction.eq (.int32 1) with
  | false =>
    cases descending with
    | true => rfl
    | false =>
      simp only [checkDirection, hone, Bool.false_eq_true, if_false] at h
      split at h <;> simp only [ite_throw_eq_ok] at h <;> split at h <;>
        simp_all [throw, throwThe, MonadExceptOf.throw]
  | true =>
    simp only [checkDirection, hone, if_true] at h
    split at h <;> simp only [ite_throw_eq_ok] at h <;> simp_all

def compileField (compiling : Compiling) (entry : String × BsonValue) :
    EngineResult Compiling := do
  let parts ← checkName entry.1
  let descending ← checkDirection entry.2
  return addField compiling (parts, descending)

/-- The sorter of a specification whose encoding was checked. -/
def compileFields (spec : BsonDocument) : EngineResult DocumentSorter := do
  if spec.isEmpty then throw (queryError 15976)
  if spec.length > maxSortFields then throw (queryError 13103)
  let compiling ← spec.foldlM compileField ⟨[], [0], []⟩
  return ⟨compiling.fields, compiling.parents⟩

def compile [BsonWire.Crate] (spec : BsonDocument) : EngineResult DocumentSorter := do
  let _ ← (encodeDocumentWithOptions spec
    { BsonCodecOptions.new with maxDocumentBytes := maxSortSpecBytes }).toEngine .clientInput
  compileFields spec

theorem compileFields_of_compile [BsonWire.Crate] {spec : BsonDocument} {sorter : DocumentSorter}
    (h : compile spec = .ok sorter) : compileFields spec = .ok sorter := by
  obtain ⟨_, -, h⟩ := bind_eq_ok.mp h
  exact h

/-- The fields that have been compiled, as they were specified. -/
def Compiling.specification (compiling : Compiling) : List (List String × Bool) :=
  compiling.fields.map fun field => (field.parts, field.descending)

theorem fields_foldl_internPart (parts : List String) (state : Compiling × List Nat) :
    (parts.foldl internPart state).1.fields = state.1.fields := by
  induction parts generalizing state with
  | nil => rfl
  | cons part parts ih =>
    rw [List.foldl_cons, ih, internPart]
    split <;> rfl

theorem specification_addField (compiling : Compiling) (spec : List String × Bool) :
    (addField compiling spec).specification = compiling.specification ++ [spec] := by
  simp [addField, Compiling.specification, fields_foldl_internPart]

/-- A field of a specification is a path and a direction. -/
def Specifies (entry : String × BsonValue) (spec : List String × Bool) : Prop :=
  checkName entry.1 = .ok spec.1 ∧ checkDirection entry.2 = .ok spec.2

theorem compileField_eq {compiling next : Compiling} {entry : String × BsonValue}
    (h : compileField compiling entry = .ok next) :
    ∃ spec, Specifies entry spec ∧ next = addField compiling spec := by
  obtain ⟨parts, hparts, h⟩ := bind_eq_ok.mp h
  obtain ⟨descending, hdescending, h⟩ := bind_eq_ok.mp h
  cases h
  exact ⟨(parts, descending), ⟨hparts, hdescending⟩, rfl⟩

theorem foldlM_compileField_eq {entries : BsonDocument} {compiling next : Compiling}
    (h : entries.foldlM compileField compiling = .ok next) :
    ∃ specs, List.Forall₂ Specifies entries specs ∧ next = specs.foldl addField compiling ∧
      next.specification = compiling.specification ++ specs := by
  induction entries generalizing compiling with
  | nil =>
    cases h
    exact ⟨[], .nil, rfl, (List.append_nil _).symm⟩
  | cons entry entries ih =>
    rw [List.foldlM_cons] at h
    obtain ⟨middle, hmiddle, h⟩ := bind_eq_ok.mp h
    obtain ⟨spec, hspec, rfl⟩ := compileField_eq hmiddle
    obtain ⟨specs, hspecs, hnext, hall⟩ := ih h
    refine ⟨spec :: specs, .cons hspec hspecs, hnext, ?_⟩
    rw [hall, specification_addField, List.append_assoc, List.singleton_append]

/-- A compiled sorter is made of the specified fields, in their order. -/
theorem specification_of_compileFields {spec : BsonDocument} {sorter : DocumentSorter}
    (h : compileFields spec = .ok sorter) : ∃ compiling : Compiling,
      sorter = ⟨compiling.fields, compiling.parents⟩ ∧
        compiling = compiling.specification.foldl addField ⟨[], [0], []⟩ ∧
        List.Forall₂ Specifies spec compiling.specification := by
  simp only [compileFields, ite_throw_eq_ok] at h
  obtain ⟨-, -, h⟩ := h
  obtain ⟨compiling, hfields, h⟩ := bind_eq_ok.mp h
  cases h
  obtain ⟨specs, hspecs, hnext, hall⟩ := foldlM_compileField_eq hfields
  refine ⟨compiling, rfl, ?_⟩
  rw [hall]
  exact ⟨hnext, hspecs⟩

/-- Compiled sorters of one specification are the same sorter. -/
theorem eq_of_sameSpecification {left right : DocumentSorter} {spec spec' : BsonDocument}
    (hleft : compileFields spec = .ok left) (hright : compileFields spec' = .ok right)
    (h : left.sameSpecification right) : left = right := by
  obtain ⟨compiling, rfl, hcompiling, -⟩ := specification_of_compileFields hleft
  obtain ⟨compiling', rfl, hcompiling', -⟩ := specification_of_compileFields hright
  have hsame : compiling.specification = compiling'.specification := of_decide_eq_true h
  rw [hcompiling, hcompiling', hsame]

structure Budget where
  steps : Nat
  bytes : Nat
  candidates : Nat

abbrev Work (α : Type) := StateT Budget (Except EngineError) α

namespace Budget

def stepped (budget : Budget) : EngineResult Budget :=
  if budget.steps + 1 > maxSortSteps then .error sortLimit
  else .ok { budget with steps := budget.steps + 1 }

def step : Work Unit := fun budget => return ((), ← budget.stepped)

def charge (bytes : Nat) : Work Unit := fun budget => do
  let budget ← budget.stepped
  let budget := { budget with bytes := saturatingAdd budget.bytes bytes }
  if budget.bytes > maxSortWorkBytes then .error sortLimit else return ((), budget)

end Budget

/-- A key that a path selects, the array members it went through and the deepest array it met. -/
structure Candidate where
  key : Option Atom
  provenance : List (Nat × Nat)
  source : Option Nat

def emit (key : Option Atom) (provenance : List (Nat × Nat)) (source : Option Nat)
    (output : List Candidate) : Work (List Candidate) := do
  let budget ← get
  set { budget with candidates := budget.candidates + 1 }
  if budget.candidates + 1 > maxSortCandidates then throw sortLimit
  Budget.charge (128 + provenance.length * 32)
  return output ++ [⟨key, provenance, source⟩]

def findField (part : String) : BsonDocument → Work (Option BsonValue)
  | [] => return none
  | (name, value) :: entries => do
    Budget.step
    if name = part then return some value else findField part entries

/-- The member that sorts first in the direction of the field. -/
def extreme (descending : Bool) (key : BsonValue) : List BsonValue → Work BsonValue
  | [] => return key
  | value :: values => do
    Budget.step
    let order := compareAtom (.value value) (.value key)
    if (descending && order.isGT) || (!descending && order.isLT) then
      extreme descending value values
    else extreme descending key values

def isArrayIndex (part : String) : Bool :=
  part = "0" ||
    match part.toList with
    | [] => false
    | first :: rest => first.isDigit && first ≠ '0' && rest.all Char.isDigit

def parseUsize (part : String) : Option Nat :=
  let value := part.toList.foldl (fun value digit => value * 10 + (digit.toNat - '0'.toNat)) 0
  if value < 2 ^ 64 then some value else none

def namedMember (part : String) (values : List BsonValue) : Work Bool :=
  values.foldlM (fun named value => do
    Budget.step
    match value with
    | .document document =>
      document.foldlM (fun named entry => do
        Budget.step
        return named || entry.1 = part) named
    | _ => return named) false

def walk (field : Field) :
    List String → Nat → BsonValue → List (Nat × Nat) → Option Nat → Bool → List Candidate →
      Work (List Candidate)
  | [], offset, value, provenance, source, positional, output => do
    Budget.step
    match value with
    | .array [] => emit (some .emptyArray) provenance (some (field.prefixes.getD offset 0)) output
    | .array (first :: rest) => do
      let source := some (field.prefixes.getD offset 0)
      if positional then emit (some (.value value)) provenance source output
      else do
        let key ← extreme field.descending first rest
        emit (some (.value key)) provenance source output
    | _ => emit (some (.value value)) provenance source output
  | part :: rest, offset, value, provenance, source, _, output => do
    Budget.step
    let missing (provenance : List (Nat × Nat)) (source : Option Nat)
        (output : List Candidate) : Work (List Candidate) :=
      emit (some (.value .null)) provenance source output
    let walkDocument (document : BsonDocument) (provenance : List (Nat × Nat))
        (source : Option Nat) (output : List Candidate) : Work (List Candidate) := do
      match ← findField part document with
      | some value => walk field rest (offset + 1) value provenance source false output
      | none => missing provenance source output
    match value with
    | .document document => walkDocument document provenance source output
    | .array values =>
      let source := some (field.prefixes.getD offset 0)
      let members : Work (List Candidate) :=
        if values.isEmpty then missing provenance source output
        else
          values.zipIdx.foldlM (fun output (member, index) => do
            Budget.step
            let provenance := provenance ++ [(field.prefixes.getD offset 0, index)]
            match member with
            | .document document => walkDocument document provenance source output
            | _ => missing provenance source output) output
      if isArrayIndex part then do
        let named ← namedMember part values
        match (parseUsize part).bind fun index => values[index]? with
        | some value =>
          if named then emit none provenance source output
          else walk field rest (offset + 1) value provenance source true output
        | none => if named then members else missing provenance source output
      else members
    | _ => missing provenance source output

def walkDocument (field : Field) (document : BsonDocument) : Work (List Candidate) :=
  match field.parts with
  | [] => return []
  | part :: rest => do
    match ← findField part document with
    | some value => walk field rest 1 value [] none false []
    | none => emit (some (.value .null)) [] none []

/-- Change the value of a key of an ordered map, starting from a default. -/
def adjust {β : Type} (key : Nat) (start : β) (change : β → β) : List (Nat × β) → List (Nat × β)
  | [] => [(key, change start)]
  | (other, value) :: entries =>
    if key = other then (other, change value) :: entries
    else if key < other then (key, change start) :: (other, value) :: entries
    else (other, value) :: adjust key start change entries

structure Lookup where
  candidates : List Candidate
  bySource : List (Nat × List (Nat × List Nat))
  withoutSource : List (Nat × List Nat)

namespace Lookup

def group (candidates : List Candidate) : Work (List (Nat × List (Nat × List Nat))) :=
  candidates.zipIdx.foldlM (fun bySource (candidate, id) =>
    candidate.provenance.foldlM (fun bySource (source, index) => do
      Budget.charge 128
      return adjust source [] (adjust index [] (· ++ [id])) bySource) bySource) []

def missing (candidates : List Candidate) (source : Nat) : Work (List Nat) :=
  candidates.zipIdx.foldlM (fun missing (candidate, id) => do
    let hasSource ← candidate.provenance.foldlM (fun hasSource (other, _) => do
      Budget.step
      return hasSource || other == source) false
    if hasSource then return missing
    else do
      Budget.charge 16
      return missing ++ [id]) []

def new (candidates : List Candidate) : Work Lookup := do
  let bySource ← group candidates
  let withoutSource ← bySource.mapM fun (source, _) => do
    return (source, ← missing candidates source)
  return ⟨candidates, bySource, withoutSource⟩

/-- The smallest group of candidates that one of the selected array members leaves. -/
def narrow (lookup : Lookup) (provenance : List (Nat × Nat)) :
    Work (Option (List Nat × List Nat)) :=
  provenance.foldlM (fun indexes (source, index) => do
    Budget.step
    match lookup.bySource.lookup source with
    | none => return indexes
    | some groups =>
      let matching := (groups.lookup index).getD []
      let missing := (lookup.withoutSource.lookup source).getD []
      match indexes with
      | none => return some (matching, missing)
      | some (left, right) =>
        if matching.length + missing.length < left.length + right.length then
          return some (matching, missing)
        else return indexes) none

end Lookup

/-- Whether a candidate agrees with one of its array members. -/
def agrees (source index : Nat) : List (Nat × Nat) → Work Bool
  | [] => return true
  | (selectedSource, selectedIndex) :: provenance => do
    Budget.step
    if source = selectedSource ∧ index ≠ selectedIndex then return false
    else agrees source index provenance

def compatible (provenance : List (Nat × Nat)) : List (Nat × Nat) → Work Bool
  | [] => return true
  | (source, index) :: rest => do
    if ← agrees source index provenance then compatible provenance rest else return false

/-- Whether a prefix lies above another. -/
def ancestorWithin (sorter : DocumentSorter) (ancestor : Nat) : Nat → Nat → Work Bool
  | 0, _ => return false
  | fuel + 1, descendant => do
    Budget.step
    if ancestor = descendant then return true
    else if descendant = 0 then return false
    else sorter.ancestorWithin ancestor fuel (sorter.parents.getD descendant 0)

def ancestor (sorter : DocumentSorter) (ancestor descendant : Nat) : Work Bool :=
  sorter.ancestorWithin ancestor (descendant + 1) descendant

variable (sorter : DocumentSorter)

/-- Two paths may meet arrays only along one chain. -/
def mergeSource : Option Nat → Option Nat → Work (Option Nat)
  | some left, some right => do
    if ← sorter.ancestor left right then return some right
    else if ← sorter.ancestor right left then return some left
    else throw (queryError 2)
  | left, right => return left.or right

def mergeProvenance (provenance added : List (Nat × Nat)) : List (Nat × Nat) :=
  added.foldl (fun merged (source, index) =>
    if merged.any (·.1 == source) then merged else merged ++ [(source, index)]) provenance

/-- The order of a combination against the best one so far. -/
def compareSelected : List Atom → List Atom → List Field → Work Ordering
  | value :: values, previous :: rest, field :: fields => do
    Budget.step
    let order := compareAtom value previous
    let order := if field.descending then order.swap else order
    if order ≠ .eq then return order else compareSelected values rest fields
  | _, _, _ => return .eq

structure Joined where
  best : Option (List Atom)
  ambiguous : Bool

def join (sorter : DocumentSorter) :
    List Lookup → List (Nat × Nat) → Option Nat → List (Option Atom) → Joined → Work Joined
  | [], _, _, selected, joined => do
    Budget.step
    match selected.mapM id with
    | none => return { joined with ambiguous := true }
    | some values =>
      match joined.best with
      | none => return { joined with best := some values }
      | some previous => do
        let order ← compareSelected values previous sorter.fields
        if order.isLT then return { joined with best := some values } else return joined
  | lookup :: lookups, provenance, source, selected, joined => do
    Budget.step
    let ids :=
      match ← lookup.narrow provenance with
      | some (left, right) => left ++ right
      | none => List.range lookup.candidates.length
    ids.foldlM (fun joined id => do
      Budget.step
      match lookup.candidates[id]? with
      | none => return joined
      | some candidate =>
        if ← compatible provenance candidate.provenance then do
          let merged ← sorter.mergeSource source candidate.source
          sorter.join lookups (mergeProvenance provenance candidate.provenance) merged
            (selected ++ [candidate.key]) joined
        else return joined) joined

/-- The whole allocation is charged before any value is cloned. -/
def keyBytes : List Atom → Nat → Work Unit
  | [], _ => return ()
  | atom :: atoms, bytes => do
    let charged ←
      match atom with
      | .emptyArray => pure 128
      | .value value => fun budget => Memory.valueBytes Budget.stepped maxSortKeyBytes value budget
    if bytes + charged > maxSortKeyBytes then throw sortLimit
    else keyBytes atoms (bytes + charged)

variable (document : BsonDocument)

def selectKey : Work DocumentSortKey := do
  let lookups ← sorter.fields.mapM fun field => do
    Lookup.new (← walkDocument field document)
  let joined ← sorter.join lookups [] none [] ⟨none, false⟩
  if joined.ambiguous then throw (queryError 16746)
  match joined.best with
  | none => throw (.new .internal "missing document sort key")
  | some best => do
    keyBytes best 128
    Budget.step
    let components := (sorter.fields.zip best).map fun (field, atom) => (field.descending, atom)
    Budget.step
    return ⟨components⟩

def keyValidated :
    EngineResult DocumentSortKey := do
  let (key, _) ← sorter.selectKey document ⟨0, 0, 0⟩
  return key

/-- The key of a document that has not been validated yet. -/
def key [BsonWire.Crate] : EngineResult DocumentSortKey := do
  let _ ← (encodeDocument document).toEngine .clientInput
  sorter.keyValidated document

end DocumentSorter

end BriskDB.Document
