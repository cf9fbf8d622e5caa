import BriskDB.Document.Key
import BriskDB.Document.Memory
import BriskDB.Lib.Accounting

/-! # Equality keys of an index

An index generates a tuple of canonical keys for a document, and one tuple for each member
of an array. At most one of its paths may end in an array. A value outside the supported
subset is reported as such, so that an index that is not unique can fall back to a marker.
The caller's cooperative check, which can end any of these calls with an error of its own,
is not part of the model; the work budget is.
-/

namespace BriskDB.Document

open Accounting List

namespace IndexKeys

def maxKeys : Nat := 16384
def maxSteps : Nat := 1000000
def maxValueBytes : Nat := 8 * 1024 * 1024
def maxWorkBytes : Nat := 64 * 1024 * 1024
def maxComponents : Nat := 32

def limit : EngineError := .new .limitExceeded "document index key resource limit exceeded"

def unsupportedValue : EngineError :=
  .fromSource .unsupported "unsupported document index key value" .unsupportedIndexedValue

structure Budget where
  steps : Nat
  bytes : Nat
  keys : Nat

abbrev Work (α : Type) := Accounted Budget EngineError α

namespace Budget

def new : Budget := ⟨0, 0, 0⟩

variable (amount : Nat) (budget : Budget)

def stepped : EngineResult Budget :=
  if budget.steps + amount > maxSteps then .error limit
  else .ok { budget with steps := budget.steps + amount }

def step : Work Unit := update (stepped 1)

def charged : EngineResult Budget :=
  if budget.bytes + amount > maxWorkBytes then .error limit
  else .ok { budget with bytes := budget.bytes + amount }

def charge : Work Unit := update (charged amount)

def counted : EngineResult Budget :=
  if budget.keys + amount > maxKeys then .error limit
  else .ok { budget with keys := budget.keys + amount }

def addKeys : Work Unit := update (counted amount)

end Budget

end IndexKeys

inductive IndexComponent
  | emptyArray
  | value (key : CanonicalBsonKey)
  deriving DecidableEq

structure DocumentIndexKey where
  components : List IndexComponent
  deriving DecidableEq

namespace IndexKeys

open Budget

def findEntry (part : String) : BsonDocument → Work (Option BsonValue)
  | [] => return none
  | (name, found) :: entries => do
    step
    if name = part then return some found else findEntry part entries

def nestedValue : List String → BsonDocument → Work (Option BsonValue)
  | [], _ => return none
  | [part], document => do
    step
    findEntry part document
  | part :: path, document => do
    step
    match ← findEntry part document with
    | some (.document next) => nestedValue path next
    | some (.array _) => throw unsupportedValue
    | _ => return none

def supportedScalar (value : BsonValue) : Bool :=
  (match value with
    | .document _ | .array _ | .objectId _ | .dateTime _ => false
    | _ => true) &&
  match value.canonicalNumber with
  | none | some (.finite _) => true
  | some _ => false

def addComponent (output : List IndexComponent) (value : BsonValue) :
    Work (List IndexComponent) := do
  step
  if ¬ supportedScalar value then throw unsupportedValue
  let bytes ← ofRun (Memory.valueBytes (stepped 1) maxValueBytes value)
  Budget.charge (bytes + 256)
  let key ← ((CanonicalBsonKey.encode value).toEngine .clientInput : EngineResult _)
  step
  if .value key ∈ output then return output
  if output.length ≥ maxKeys then throw limit
  return output ++ [.value key]

def componentKeys (value : Option BsonValue) : Work (List IndexComponent) := do
  step
  match value with
  | some (.array []) => do
    Budget.charge 256
    return [.emptyArray]
  | _ => do
    let values := match value with
      | some (.array values) => values
      | some value => [value]
      | none => [.null]
    let output ← values.foldlM addComponent []
    step
    return output

end IndexKeys

/-- Compiled paths with the membership options. -/
structure DocumentIndexKeyGenerator where
  paths : List (List String)
  sparse : Bool
  partialFilter : Option (BsonDocument → Nat → EngineResult (Bool × Nat))
  retainedBytes : Nat

namespace DocumentIndexKeyGenerator

open IndexKeys IndexKeys.Budget

variable (generator : DocumentIndexKeyGenerator) (document : BsonDocument)

def admits : Work Bool :=
  match generator.partialFilter with
  | none => pure true
  | some filter => ofRun fun budget => do
    let (admitted, steps) ← filter document budget.steps
    return (admitted, { budget with steps })

def isArray : Option BsonValue → Bool
  | some (.array _) => true
  | _ => false

def addComponents (found : List (List IndexComponent) × Nat) (value : Option BsonValue) :
    Work (List (List IndexComponent) × Nat) := do
  let values ← componentKeys value
  if found.2 * values.length > maxKeys then throw limit
  return (found.1 ++ [values], found.2 * values.length)

def componentSize : IndexComponent → Nat
  | .emptyArray => 1
  | .value key => key.bytes.length + 8

def chargeComponent (keyCount : Nat) (values : List IndexComponent) : Work Unit := do
  let bytes ← values.foldlM (fun bytes value => do
    step
    return bytes + componentSize value) 0
  Budget.charge (if values.length = 1 then bytes * keyCount else bytes)

variable (components : List (List IndexComponent))

def tupleAt (index : Nat) : DocumentIndexKey :=
  ⟨components.map fun values =>
    values.getD (if values.length = 1 then 0 else index) .emptyArray⟩

def buildTuple (index : Nat) :
    Work DocumentIndexKey := do
  step
  components.forM fun _ => step
  return tupleAt components index

/-- The tuples of the components, charged before they are built. -/
def expand (keyCount : Nat) :
    Work (List DocumentIndexKey) := do
  components.forM (chargeComponent keyCount)
  Budget.charge (keyCount * (128 + generator.paths.length * 32))
  let output ← (List.range keyCount).mapM (buildTuple components)
  step
  return output

def memberComponents :
    Work (Option (List (List IndexComponent) × Nat)) := do
  step
  if ¬ (← generator.admits document) then do
    step
    return none
  else do
    let selected ← generator.paths.mapM fun path => nestedValue path document
    if generator.sparse ∧ selected.all Option.isNone then do
      step
      return none
    else do
      if (selected.filter isArray).length > 1 then throw unsupportedValue
      let found ← selected.foldlM addComponents ([], 1)
      return some found

def keysValidated : Work (List DocumentIndexKey) := do
  match ← generator.memberComponents document with
  | none => return []
  | some (components, keyCount) => do
    addKeys keyCount
    generator.expand components keyCount

end DocumentIndexKeyGenerator

namespace DocumentIndexKey

open IndexKeys IndexKeys.Budget

def magic : List UInt8 := Utf8.bytes "BDIK"

def encodingVersion : Nat := 1

def componentLen : IndexComponent → EngineResult Nat
  | .emptyArray => .ok 1
  | .value key =>
    if key.bytes.length > maxValueBytes then .error limit else .ok (5 + key.bytes.length)

def addLength (length : Nat) (component : IndexComponent) : Work Nat := do
  step
  let size ← (componentLen component : EngineResult Nat)
  if length + size > maxWorkBytes then throw limit
  return length + size

def encodedLen (key : DocumentIndexKey) : Work Nat := do
  step
  if key.components = [] ∨ key.components.length > maxComponents then throw limit
  let length ← key.components.foldlM addLength 12
  step
  return length

def componentCode : IndexComponent → List UInt8
  | .emptyArray => [0]
  | .value key => 1 :: PrefixCode.block key.bytes

def frame (key : DocumentIndexKey) : List UInt8 :=
  magic ++ Bytes.ofBe 4 encodingVersion ++
    (Bytes.ofBe 4 key.components.length ++ key.components.flatMap componentCode)

def toBytes (key : DocumentIndexKey) : Work (List UInt8) := do
  let _ ← key.encodedLen
  key.components.forM fun _ => do
    step
    step
  step
  return key.frame

end DocumentIndexKey

namespace IndexKeys

open Budget

variable {amount : Nat} {budget next : Budget}

theorem stepped_keys (h : budget.stepped amount = .ok next) : next.keys = budget.keys := by
  unfold stepped at h
  grind

theorem charged_keys (h : budget.charged amount = .ok next) : next.keys = budget.keys := by
  unfold charged at h
  grind

theorem yields_step : Yields Budget.keys step fun _ => True :=
  .update fun _ _ => stepped_keys

theorem yields_charge (amount : Nat) : Yields Budget.keys (Budget.charge amount) fun _ => True :=
  .update fun _ _ => charged_keys

theorem outcome_addKeys (amount : Nat) (budget : Budget) :
    outcome (addKeys amount) budget =
      if budget.keys + amount > maxKeys then (.error limit, budget)
      else (.ok (), { budget with keys := budget.keys + amount }) := by
  unfold addKeys update
  rw [outcome_ofRun]
  unfold counted
  by_cases hlimit : budget.keys + amount > maxKeys
  · rw [if_pos hlimit, if_pos hlimit]
    rfl
  · rw [if_neg hlimit, if_neg hlimit]
    rfl

theorem yields_findEntry (part : String) (document : BsonDocument) :
    Yields Budget.keys (findEntry part document) fun _ => True := by
  induction document with
  | nil => exact Yields.pure trivial
  | cons entry entries ih =>
    refine yields_step.bind fun _ _ => Yields.ite (fun _ => ?_) fun _ => ih
    exact Yields.pure trivial

theorem yields_nestedValue (path : List String) (document : BsonDocument) :
    Yields Budget.keys (nestedValue path document) fun _ => True := by
  induction path generalizing document with
  | nil => exact Yields.pure trivial
  | cons part path ih =>
    cases path with
    | nil => exact yields_step.bind fun _ _ => yields_findEntry part document
    | cons next path =>
      refine yields_step.bind fun _ _ => (yields_findEntry part document).bind fun _ _ => ?_
      split
      · exact ih _
      · exact .throw
      · exact .pure trivial

theorem yields_addComponent (output : List IndexComponent) (value : BsonValue) :
    Yields Budget.keys (addComponent output value) fun next =>
      output ≠ [] ∧ next = output ∨ ∃ key, key ∉ output ∧ next = output ++ [key] := by
  refine yields_step.bind fun _ _ => Yields.guard fun _ => ?_
  refine Yields.bind (P := fun _ => True) (Yields.ofRun ?_) fun bytes _ => ?_
  · intro budget bytes next h
    exact ⟨Memory.valueBytes_keepsView maxValueBytes (fun _ _ => stepped_keys) value _ _ _ h,
      trivial⟩
  refine (yields_charge _).bind fun _ _ => ?_
  refine .bind (P := fun _ => True) (.lift fun _ _ => trivial) fun key _ => ?_
  refine yields_step.bind fun _ _ => .ite (fun hmem => ?_) fun hmem => .guard fun _ =>
    ?_
  · exact .pure (Or.inl ⟨ne_nil_of_mem hmem, rfl⟩)
  · exact .pure (Or.inr ⟨_, hmem, rfl⟩)

theorem yields_foldlM_addComponent (values : List BsonValue) :
    Yields Budget.keys (values.foldlM addComponent []) fun output =>
      output.Nodup ∧ (values.length = 1 → output.length = 1) := by
  have hnodup : Yields Budget.keys (values.foldlM addComponent []) List.Nodup := by
    refine .foldlM nodup_nil fun output houtput value _ => ?_
    refine (yields_addComponent output value).mono fun next hnext => ?_
    rcases hnext with ⟨-, rfl⟩ | ⟨key, hkey, rfl⟩
    · exact houtput
    · exact nodup_append.mpr ⟨houtput, nodup_singleton key, by
        grind⟩
  match values with
  | [value] =>
    refine (yields_addComponent [] value).bind fun next hnext => .pure ?_
    grind
  | [] => exact hnodup.mono fun output houtput => ⟨houtput, nofun⟩
  | _ :: _ :: _ => exact hnodup.mono fun output houtput => ⟨houtput, nofun⟩

end IndexKeys

namespace DocumentIndexKeyGenerator

open IndexKeys IndexKeys.Budget

variable (generator : DocumentIndexKeyGenerator)

/-- The keys of one component: distinct, and a single one unless the value is an array. -/
structure ComponentOf (value : Option BsonValue) (values : List IndexComponent) : Prop where
  nodup : values.Nodup
  single : isArray value = false → values.length = 1

theorem yields_componentKeys (value : Option BsonValue) :
    Yields Budget.keys (componentKeys value) (ComponentOf value) := by
  refine yields_step.bind fun _ _ => ?_
  split
  next =>
    refine (yields_charge 256).bind fun _ _ => .pure ?_
    exact ⟨nodup_singleton _, fun _ => rfl⟩
  next =>
    refine (yields_foldlM_addComponent _).bind fun output houtput => ?_
    refine yields_step.bind fun _ _ => .pure ⟨houtput.1, fun hscalar => houtput.2 ?_⟩
    split
    next => cases hscalar
    next => rfl
    next => rfl

/-- The components found so far, with the number of tuples they make. -/
def ComponentsOf (selected : List (Option BsonValue)) (found : List (List IndexComponent) × Nat) :
    Prop :=
  List.Forall₂ ComponentOf selected found.1 ∧ found.2 = (found.1.map List.length).prod

variable {selected : List (Option BsonValue)}
  {found : List (List IndexComponent) × Nat} {components : List (List IndexComponent)}

theorem yields_addComponents (hfound : ComponentsOf selected found) (value : Option BsonValue) :
    Yields Budget.keys (addComponents found value) (ComponentsOf (selected ++ [value])) := by
  refine (yields_componentKeys value).bind fun values hvalues => .guard fun _ => ?_
  refine .pure ⟨rel_append hfound.1 (.cons hvalues .nil), ?_⟩
  simp [hfound.2]

theorem yields_foldlM_addComponents {done : List (Option BsonValue)}
    (hfound : ComponentsOf done found) (selected : List (Option BsonValue)) :
    Yields Budget.keys (selected.foldlM addComponents found) (ComponentsOf (done ++ selected)) := by
  induction selected generalizing done found with
  | nil =>
    rw [append_nil]
    exact .pure hfound
  | cons value selected ih =>
    rw [foldlM_cons]
    refine (yields_addComponents hfound value).bind fun next hnext => ?_
    grind

theorem yields_admits (document : BsonDocument) :
    Yields Budget.keys (generator.admits document) fun _ => True := by
  unfold admits
  split
  next => exact Yields.pure trivial
  next =>
    refine .ofRun fun budget admitted next h => ⟨?_, trivial⟩
    obtain ⟨⟨admitted, steps⟩, -, h⟩ := Result.bind_eq_ok.mp h
    cases h
    rfl

/-- What the tuples of a member are made of: at most one component has several keys. -/
structure Expands (components : List (List IndexComponent)) (keyCount : Nat) : Prop where
  nodup : ∀ values ∈ components, values.Nodup
  multi : (components.filter fun values => values.length ≠ 1).length ≤ 1
  count : keyCount = (components.map List.length).prod

theorem nodup_of_forall₂ (h : List.Forall₂ ComponentOf selected components) :
    ∀ values ∈ components, values.Nodup := by
  induction h with
  | nil => exact nofun
  | cons hvalue _ ih => exact forall_mem_cons.mpr ⟨hvalue.nodup, ih⟩

theorem filter_length_le (h : List.Forall₂ ComponentOf selected components) :
    (components.filter fun values => values.length ≠ 1).length ≤
      (selected.filter isArray).length := by
  induction h with
  | nil => exact Nat.le_refl 0
  | @cons value values _ _ hvalue _ ih =>
    rw [filter_cons, filter_cons]
    split
    next hlength =>
      have harray : isArray value = true := by
        by_contra hnot
        rw [Bool.not_eq_true] at hnot
        simp [hvalue.single hnot] at hlength
      simpa [harray] using ih
    next =>
      grind

theorem yields_memberComponents (document : BsonDocument) :
    Yields Budget.keys (generator.memberComponents document) fun found =>
      ∀ components keyCount, found = some (components, keyCount) → Expands components keyCount := by
  refine yields_step.bind fun _ _ => (yields_admits generator document).bind fun _ _ => ?_
  refine Yields.ite (fun _ => ?_) fun _ => ?_
  · exact yields_step.bind fun _ _ => .pure nofun
  refine .bind (.mapM _ fun path => yields_nestedValue path document) fun selected _ =>
    ?_
  refine .ite (fun _ => ?_) fun _ => ?_
  · exact yields_step.bind fun _ _ => .pure nofun
  refine .guard fun harrays => ?_
  refine (yields_foldlM_addComponents ⟨.nil, rfl⟩ selected).bind fun found hfound => ?_
  refine .pure fun components keyCount h => ?_
  cases h
  exact ⟨nodup_of_forall₂ hfound.1, (filter_length_le hfound.1).trans (not_lt.mp harrays), hfound.2⟩

theorem yields_expand (components : List (List IndexComponent)) (keyCount : Nat) :
    Yields Budget.keys (generator.expand components keyCount) fun keys =>
      keys = (List.range keyCount).map (tupleAt components) := by
  have hsize (values : List IndexComponent) :
      Yields Budget.keys (chargeComponent keyCount values) fun _ => True := by
    refine .bind (P := fun _ => True) (.foldlM trivial fun _ _ _ _ => ?_) fun _ _ =>
      yields_charge _
    exact yields_step.bind fun _ _ => .pure trivial
  have htuple (index : Nat) :
      Yields Budget.keys (buildTuple components index) fun key => tupleAt components index = key :=
    yields_step.bind fun _ _ => (Yields.forM _ fun _ => yields_step).bind fun _ _ => Yields.pure rfl
  refine (Yields.forM _ hsize).bind fun _ _ => (yields_charge _).bind fun _ _ => ?_
  refine (Yields.mapM _ htuple).bind fun keys hkeys => ?_
  refine yields_step.bind fun _ _ => .pure ?_
  have hmap := (forall₂_map_left_iff (f := tupleAt components)).mpr hkeys
  rw [forall₂_eq_eq_eq] at hmap
  exact hmap.symm

/-- Different positions have different tuples. -/
theorem tupleAt_inj {keyCount : Nat}
    (h : Expands components keyCount) {i j : Nat} (hi : i < keyCount) (hj : j < keyCount)
    (heq : tupleAt components i = tupleAt components j) : i = j := by
  obtain ⟨hnodup, hmulti, rfl⟩ := h
  have hlists := congrArg DocumentIndexKey.components heq
  clear heq
  unfold tupleAt at hlists
  induction components with
  | nil =>
    grind
  | cons values components ih =>
    simp only [map_cons, prod_cons, List.cons.injEq] at hi hj hlists
    obtain ⟨hhead, htail⟩ := hlists
    rw [filter_cons] at hmulti
    obtain ⟨hvalues, hrest⟩ := forall_mem_cons.mp hnodup
    by_cases hlength : values.length = 1
    · grind
    · -- the other components have a single key each
      have hnone : components.filter (fun values => values.length ≠ 1) = [] := by
        simpa [hlength] using hmulti
      have hone : (components.map List.length).prod = 1 := by
        refine prod_eq_one fun length hmem => ?_
        obtain ⟨others, hothers, rfl⟩ := mem_map.mp hmem
        simpa using filter_eq_nil_iff.mp hnone others hothers
      rw [hone, Nat.mul_one] at hi hj
      rw [if_neg hlength, if_neg hlength, getD_eq_getElem _ _ hi,
        getD_eq_getElem _ _ hj] at hhead
      exact (hvalues.getElem_inj_iff).mp hhead

theorem keysValidated_spec {document : BsonDocument} {budget next : Budget}
    {result : EngineResult (List DocumentIndexKey)} (hbudget : budget.keys ≤ maxKeys)
    (h : outcome (generator.keysValidated document) budget = (result, next)) :
    budget.keys ≤ next.keys ∧ next.keys ≤ maxKeys ∧
      ∀ keys, result = .ok keys → keys.Nodup ∧ next.keys = budget.keys + keys.length := by
  obtain ⟨hkept, hfound⟩ := yields_memberComponents generator document budget
  unfold keysValidated at h
  rw [outcome_bind] at h
  generalize outcome (generator.memberComponents document) budget = run at hkept hfound h
  obtain ⟨found, middle⟩ := run
  simp only at hkept hfound h
  rcases found with error | _ | ⟨components, keyCount⟩
  · grind
  · cases h
    simp [*]
  · have hexpands := hfound _ rfl _ _ rfl
    simp only at h
    rw [outcome_bind, outcome_addKeys] at h
    by_cases hfits : middle.keys + keyCount > maxKeys
    · rw [if_pos hfits] at h
      grind
    · rw [if_neg hfits] at h
      simp only at h
      obtain ⟨hexpanded, hkeys⟩ := yields_expand generator components keyCount
        { middle with keys := middle.keys + keyCount }
      rw [h] at hexpanded hkeys
      simp only at hexpanded hkeys
      rw [hexpanded, hkept]
      refine ⟨by omega, by omega, ?_⟩
      intro keys hok
      rw [hkeys keys hok]
      refine ⟨List.Nodup.map_on ?_ nodup_range, by simp⟩
      grind [tupleAt_inj]

end DocumentIndexKeyGenerator

namespace DocumentIndexKey

open IndexKeys IndexKeys.Budget

variable (key : DocumentIndexKey)

structure Bounded : Prop where
  length_le : key.components.length ≤ maxComponents
  value_le : ∀ value, .value value ∈ key.components → value.bytes.length ≤ maxValueBytes

theorem yields_addLength (length : Nat) (component : IndexComponent) :
    Yields Budget.keys (addLength length component) fun _ =>
      ∀ value, component = .value value → value.bytes.length ≤ maxValueBytes := by
  refine yields_step.bind fun _ _ => ?_
  refine Yields.bind (Yields.lift (P := fun _ =>
    ∀ value, component = .value value → value.bytes.length ≤ maxValueBytes) ?_) fun size hsize =>
      .guard fun _ => .pure hsize
  grind [componentLen]

theorem yields_encodedLen : Yields Budget.keys key.encodedLen fun _ => key.Bounded := by
  have hfold (components : List IndexComponent) (length : Nat) :
      Yields Budget.keys (components.foldlM addLength length) fun _ =>
        ∀ component ∈ components, ∀ value, component = .value value →
          value.bytes.length ≤ maxValueBytes := by
    induction components generalizing length with
    | nil => exact .pure nofun
    | cons component components ih =>
      rw [foldlM_cons]
      refine (yields_addLength length component).bind fun next hcomponent => ?_
      exact (ih next).mono fun _ hrest => forall_mem_cons.mpr ⟨hcomponent, hrest⟩
  refine yields_step.bind fun _ _ => .guard fun hcount => (hfold _ 12).bind fun _ hvalues =>
    ?_
  refine yields_step.bind fun _ _ => .pure ⟨?_, fun value hmem => hvalues _ hmem value rfl⟩
  exact not_lt.mp fun hlt => hcount (Or.inr hlt)

theorem yields_toBytes :
    Yields Budget.keys key.toBytes fun bytes => key.Bounded ∧ bytes = key.frame := by
  refine (yields_encodedLen key).bind fun _ hbounded => ?_
  refine (Yields.forM _ fun _ => yields_step.bind fun _ _ => yields_step).bind fun _ _ => ?_
  exact yields_step.bind fun _ _ => .pure ⟨hbounded, rfl⟩

theorem separates_componentCode {left right : IndexComponent}
    (hleft : ∀ value, left = .value value → value.bytes.length ≤ maxValueBytes)
    (hright : ∀ value, right = .value value → value.bytes.length ≤ maxValueBytes) :
    PrefixCode.Separates (left = right) (componentCode left) (componentCode right) := by
  have hwidth : maxValueBytes < 256 ^ 4 := by decide
  cases left with
  | emptyArray =>
    cases right with
    | emptyArray => exact (PrefixCode.Separates.of_length_eq rfl).imp fun _ => rfl
    | value other =>
      refine (PrefixCode.Separates.cons (P := False) ?_).imp fun h => h.2.elim
      exact nofun
  | value key =>
    cases right with
    | emptyArray =>
      refine (PrefixCode.Separates.cons (P := False) ?_).imp fun h => h.2.elim
      exact nofun
    | value other =>
      have hblock := PrefixCode.separates_block ((hleft key rfl).trans_lt hwidth)
        ((hright other rfl).trans_lt hwidth)
      refine (PrefixCode.Separates.cons fun _ => hblock).imp ?_
      rintro ⟨-, hbytes⟩
      cases key
      cases other
      cases hbytes
      rfl

theorem frame_inj {left right : DocumentIndexKey} (hleft : left.Bounded) (hright : right.Bounded)
    (h : left.frame = right.frame) : left = right := by
  have hwidth : maxComponents < 256 ^ 4 := by decide
  have hcomponents := PrefixCode.separates_counted (hleft.length_le.trans_lt hwidth)
    (hright.length_le.trans_lt hwidth) fun a ha b hb =>
      separates_componentCode (fun value hvalue => hleft.value_le value (hvalue ▸ ha))
        fun value hvalue => hright.value_le value (hvalue ▸ hb)
  have heq := hcomponents.of_eq (append_cancel_left h)
  cases left
  cases right
  cases heq
  rfl

end DocumentIndexKey

end BriskDB.Document
