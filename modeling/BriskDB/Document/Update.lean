import BriskDB.Document.Key
import BriskDB.Document.Sorter

/-! # Field updates

A compiled updater runs its operations in the order of the specification on a private
copy of the document, and gives the `_id` back its stored representation at the end.
The conditions of `$pull` and the floating arithmetic of `$inc` come from elsewhere:
they are parameters of the model. The caller's cooperative check is left out; every
charge and every step of the work budget is here.
-/

namespace BriskDB.Document

namespace DocumentUpdater

def maxSpecBytes : Nat := 1024 * 1024
def maxOperations : Nat := 4096
def maxRetainedBytes : Nat := 64 * 1024 * 1024
def maxSteps : Nat := 1000000
def maxComparisonBytes : Nat := 64 * 1024 * 1024
def maxPushSortFields : Nat := 32

end DocumentUpdater

inductive DocumentUpdateError
  | invalidExpression
  | badValue
  | typeMismatch
  | unsupportedOperator
  | invalidPath
  | conflictingPaths
  | pathNotViable
  deriving DecidableEq

namespace DocumentUpdateError

def display : DocumentUpdateError → String
  | invalidExpression => "update requires operator documents"
  | badValue => "update operand or rename path is invalid"
  | typeMismatch => "update target has an invalid BSON type"
  | unsupportedOperator => "update operator or positional path is not supported"
  | invalidPath => "update path contains an empty component"
  | conflictingPaths => "update paths overlap"
  | pathNotViable => "update path cannot traverse this value"

def error (failure : DocumentUpdateError) : EngineError :=
  .new (if failure = unsupportedOperator then .unsupported else .invalidArgument) failure.display

end DocumentUpdateError

namespace DocumentMutationError

def immutableId : EngineError :=
  .new .invalidArgument "document mutation cannot change the semantic _id"

end DocumentMutationError

namespace DocumentUpdater

open DocumentUpdateError DocumentMutationError

def limit : EngineError := .new .limitExceeded "document update resource limit exceeded"

structure Budget where
  bytes : Nat
  comparisonBytes : Nat
  steps : Nat

abbrev Work (α : Type) := StateT Budget (Except EngineError) α

namespace Budget

def stepped (budget : Budget) : EngineResult Budget :=
  if budget.steps + 1 > maxSteps then .error limit
  else .ok { budget with steps := budget.steps + 1 }

def step : Work Unit := fun budget => return ((), ← budget.stepped)

def stepMany (count : Nat) : Work Unit := (List.range count).forM fun _ => step

def charge (amount : Nat) : Work Unit := fun budget =>
  if budget.bytes + amount ≤ maxRetainedBytes then
    .ok ((), { budget with bytes := budget.bytes + amount })
  else .error limit

def cloneValue (value : BsonValue) : Work BsonValue := do
  let (bytes, _) ← (Memory.valueBytes (fun state : Unit => .ok state) maxRetainedBytes value () :
    EngineResult (Nat × Unit))
  charge bytes
  return value

def comparisonValue (value : BsonValue) : Work Unit := fun budget => do
  let (bytes, budget) ← Memory.valueBytes stepped
    (maxComparisonBytes - budget.comparisonBytes) value budget
  return ((), { budget with comparisonBytes := budget.comparisonBytes + bytes })

end Budget

/-- How a path component may name an array element: in decimal, without leading zeros. -/
def isArrayComponent (component : String) : Bool :=
  component = "0" || (component.toList.head? ≠ some '0' && component.toList.all Char.isDigit)

def parseIndex (component : String) : Option Nat :=
  if component.isEmpty then none else DocumentSorter.parseUsize component

def chargeRetained (retained amount : Nat) : EngineResult Nat :=
  if retained + amount ≤ maxRetainedBytes then .ok (retained + amount) else .error limit

def compilePath (path : String) (rename : Bool) (retained : Nat) :
    EngineResult (List String × Nat) := do
  let components := (splitPath path).length
  if components > 100 then throw limit
  let retained ← chargeRetained retained (components * 128 + (Utf8.bytes path).length + 128)
  if containsNul path then throw badValue.error
  let parts := splitPath path
  if parts.any (·.isEmpty) then throw invalidPath.error
  if parts.any DocumentSorter.startsWithDollar then
    throw (if rename then badValue else unsupportedOperator).error
  return (parts, retained)

inductive Action
  | set (value : BsonValue)
  | unset
  | min (value : BsonValue)
  | max (value : BsonValue)

namespace Action

def value : Action → Option BsonValue
  | set value | min value | max value => some value
  | unset => none

def replaces (action : Action) (current : BsonValue) : Work Bool :=
  let compared (value : BsonValue) (wanted : Ordering) : Work Bool := do
    Budget.comparisonValue current
    Budget.comparisonValue value
    let order := value.cmp current
    Budget.step
    return order = wanted
  match action with
  | set _ => return true
  | unset => return false
  | min value => compared value .lt
  | max value => compared value .gt

end Action

/-- The first entry of a name, between what stands before and after it. -/
def locate (name : String) : BsonDocument → Work (Option (BsonDocument × BsonValue × BsonDocument))
  | [] => return none
  | (field, value) :: entries => do
    Budget.step
    if field = name then return some ([], value, entries)
    else
      match ← locate name entries with
      | none => return none
      | some (before, found, after) => return some ((field, value) :: before, found, after)

variable (action : Action)

/-- `write_document` at its first component; `deeper` writes the rest of the path, if any. -/
def writeEntry (component : String)
    (deeper : Option (BsonValue → Work BsonValue)) (document : BsonDocument) :
    Work BsonDocument := do
  Budget.step
  match deeper, ← locate component document, action.value with
  | none, some (before, current, after), some value => do
    if ← action.replaces current then
      return before ++ (component, ← Budget.cloneValue value) :: after
    else return document
  | none, some (before, _, after), none => return before ++ after
  | none, none, some value => do
    Budget.charge ((Utf8.bytes component).length + 128)
    let value ← Budget.cloneValue value
    (BsonDocument.push document component value).toEngine .clientInput
  | _, none, none => return document
  | some deeper, some (before, current, after), _ =>
    return before ++ (component, ← deeper current) :: after
  | some deeper, none, some _ => do
    Budget.charge ((Utf8.bytes component).length + 256)
    -- the missing parent, checked like any other field name
    let _ ← ((BsonDocument.push document component (.document [])).toEngine .clientInput :
      EngineResult BsonDocument)
    return document ++ [(component, ← deeper (.document []))]

def writeElement (arrayPaths : Bool) (component : String)
    (deeper : Option (BsonValue → Work BsonValue)) (values : List BsonValue) :
    Work (List BsonValue) := do
  if !isArrayComponent component then
    if action.value.isNone then return values else throw pathNotViable.error
  else if !arrayPaths then throw badValue.error
  else
    match parseIndex component, action.value with
    | none, none => return values
    | none, some _ => throw limit
    | some index, operand =>
      match values[index]?, operand with
      | none, none => return values
      | none, some value => do
        -- the gap up to the index is filled with null
        Budget.charge ((index + 1 - values.length) * 128)
        let padded := values ++ List.replicate (index - values.length) .null
        match deeper with
        | none => return padded ++ [← Budget.cloneValue value]
        | some deeper => return padded ++ [← deeper (.document [])]
      | some current, operand =>
        match deeper, operand with
        | none, some value => do
          if ← action.replaces current then
            return values.set index (← Budget.cloneValue value)
          else return values
        | none, none => return values.set index .null
        | some deeper, _ => return values.set index (← deeper current)

def writeValue (action : Action) (arrayPaths : Bool) : List String → BsonValue → Work BsonValue
  | [], target => return target
  | component :: rest, target => do
    Budget.step
    let deeper :=
      match rest with
      | [] => none
      | _ :: _ => some (writeValue action arrayPaths rest)
    match target with
    | .document document => return .document (← writeEntry action component deeper document)
    | .array values => return .array (← writeElement action arrayPaths component deeper values)
    | _ => if action.value.isNone then return target else throw pathNotViable.error

def writeDocument (arrayPaths : Bool) (path : List String)
    (document : BsonDocument) : Work BsonDocument :=
  match path with
  | [] => return document
  | [component] => writeEntry action component none document
  | component :: rest => writeEntry action component
    (some (writeValue action arrayPaths rest)) document

variable {α : Type}

def existingEntry (deeper : BsonValue → Work (Option α × BsonValue)) (component : String)
    (document : BsonDocument) : Work (Option α × BsonDocument) := do
  Budget.step
  match ← locate component document with
  | none => return (none, document)
  | some (before, value, after) => do
    let (answer, value) ← deeper value
    return (answer, before ++ (component, value) :: after)

def existingValue (use : BsonValue → Work (α × BsonValue)) (arrayPaths : Bool) :
    List String → BsonValue → Work (Option α × BsonValue)
  | [], value => do
    Budget.step
    let (answer, value) ← use value
    return (some answer, value)
  | component :: rest, value => do
    Budget.step
    match value with
    | .document document => do
      let (answer, document) ←
        existingEntry (existingValue use arrayPaths rest) component document
      return (answer, .document document)
    | .array values =>
      if !isArrayComponent component then throw pathNotViable.error
      else if !arrayPaths then throw badValue.error
      else
        match (parseIndex component).bind fun index =>
            values[index]?.map fun current => (index, current) with
        | none => return (none, value)
        | some (index, current) => do
          let (answer, current) ← existingValue use arrayPaths rest current
          return (answer, .array (values.set index current))
    | _ => throw pathNotViable.error

def existingDocumentValue (use : BsonValue → Work (α × BsonValue)) (arrayPaths : Bool)
    (path : List String) (document : BsonDocument) : Work (Option α × BsonDocument) :=
  match path with
  | [] => return (none, document)
  | component :: rest => existingEntry (existingValue use arrayPaths rest) component document

def popDocument (path : List String) (front : Bool) (document : BsonDocument) :
    Work BsonDocument := do
  let use (value : BsonValue) : Work (Unit × BsonValue) :=
    match value with
    | .array values => do
      if values.isEmpty then return ((), value)
      else
        Budget.stepMany values.length
        return ((), .array (if front then values.drop 1 else values.dropLast))
    | _ => throw typeMismatch.error
  return (← existingDocumentValue use true path document).2

def renameDocument (source target : List String) (document : BsonDocument) :
    Work BsonDocument := do
  -- the reference is only read
  let (found, _) ← existingDocumentValue (fun value => return (value, value)) false source document
  match found with
  | none => return document
  | some value => do
    if source.head? = some "_id" ∨ target.head? = some "_id" then throw immutableId
    else
      let value ← Budget.cloneValue value
      let document ← writeDocument .unset false source document
      writeDocument (.set value) false target document

def containsValue (candidate : BsonValue) : List BsonValue → Work Bool
  | [] => return false
  | existing :: values => do
    Budget.comparisonValue existing
    Budget.comparisonValue candidate
    let equal := existing.eq candidate
    Budget.step
    if equal then return true else containsValue candidate values

def addUnique (values candidates : List BsonValue) : Work (List BsonValue) :=
  candidates.foldlM (fun values candidate => do
    Budget.step
    if ← containsValue candidate values then return values
    else
      Budget.charge 128
      return values ++ [← Budget.cloneValue candidate]) values

/-- Order-preserving compaction: the elements a fallible test does not remove. -/
def compact (removes : BsonValue → Work Bool) : List BsonValue → Work (List BsonValue)
  | [] => return []
  | value :: values => do
    Budget.step
    if ← removes value then compact removes values
    else return value :: (← compact removes values)

def arrayMembershipDocument (path : List String) (candidates : List BsonValue) (remove : Bool)
    (document : BsonDocument) : Work BsonDocument := do
  let use (value : BsonValue) : Work (Unit × BsonValue) :=
    match value with
    | .array values => do
      if remove then
        if candidates.isEmpty then return ((), value)
        else return ((), .array (← compact (fun value => containsValue value candidates) values))
      else return ((), .array (← addUnique values candidates))
    | _ => throw badValue.error
  match ← existingDocumentValue use true path document with
  | (some _, document) => return document
  | (none, _) =>
    if remove then return document
    else
      let values ← addUnique [] candidates
      writeDocument (.set (.array values)) true path document

def checkedWord (value : Nat) : Option Nat := if value < 2 ^ 64 then some value else none

/-- A sign and a magnitude capped at the largest machine word. -/
structure PushInteger where
  negative : Bool
  magnitude : Nat

namespace PushInteger

def compile (value : BsonValue) : EngineResult PushInteger :=
  match value.canonicalNumber with
  | some (.finite number) =>
    if number.exponentTwo < 0 ∨ number.exponentFive < 0 then .error badValue.error
    else
      let magnitude := do
        let coefficient ← checkedWord number.coefficient
        let power ← checkedWord (2 ^ number.exponentTwo.toNat)
        let value ← checkedWord (coefficient * power)
        let power ← checkedWord (5 ^ number.exponentFive.toNat)
        checkedWord (value * power)
      .ok ⟨number.negative, magnitude.getD (2 ^ 64 - 1)⟩
  | _ => .error badValue.error

def position (integer : PushInteger) (length : Nat) : Nat :=
  if integer.negative then length - integer.magnitude else min integer.magnitude length

end PushInteger

inductive PushSort
  | byValue (descending : Bool)
  | byFields (fields : List (List String × Bool))

namespace PushSort

def direction (value : BsonValue) : Option Bool :=
  if value.eq (.int32 1) then some false
  else if value.eq (.int32 (-1)) then some true
  else none

def compileField (state : List (List String × Bool) × Nat) (entry : String × BsonValue) :
    EngineResult (List (List String × Bool) × Nat) := do
  let (fields, retained) := state
  match direction entry.2 with
  | none => throw badValue.error
  | some descending =>
    let components := (splitPath entry.1).length
    if components > 100 then throw limit
    let retained ← chargeRetained retained
      (components * 128 + (Utf8.bytes entry.1).length + 128)
    return (fields ++ [(splitPath entry.1, descending)], retained)

def compile (value : BsonValue) (retained : Nat) : EngineResult (PushSort × Nat) :=
  match direction value, value with
  | some descending, _ => .ok (.byValue descending, retained)
  | none, .document fields => do
    if fields.isEmpty then throw badValue.error
    if fields.length > maxPushSortFields then throw limit
    let (fields, retained) ← fields.foldlM compileField ([], retained)
    return (.byFields fields, retained)
  | none, _ => .error badValue.error

def findField (component : String) : BsonDocument → Work (Option BsonValue)
  | [] => return none
  | (field, candidate) :: entries => do
    Budget.step
    if field = component then return some candidate else findField component entries

def fieldValue : List String → BsonValue → Work BsonValue
  | [], value => return value
  | component :: path, value => do
    Budget.step
    match value with
    | .document document =>
      match ← findField component document with
      | some next => fieldValue path next
      | none => return .null
    | _ => return .null

def compareValues (left right : BsonValue) (descending : Bool) : Work Ordering := do
  Budget.comparisonValue left
  Budget.comparisonValue right
  let order := left.cmp right
  Budget.step
  return if descending then order.swap else order

def compareFields (left right : BsonValue) : List (List String × Bool) → Work Ordering
  | [] => return .eq
  | (path, descending) :: fields => do
    let order ← compareValues (← fieldValue path left) (← fieldValue path right) descending
    if order ≠ .eq then return order else compareFields left right fields

def compare (sort : PushSort) (left right : BsonValue) : Work Ordering :=
  match sort with
  | byValue descending => compareValues left right descending
  | byFields fields => compareFields left right fields

section Merging

variable (sort : PushSort) (values : List BsonValue)

def valueAt (place : Nat) : BsonValue := values.getD place .null

def takesLeft (source : List Nat) (middle stop left right : Nat) : Work Bool :=
  if right = stop then return true
  else if left < middle then do
    let order ← sort.compare (valueAt values (source.getD left 0))
      (valueAt values (source.getD right 0))
    return order ≠ .gt
  else return false

def mergeSlots (source : List Nat) (middle stop : Nat) : Nat → Nat → Nat → Work (List Nat)
  | 0, _, _ => return []
  | slots + 1, left, right => do
    Budget.step
    if ← takesLeft sort values source middle stop left right then
      return source.getD left 0 :: (← mergeSlots source middle stop slots (left + 1) right)
    else
      return source.getD right 0 :: (← mergeSlots source middle stop slots left (right + 1))

/-- One pass: neighbouring runs of the given width are merged, at most so many pairs. -/
def mergePass (source : List Nat) (width : Nat) : Nat → Nat → Work (List Nat)
  | 0, _ => return []
  | runs + 1, start =>
    if start < values.length then do
      let middle := min (saturatingAdd start width) values.length
      let stop := min (saturatingAdd middle width) values.length
      let merged ← mergeSlots sort values source middle stop (stop - start) start middle
      return merged ++ (← mergePass source width runs stop)
    else return []

/-- Passes of doubling width, until one run is left. -/
def mergePasses : Nat → Nat → List Nat → Work (List Nat)
  | 0, _, source => return source
  | passes + 1, width, source =>
    if width < values.length then do
      let source ← mergePass sort values source width values.length 0
      mergePasses passes ((checkedWord (width * 2)).getD values.length) source
    else return source

end Merging

def takeValues : List Nat → List BsonValue → List BsonValue
  | [], _ => []
  | place :: places, values => valueAt values place :: takeValues places (values.set place .null)

def apply (sort : PushSort) (values : List BsonValue) : Work (List BsonValue) := do
  let length := values.length
  if length < 2 then return values
  else
    Budget.charge (length * (2 * 8 + 128))
    Budget.stepMany length
    let source ← mergePasses sort values length 1 (List.range length)
    Budget.stepMany length
    return takeValues source values

end PushSort

structure Push where
  additions : List BsonValue
  position : Option PushInteger
  sort : Option PushSort
  slice : Option PushInteger

namespace Push

def modifiers : List String := ["$each", "$position", "$sort", "$slice"]

def compileOption {β : Type} (value : Option BsonValue) (compile : BsonValue → EngineResult β) :
    EngineResult (Option β) :=
  match value with
  | none => .ok none
  | some value => return some (← compile value)

def compile (value : BsonValue) (retained : Nat) : EngineResult (Push × Nat) :=
  match value with
  | .document entries =>
    if entries.any (DocumentSorter.startsWithDollar ·.1) then do
      if entries.any fun entry => !modifiers.contains entry.1 then throw badValue.error
      match BsonDocument.getFirst entries "$each" with
      | some (.array additions) => do
        let position ← compileOption (BsonDocument.getFirst entries "$position")
          PushInteger.compile
        let slice ← compileOption (BsonDocument.getFirst entries "$slice") PushInteger.compile
        let sort ← compileOption (BsonDocument.getFirst entries "$sort")
          (PushSort.compile · retained)
        return (⟨additions, position, sort.map (·.1), slice⟩,
          sort.elim retained fun compiled => compiled.2)
      | _ => throw badValue.error
    else .ok (⟨[value], none, none, none⟩, retained)
  | _ => .ok (⟨[value], none, none, none⟩, retained)

def applySlice (push : Push) (values : List BsonValue) : Work (List BsonValue) :=
  match push.slice with
  | none => return values
  | some slice => do
    let keep := min slice.magnitude values.length
    Budget.stepMany values.length
    return if slice.negative then values.drop (values.length - keep) else values.take keep

def applyArray (push : Push) (values : List BsonValue) : Work (List BsonValue) := do
  let position := push.position.elim values.length fun integer => integer.position values.length
  Budget.charge (push.additions.length * 128)
  let added ← push.additions.mapM fun value => do
    Budget.step
    Budget.cloneValue value
  Budget.stepMany (values.length + added.length - position)
  let values := values ++ added
  let values := values.take position ++ (values.drop position).rotateRight added.length
  match push.sort with
  | none => push.applySlice values
  | some sort => push.applySlice (← sort.apply values)

def applyDocument (push : Push) (path : List String) (document : BsonDocument) :
    Work BsonDocument := do
  let use (value : BsonValue) : Work (Unit × BsonValue) :=
    match value with
    | .array values => return ((), .array (← push.applyArray values))
    | _ => throw badValue.error
  match ← existingDocumentValue use true path document with
  | (some _, document) => return document
  | (none, _) => do
    let values ← push.applyArray []
    writeDocument (.set (.array values)) true path document

end Push

/-- The conditions of `$pull`, with the charge for keeping one, and floating arithmetic. -/
structure Services (Matcher : Type) where
  compilePull : BsonValue → Nat → EngineResult (Matcher × Nat)
  matchesPull : Matcher → BsonValue → Work Bool
  addF64 : F64 → F64 → F64
  f64OfInt : Int → F64
  incrementDecimal : BsonValue → BsonValue → BsonValue

variable {Matcher : Type} (services : Services Matcher)

/-- The equality of the processor: NaN equals nothing, the two zeros are equal. -/
def sameF64 (left right : F64) : Bool :=
  !left.isNan && !right.isNan && (left = right || (left.isZero && right.isZero))

def toF64 : BsonValue → F64
  | .int32 value => services.f64OfInt value.toInt
  | .int64 value => services.f64OfInt value.toInt
  | .double value => value
  | _ => F64.nan

def toInteger : BsonValue → Int
  | .int32 value => value.toInt
  | .int64 value => value.toInt
  | _ => 0

def isDecimal : BsonValue → Bool
  | .decimal128 _ => true
  | _ => false

def isDouble : BsonValue → Bool
  | .double _ => true
  | _ => false

def addDoubles (left right : BsonValue) : BsonValue :=
  let sum := services.addF64 (toF64 services left) (toF64 services right)
  let fresh := BsonValue.double (if sum.isNan then F64.nan else sum)
  match left with
  | .double original => if sameF64 sum original then left else fresh
  | _ => fresh

def fits (bits : Nat) (value : Int) : Bool := -2 ^ bits ≤ value ∧ value < 2 ^ bits

def add (left right : BsonValue) : EngineResult BsonValue :=
  if isDecimal left || isDecimal right then .ok (services.incrementDecimal left right)
  else if isDouble left || isDouble right then .ok (addDoubles services left right)
  else
    let sum := toInteger left + toInteger right
    match left, right with
    | .int32 _, .int32 _ =>
      .ok (if fits 31 sum then .int32 (Int32.ofInt sum) else .int64 (Int64.ofInt sum))
    | _, _ => if fits 63 sum then .ok (.int64 (Int64.ofInt sum)) else .error badValue.error

/-- `increment::apply`: the document, and whether an unchanged one counts as executed. -/
def incrementDocument (path : List String) (operand : BsonValue) (document : BsonDocument) :
    Work (Bool × BsonDocument) := do
  Budget.step
  Budget.charge 4096
  let use (current : BsonValue) : Work (Bool × BsonValue) := do
    match current.canonicalNumber with
    | none => throw typeMismatch.error
    | some number => do
      let result ← add services current operand
      Budget.step
      return (number matches .nan, result)
  match ← existingDocumentValue use true path document with
  | (some forceModified, document) => return (forceModified, document)
  | (none, _) => return (false, ← writeDocument (.set operand) true path document)

def pullDocument (path : List String) (matcher : Matcher) (document : BsonDocument) :
    Work BsonDocument := do
  let use (value : BsonValue) : Work (Unit × BsonValue) :=
    match value with
    | .array values => return ((), .array (← compact (services.matchesPull matcher) values))
    | _ => throw badValue.error
  return (← existingDocumentValue use true path document).2

inductive OperationAction (Matcher : Type)
  | field (action : Action)
  | pop (front : Bool)
  | rename (target : List String)
  | arrayMembership (values : List BsonValue) (remove : Bool)
  | push (push : Push)
  | pull (matcher : Matcher)
  | increment (value : BsonValue)

structure Operation (Matcher : Type) where
  path : List String
  action : OperationAction Matcher

def addToSetValues (value : BsonValue) : EngineResult (List BsonValue) :=
  match value with
  | .document modifiers =>
    if modifiers.any (DocumentSorter.startsWithDollar ·.1) then
      if modifiers.length ≠ 1 then .error badValue.error
      else
        match BsonDocument.getFirst modifiers "$each" with
        | some (.array values) => .ok values
        | _ => .error badValue.error
    else .ok [value]
  | _ => .ok [value]

inductive Operator
  | set
  | unset
  | min
  | max
  | pop
  | rename
  | addToSet
  | pullAll
  | push
  | pull
  | inc
  deriving DecidableEq

def operatorOf (name : String) : EngineResult Operator :=
  match name with
  | "$set" => .ok .set
  | "$unset" => .ok .unset
  | "$min" => .ok .min
  | "$max" => .ok .max
  | "$pop" => .ok .pop
  | "$rename" => .ok .rename
  | "$addToSet" => .ok .addToSet
  | "$pullAll" => .ok .pullAll
  | "$push" => .ok .push
  | "$pull" => .ok .pull
  | "$inc" => .ok .inc
  | _ =>
    if DocumentSorter.startsWithDollar name then .error unsupportedOperator.error
    else .error invalidExpression.error

def compileRename (path : List String) (value : BsonValue) (retained : Nat) :
    EngineResult (OperationAction Matcher × Nat) :=
  match value with
  | .string target => do
    let (target, retained) ← compilePath target true retained
    if target.isPrefixOf path ∨ path.isPrefixOf target then throw badValue.error
    return (.rename target, retained)
  | _ => .error badValue.error

def compileAction (operator : Operator) (path : List String) (value : BsonValue)
    (retained : Nat) : EngineResult (OperationAction Matcher × Nat) :=
  match operator with
  | .set => .ok (.field (.set value), retained)
  | .unset => .ok (.field .unset, retained)
  | .min => .ok (.field (.min value), retained)
  | .max => .ok (.field (.max value), retained)
  | .inc =>
    if value.canonicalNumber.isNone then .error typeMismatch.error
    else .ok (.increment value, retained)
  | .pop =>
    if value.eq (.int32 (-1)) then .ok (.pop true, retained)
    else if value.eq (.int32 1) then .ok (.pop false, retained)
    else .error invalidExpression.error
  | .rename => compileRename path value retained
  | .addToSet => do return (.arrayMembership (← addToSetValues value) false, retained)
  | .pullAll =>
    match value with
    | .array values => .ok (.arrayMembership values true, retained)
    | _ => .error badValue.error
  | .push => do
    let (push, retained) ← Push.compile value retained
    return (.push push, retained)
  | .pull => do
    let (matcher, retained) ← services.compilePull value retained
    return (.pull matcher, retained)

def compileField (operator : Operator) (state : List (Operation Matcher) × Nat)
    (entry : String × BsonValue) : EngineResult (List (Operation Matcher) × Nat) := do
  let (operations, retained) := state
  if operations.length = maxOperations then throw limit
  let (path, retained) ← compilePath entry.1 (operator = .rename) retained
  let (action, retained) ← compileAction services operator path entry.2 retained
  return (operations ++ [⟨path, action⟩], retained)

def compileOperator (state : List (Operation Matcher) × Nat) (entry : String × BsonValue) :
    EngineResult (List (Operation Matcher) × Nat) := do
  let operator ← operatorOf entry.1
  match entry.2 with
  | .document fields => fields.foldlM (compileField services operator) state
  | _ => throw invalidExpression.error

def Operation.paths (operation : Operation Matcher) : List (List String) :=
  match operation.action with
  | .rename target => [operation.path, target]
  | _ => [operation.path]

def pathLe (left right : List String) : Bool :=
  left.map Utf8.bytes ≤ right.map Utf8.bytes

def overlaps : List (List String) → Bool
  | first :: second :: paths => first.isPrefixOf second || overlaps (second :: paths)
  | _ => false

end DocumentUpdater

structure DocumentUpdater (Matcher : Type) where
  operations : List (DocumentUpdater.Operation Matcher)
  retainedBytes : Nat

namespace DocumentUpdater

open DocumentUpdateError DocumentMutationError

variable {Matcher : Type} (services : Services Matcher) (updater : DocumentUpdater Matcher)

def paths : List (List String) :=
  updater.operations.flatMap Operation.paths

def compile [BsonWire.Crate] (spec : BsonDocument) : EngineResult (DocumentUpdater Matcher) := do
  let _ ← (encodeDocumentWithOptions spec
    { BsonCodecOptions.new with maxDocumentBytes := maxSpecBytes }).toEngine .clientInput
  if spec.isEmpty then throw invalidExpression.error
  let (retained, _) ← Memory.documentBytes (fun state : Unit => .ok state) maxRetainedBytes spec ()
  let (operations, retained) ← spec.foldlM (compileOperator services) ([], retained)
  if overlaps ((operations.flatMap Operation.paths).mergeSort pathLe) then
    throw conflictingPaths.error
  return ⟨operations, retained⟩

/-- One operation: the document, and whether it forces the write to count. -/
def applyOperation (state : BsonDocument × Bool) (operation : Operation Matcher) :
    Work (BsonDocument × Bool) := do
  let (document, forceModified) := state
  match operation.action with
  | .increment value => do
    let (force, document) ← incrementDocument services operation.path value document
    return (document, forceModified || force)
  | .field action => return (← writeDocument action true operation.path document, forceModified)
  | .pop front => return (← popDocument operation.path front document, forceModified)
  | .rename target => return (← renameDocument operation.path target document, forceModified)
  | .arrayMembership values remove =>
    return (← arrayMembershipDocument operation.path values remove document, forceModified)
  | .push push => return (← push.applyDocument operation.path document, forceModified)
  | .pull matcher => return (← pullDocument services operation.path matcher document, forceModified)

def replaceFirst (name : String) (value : BsonValue) : BsonDocument → BsonDocument
  | [] => []
  | (field, current) :: entries =>
    if field = name then (field, value) :: entries
    else (field, current) :: replaceFirst name value entries

/-- The semantic `_id` may not change, and keeps its representation. -/
def restoreId (original result : BsonDocument) : EngineResult BsonDocument :=
  match BsonDocument.getFirst original "_id" with
  | none => .ok result
  | some originalId =>
    match BsonDocument.getFirst result "_id" with
    | none => .error immutableId
    | some id => do
      let key ← (CanonicalBsonKey.encode id).toEngine .clientInput
      let originalKey ← (CanonicalBsonKey.encode originalId).toEngine .clientInput
      if key.bytes ≠ originalKey.bytes then throw immutableId
      return replaceFirst "_id" originalId result

def applyForWrite [BsonWire.Crate] (document : BsonDocument) :
    EngineResult (BsonDocument × Bool) := do
  let _ ← (encodeDocument document).toEngine .clientInput
  let (inputBytes, _) ←
    Memory.documentBytes (fun state : Unit => .ok state) maxRetainedBytes document ()
  let run : Work (BsonDocument × Bool) := do
    Budget.charge (inputBytes * 2)
    updater.operations.foldlM (applyOperation services) (document, false)
  let ((result, forceModified), _) ← run ⟨updater.retainedBytes, 0, 0⟩
  let result ← restoreId document result
  let _ ← (encodeDocument result).toEngine .clientInput
  return (result, forceModified)

def apply [BsonWire.Crate] (document : BsonDocument) :
    EngineResult BsonDocument := do
  return (← updater.applyForWrite services document).1

end DocumentUpdater

end BriskDB.Document
