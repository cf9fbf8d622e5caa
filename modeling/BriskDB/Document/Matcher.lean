import BriskDB.Document.Sorter

/-!
# Document matching

A filter is compiled once into clauses over dotted paths and then decided for one document
at a time. A path that meets arrays has several candidates; a positive predicate needs one
of them, a negative one needs all of them. Compilation and evaluation are bounded.
-/

namespace BriskDB.Document.Matcher

open DocumentSorter (isArrayIndex parseUsize startsWithDollar)

def maxQueryBytes : Nat := 1024 * 1024
def maxQueryNodes : Nat := 4096
def maxQueryDepth : Nat := 100
def maxPathCandidates : Nat := 16384
def maxMatchSteps : Nat := 1000000
def maxRegexCount : Nat := 32
def maxRegexBytes : Nat := 4096

def limit : EngineError := .new .limitExceeded "document matcher resource limit exceeded"

/-- The translation of a pattern with its flags, and a search that may give up. -/
structure RegexEngine (Expression : Type) where
  build : String → String → EngineResult Expression
  isMatch : Expression → String → Option Bool

structure CompiledRegex (Expression : Type) where
  identity : BsonRegex
  expression : Option Expression

inductive Logical
  | and
  | or
  | nor
  deriving DecidableEq

mutual

inductive DocumentMatcher (Expression : Type)
  | mk (clauses : List (Clause Expression)) (retainedBytes : Nat)

/-- A path is never empty: it has a first part and the remaining ones. -/
inductive Clause (Expression : Type)
  | field (part : String) (remaining : List String) (exactId : Bool)
      (predicates : List (Predicate Expression))
  | logical (kind : Logical) (children : List (DocumentMatcher Expression))

inductive Predicate (Expression : Type)
  | equal (value : BsonValue)
  | notEqual (value : BsonValue)
  | range (operand : BsonValue) (greater inclusive : Bool)
  | present (expected : Bool)
  | member (members : List (Member Expression)) (negative : Bool)
  | all (members : List (Member Expression))
  | element (element : Element Expression)
  | not (predicates : List (Predicate Expression))
  | regex (regex : CompiledRegex Expression)
  | size (size : Nat)
  | types (names : List String)
  | mod (divisor remainder : Int)

inductive Member (Expression : Type)
  | literal (value : BsonValue)
  | regex (regex : CompiledRegex Expression)
  | element (element : Element Expression)

inductive Element (Expression : Type)
  | fields (predicates : List (Predicate Expression))
  | document (matcher : DocumentMatcher Expression)

end

variable {Expression : Type} (engine : RegexEngine Expression)

def truthy : BsonValue → Bool
  | .null => false
  | .boolean value => value
  | .int32 value => value ≠ 0
  | .int64 value => value ≠ 0
  | .double value => CanonicalNumber.fromF64 value ≠ .fromInt32 0
  | .string value => value ≠ ""
  | .array values => !values.isEmpty
  | .document entries => !entries.isEmpty
  | .binary value => !value.bytes.isEmpty
  | .javaScript code _ => code ≠ ""
  | _ => true

/-- The number as a 64-bit integer, if it is one or may be truncated to one. -/
def integer (value : BsonValue) (truncate : Bool) : Option Int := do
  let .finite number ← value.canonicalNumber | none
  let numerator := number.coefficient * 2 ^ number.exponentTwo.toNat * 5 ^ number.exponentFive.toNat
  let denominator := 2 ^ (-number.exponentTwo).toNat * 5 ^ (-number.exponentFive).toNat
  if !truncate && numerator % denominator ≠ 0 then none
  let magnitude : Int := numerator / denominator
  let integer := if number.negative then -magnitude else magnitude
  if -2 ^ 63 ≤ integer ∧ integer < 2 ^ 63 then some integer else none

def typeNames : List (Int × String) :=
  [(-1, "minKey"), (1, "double"), (2, "string"), (3, "object"), (4, "array"), (5, "binData"),
    (6, "undefined"), (7, "objectId"), (8, "bool"), (9, "date"), (10, "null"), (11, "regex"),
    (12, "dbPointer"), (13, "javascript"), (14, "symbol"), (15, "javascriptWithScope"),
    (16, "int"), (17, "timestamp"), (18, "long"), (19, "decimal"), (127, "maxKey")]

def typeName (value : BsonValue) : EngineResult String :=
  let found (name : Option String) : EngineResult String :=
    match name with
    | some name => .ok name
    | none => .error (queryError 2)
  match value with
  | .string name =>
    if name = "number" then .ok name
    else found ((typeNames.map (·.2)).find? (· = name))
  | value =>
    if value.canonicalNumber.isSome then
      found ((integer value false).bind (typeNames.lookup ·))
    else .error (queryError 14)

def types (operand : BsonValue) : EngineResult (List String) := do
  let values :=
    match operand with
    | .array values => values
    | value => [value]
  if values.isEmpty then throw (queryError 9)
  if values.length > maxQueryNodes then throw limit
  values.foldlM (fun result value => do
    let name ← typeName value
    return if result.contains name then result else result ++ [name]) []

/-- Integers are classified by their range, whatever their stored width. -/
def typeMatches (value : BsonValue) (name : String) : Bool :=
  if name = "number" then value.canonicalNumber.isSome
  else
    let actual :=
      match value with
      | .minKey => "minKey"
      | .maxKey => "maxKey"
      | .null => "null"
      | .double _ => "double"
      | .int32 _ => "int"
      | .int64 value => if -2 ^ 31 ≤ value.toInt ∧ value.toInt < 2 ^ 31 then "int" else "long"
      | .decimal128 _ => "decimal"
      | .string _ => "string"
      | .document _ => "object"
      | .array _ => "array"
      | .binary _ | .uuid _ => "binData"
      | .objectId _ => "objectId"
      | .boolean _ => "bool"
      | .dateTime _ => "date"
      | .timestamp _ => "timestamp"
      | .regularExpression _ => "regex"
      | .javaScript _ (some _) => "javascriptWithScope"
      | .javaScript _ none => "javascript"
    actual = name

inductive Operator
  | all
  | elemMatch
  | eq
  | exists
  | range (greater inclusive : Bool)
  | member (negative : Bool)
  | ne
  | not
  | mod
  | options
  | regex
  | size
  | type
  deriving DecidableEq

def fieldOperators : List (String × Operator) :=
  [("$all", .all), ("$elemMatch", .elemMatch), ("$eq", .eq), ("$exists", .exists),
    ("$gt", .range true false), ("$gte", .range true true), ("$in", .member false),
    ("$lt", .range false false), ("$lte", .range false true), ("$ne", .ne),
    ("$nin", .member true), ("$not", .not), ("$mod", .mod), ("$options", .options),
    ("$regex", .regex), ("$size", .size), ("$type", .type)]

def fieldOperator (name : String) : Option Operator := fieldOperators.lookup name

def knownOperator (name : String) : Bool :=
  (fieldOperator name).isSome ||
    ["$and", "$or", "$nor", "$comment", "$bitsAllClear", "$bitsAllSet", "$bitsAnyClear",
      "$bitsAnySet", "$expr", "$geoIntersects", "$geoWithin", "$jsonSchema", "$near",
      "$nearSphere", "$text", "$where"].contains name

def logicalKind (name : String) : Option Logical :=
  [("$and", Logical.and), ("$or", .or), ("$nor", .nor)].lookup name

def operatorDocument (document : BsonDocument) : Bool :=
  document.any fun entry => startsWithDollar entry.1

structure Compiler where
  nodes : Nat
  regexes : Nat

abbrev Compile (α : Type) := StateT Compiler (Except EngineError) α

def Compiler.step (depth : Nat) : Compile Unit := do
  let compiler ← get
  set { compiler with nodes := compiler.nodes + 1 }
  if compiler.nodes + 1 > maxQueryNodes ∨ depth > maxQueryDepth then throw limit

def regexParts (operand : BsonValue) (options : String) : EngineResult (String × String) :=
  match operand with
  | .string pattern => .ok (pattern, options)
  | .regularExpression regex =>
    if options ≠ "" ∧ regex.options ≠ "" then .error (queryError 51075)
    else .ok (regex.pattern, if options = "" then regex.options else options)
  | _ => .error (queryError 2)

def Compiler.countRegex (pattern : String) : Compile Unit := do
  let compiler ← get
  set { compiler with regexes := compiler.regexes + 1 }
  if compiler.regexes + 1 > maxRegexCount ∨ (Utf8.bytes pattern).length > maxRegexBytes then
    throw limit

/-- A locale expression keeps its identity but matches no text. -/
def buildRegex (pattern flags : String) :
    EngineResult (CompiledRegex Expression) := do
  let identity ← (BsonRegex.new pattern flags).mapError fun _ => queryError 2
  if flags.toList.contains 'l' then return ⟨identity, none⟩
  return ⟨identity, some (← engine.build pattern flags)⟩

def compileRegex (operand : BsonValue) (options : String) :
    Compile (CompiledRegex Expression) := do
  if options.toList.any fun flag => !"imsux".toList.contains flag then throw (queryError 51108)
  let (pattern, flags) ← regexParts operand options
  if containsNul pattern then throw (queryError 2)
  Compiler.countRegex pattern
  buildRegex engine pattern flags

variable (expression : BsonDocument)

def regexOptions : EngineResult String :=
  match BsonDocument.getFirst expression "$options" with
  | some (.string options) => .ok options
  | none => .ok ""
  | some _ => .error (queryError 2)

def plainPredicate (operator : Operator) (operand : BsonValue) :
    EngineResult (Option (Predicate Expression)) :=
  match operator, operand with
  | .eq, operand => return some (.equal operand)
  | .ne, .regularExpression _ | .range _ _, .regularExpression _ => throw (queryError 2)
  | .ne, operand => return some (.notEqual operand)
  | .range greater inclusive, operand => return some (.range operand greater inclusive)
  | .exists, operand => return some (.present (truthy operand))
  | .options, _ =>
    if (BsonDocument.getFirst expression "$regex").isNone then throw (queryError 2)
    else return none
  | .size, operand =>
    match integer operand false with
    | some size =>
      if 0 ≤ size ∧ size < 2 ^ 31 then return some (.size size.toNat)
      else throw (queryError 2)
    | none => throw (queryError 2)
  | .mod, .array [divisor, remainder] =>
    match integer divisor true, integer remainder true with
    | some divisor, some remainder =>
      if divisor = 0 then throw (queryError 2) else return some (.mod divisor remainder)
    | _, _ => throw (queryError 2)
  | .type, operand => return some (.types (← types operand))
  | _, _ => throw (queryError 2)

/-- The predicate of an operator whose operand has no parts to compile. -/
def simplePredicate
    (operator : Operator) (operand : BsonValue) : Compile (Option (Predicate Expression)) :=
  if operator = .regex then do
    let options ← regexOptions expression
    return some (.regex (← compileRegex engine operand options))
  else plainPredicate expression operator operand

/-- The clause of one field of a filter: a logical operator over filters, or a path. -/
def clauseOf (inside : Bool) (name : String)
    (children : Compile (List (DocumentMatcher Expression)))
    (predicates : Compile (List (Predicate Expression))) : Compile (Option (Clause Expression)) :=
  if name = "$comment" then return none
  else
    match logicalKind name with
    | some kind => return some (.logical kind (← children))
    | none =>
      if startsWithDollar name then
        throw (queryError
          (if inside && ((fieldOperator name).isSome || !knownOperator name) then 2 else 115))
      else do
        let path := splitPath name
        if path.length > maxQueryDepth then throw limit
        return some (.field (path.headD "") path.tail (name = "_id") (← predicates))

/-- The predicate of one operator, from its members, element or nested predicates. -/
def predicateOf (operator : Operator) (members : Bool → Compile (List (Member Expression)))
    (element : Compile (Element Expression)) (nested : Compile (List (Predicate Expression)))
    (simple : Compile (Option (Predicate Expression))) : Compile (Option (Predicate Expression)) :=
  match operator with
  | .member negative => return some (.member (← members false) negative)
  | .all => return some (.all (← members true))
  | .elemMatch => return some (.element (← element))
  | .not => return some (.not (← nested))
  | _ => simple

/-- An element is tested by operators, or by a filter if it is a document. -/
def elementOf (document : BsonDocument) (predicates : Compile (List (Predicate Expression)))
    (clauses : Compile (List (Clause Expression))) : Compile (Element Expression) :=
  if !(document.any fun entry => (logicalKind entry.1).isSome) &&
      document.any (fun entry => (fieldOperator entry.1).isSome) then
    return .fields (← predicates)
  else return .document ⟨← clauses, 0⟩

def regexPredicate (regex : BsonRegex) :
    Compile (List (Predicate Expression)) := do
  return [.regex (← compileRegex engine (.regularExpression regex) "")]

mutual

def compileClauses : Bool → List (String × BsonValue) → Nat → Compile (List (Clause Expression))
  | _, [], _ => return []
  | inside, (name, value) :: filter, depth => do
    Compiler.step depth
    let clause ← compileClause inside name value depth
    let clauses ← compileClauses inside filter depth
    return clause.toList ++ clauses

def compileClause : Bool → String → BsonValue → Nat → Compile (Option (Clause Expression))
  | inside, name, .array values, depth =>
    clauseOf inside name
      (if values.isEmpty then throw (queryError 2)
        else compileFilters inside values (depth + 1))
      (return [.equal (.array values)])
  | inside, name, .document expression, depth =>
    clauseOf inside name (throw (queryError 2))
      (if operatorDocument expression then do
          Compiler.step (depth + 1)
          compilePredicates inside expression expression (depth + 1)
        else return [.equal (.document expression)])
  | inside, name, .regularExpression regex, _ =>
    clauseOf inside name (throw (queryError 2)) (regexPredicate engine regex)
  | inside, name, value, _ => clauseOf inside name (throw (queryError 2)) (return [.equal value])

def compileFilters : Bool → List BsonValue → Nat → Compile (List (DocumentMatcher Expression))
  | _, [], _ => return []
  | inside, .document filter :: values, depth => do
    Compiler.step depth
    let clauses ← compileClauses inside filter depth
    let children ← compileFilters inside values depth
    return ⟨clauses, 0⟩ :: children
  | _, _ :: _, _ => throw (queryError 14)

/-- The predicates of the entries of an expression, whose own node is already counted. -/
def compilePredicates :
    Bool → BsonDocument → List (String × BsonValue) → Nat →
      Compile (List (Predicate Expression))
  | _, _, [], _ => return []
  | inside, expression, (name, operand) :: entries, depth => do
    Compiler.step depth
    match fieldOperator name with
    | none =>
      throw (queryError
        (if !startsWithDollar name || name = "$comment" || (inside && !knownOperator name)
          then 2 else 115))
    | some operator => do
      let predicate ← compilePredicate inside expression operator operand depth
      let predicates ← compilePredicates inside expression entries depth
      return predicate.toList ++ predicates

/-- The operand of `$not` is a regular expression or a nonempty expression. -/
def compilePredicate :
    Bool → BsonDocument → Operator → BsonValue → Nat → Compile (Option (Predicate Expression))
  | _, expression, operator, .array values, depth =>
    predicateOf operator (fun all => compileEach all values depth)
      (throw (queryError 2)) (throw (queryError 2))
      (simplePredicate engine expression operator (.array values))
  | inside, expression, operator, .document document, depth =>
    predicateOf operator (fun _ => throw (queryError 2))
      (do Compiler.step (depth + 1)
          elementOf document (compilePredicates true document document (depth + 1))
            (compileClauses true document (depth + 1)))
      (if document.isEmpty then throw (queryError 2)
        else do
          Compiler.step (depth + 1)
          compilePredicates inside document document (depth + 1))
      (simplePredicate engine expression operator (.document document))
  | _, expression, operator, .regularExpression regex, _ =>
    predicateOf operator (fun _ => throw (queryError 2)) (throw (queryError 2))
      (regexPredicate engine regex)
      (simplePredicate engine expression operator (.regularExpression regex))
  | _, expression, operator, operand, _ =>
    predicateOf operator (fun _ => throw (queryError 2)) (throw (queryError 2))
      (throw (queryError 2)) (simplePredicate engine expression operator operand)

def compileEach : Bool → List BsonValue → Nat → Compile (List (Member Expression))
  | _, [], _ => return []
  | all, value :: values, depth => do
    Compiler.step depth
    let member ← compileMember all value depth
    let members ← compileEach all values depth
    return member :: members

/-- Only `$all` takes an expression as a member: a single `$elemMatch` of a document. -/
def compileMember : Bool → BsonValue → Nat → Compile (Member Expression)
  | _, .regularExpression regex, _ =>
    return .regex (← compileRegex engine (.regularExpression regex) "")
  | all, .document document, depth =>
    if operatorDocument document then
      match document with
      | [(name, .document element)] =>
        if all ∧ name = "$elemMatch" then do
          Compiler.step (depth + 1)
          return .element
            (← elementOf element (compilePredicates true element element (depth + 1))
              (compileClauses true element (depth + 1)))
        else throw (queryError 2)
      | _ => throw (queryError 2)
    else return .literal (.document document)
  | _, value, _ => return .literal value

end

def compile [BsonWire.Crate] (filter : BsonDocument) :
    EngineResult (DocumentMatcher Expression) := do
  let encoded ← (encodeDocumentWithOptions filter
    { BsonCodecOptions.new with maxDocumentBytes := maxQueryBytes }).toEngine .clientInput
  let (clauses, compiler) ← (do
    Compiler.step 0
    compileClauses engine false filter 0).run ⟨0, 0⟩
  return ⟨clauses, saturatingAdd (saturatingAdd (min (encoded.length * 16) (2 ^ 64 - 1))
    (compiler.nodes * 128)) (compiler.regexes * (1024 * 1024))⟩

abbrev Work (α : Type) := StateT Nat (Except EngineError) α

def step : Work Unit := do
  let steps ← get
  set (steps + 1)
  if steps + 1 > maxMatchSteps then throw limit

structure Candidate where
  value : Option BsonValue
  indexed : Bool

def arrayIndex (part : String) : Option Nat :=
  if isArrayIndex part then parseUsize part else none

def candidate (output : List Candidate) (value : Option BsonValue) (indexed : Bool) :
    Work (List Candidate) := do
  if output.length = maxPathCandidates then throw limit
  return output ++ [⟨value, indexed⟩]

def findField (part : String) : BsonDocument → Work (Option BsonValue)
  | [] => return none
  | (name, value) :: entries => do
    step
    if name = part then return some value else findField part entries

def resolve : List String → BsonValue → List Candidate → Work (List Candidate)
  | [], value, output => do
    step
    candidate output (some value) false
  | part :: remaining, value, output => do
    step
    let inDocument (document : BsonDocument) (output : List Candidate) :
        Work (List Candidate) := do
      match ← findField part document with
      | some value => resolve remaining value output
      | none => candidate output none false
    match value with
    | .document document => inDocument document output
    | .array values => do
      let indexed : Work (List Candidate) :=
        match (arrayIndex part).bind (values[·]?) with
        | some value =>
          if remaining.isEmpty then candidate output (some value) true
          else
            match value with
            | .document _ | .array _ => resolve remaining value output
            | _ => return output
        | none => return output
      let output ← indexed
      -- A numeric part also names fields inside document members.
      values.foldlM (fun output member => do
        step
        match member with
        | .document document => do
          step
          inDocument document output
        | _ => return output) output
    | _ => candidate output none false

/-- A member array of an `$elemMatch` is entered by index only. -/
def closedTo (part : String) (root : BsonValue) (arrayDocument : Bool) : Bool :=
  arrayDocument && (root matches .array _) && (arrayIndex part).isNone

def clauseCandidates (part : String) (remaining : List String) (root : BsonValue)
    (arrayDocument : Bool) : Work (List Candidate) :=
  if closedTo part root arrayDocument then candidate [] none false
  else resolve (part :: remaining) root []

variable (actual : Option BsonValue)

def arrayMembers (exact : Bool) : Option (List BsonValue) :=
  match exact, actual with
  | false, some (.array values) => some values
  | _, _ => none

def equal (expected : BsonValue) (exact : Bool) : Work Bool := do
  step
  match actual with
  | none => return (expected matches .null)
  | some value =>
    if value.eq expected then return true
    else
      ((arrayMembers actual exact).getD []).anyM fun value => do
        step
        return value.eq expected

def wholeArray (includeArray : Bool) (test : Work Bool) : Work Bool :=
  if includeArray then test else return false

/-- Decide a value or, unless the value is taken exactly, the members of an array. -/
def scalarOrMembers (exact includeArray : Bool)
    (predicate : Option BsonValue → Work Bool) : Work Bool :=
  match arrayMembers actual exact with
  | some values => do
    if ← wholeArray includeArray (predicate actual) then return true
    else
      values.anyM fun value => do
        step
        predicate (some value)
  | none => predicate actual

/-- Whether two numbers of which exactly one is not a number are compared. -/
def mixesNaN (left right : BsonValue) : Bool :=
  match left.canonicalNumber, right.canonicalNumber with
  | some left, some right => (left == .nan) != (right == .nan)
  | _, _ => false

def inRange (value operand : BsonValue) (greater inclusive : Bool) : Bool :=
  let crossesTypes := operand matches .minKey | .maxKey
  if !crossesTypes && value.typeRank ≠ operand.typeRank then false
  else if mixesNaN value operand then false
  else
    match value.cmp operand with
    | .eq => inclusive
    | .gt => greater
    | .lt => !greater

/-- The remainder has the sign of the value, as machine division has it. -/
def hasRemainder (divisor remainder : Int) (value : Option BsonValue) : Bool :=
  (value.bind (integer · true)).any fun value => value.tmod divisor = remainder

def hasSize (size : Nat) (actual : Option BsonValue) : Bool :=
  match actual with
  | some (.array values) => values.length = size
  | _ => false

def CompiledRegex.test (regex : CompiledRegex Expression)
    (value : Option BsonValue) : Option Bool :=
  match value, regex.expression with
  | some (.regularExpression found), _ => some (found = regex.identity)
  | some (.string text), some expression => engine.isMatch expression text
  | _, _ => some false

def CompiledRegex.evaluate (regex : CompiledRegex Expression)
    (actual : Option BsonValue) (exact : Bool) : Work Bool :=
  scalarOrMembers actual exact false fun value => do
    step
    match regex.test engine value with
    | some result => return result
    | none => throw limit

/-- Positive predicates may match different candidates; negative ones hold across all. -/
def overCandidates (negative : Bool) (candidates : List Candidate)
    (test : Candidate → Work Bool) : Work Bool :=
  if negative then candidates.allM test else candidates.anyM test

def elements : List BsonValue :=
  match actual with
  | some (.array values) => values
  | _ => []

/-- Only documents and arrays are tested by a filter; `true` for an array. -/
def elementKind : BsonValue → Option Bool
  | .document _ => some false
  | .array _ => some true
  | _ => none

def Predicate.negative : Predicate Expression → Bool
  | .notEqual _ | .member _ true | .not _ | .present false => true
  | _ => false

mutual

def DocumentMatcher.evaluate : DocumentMatcher Expression → BsonValue → Bool → Bool → Work Bool
  | ⟨clauses, _⟩, root, exactId, arrayDocument => do
    step
    evaluateClauses clauses root exactId arrayDocument

def evaluateClauses : List (Clause Expression) → BsonValue → Bool → Bool → Work Bool
  | [], _, _, _ => return true
  | clause :: clauses, root, exactId, arrayDocument => do
    step
    if ← clause.evaluate root exactId arrayDocument then
      evaluateClauses clauses root exactId arrayDocument
    else return false

def Clause.evaluate : Clause Expression → BsonValue → Bool → Bool → Work Bool
  | .logical kind children, root, exactId, arrayDocument => do
    let found ← evaluateChildren kind children root exactId arrayDocument
    return if kind = .nor then !found else found
  | .field part remaining fieldId predicates, root, exactId, arrayDocument => do
    let candidates ← clauseCandidates part remaining root arrayDocument
    evaluateField predicates candidates (exactId && fieldId)

/-- Conjunctions stop at the first child that fails, the others at the first that matches. -/
def evaluateChildren (kind : Logical) :
    List (DocumentMatcher Expression) → BsonValue → Bool → Bool → Work Bool
  | [], _, _, _ => return kind = .and
  | child :: children, root, exactId, arrayDocument => do
    let matched ← child.evaluate root exactId arrayDocument
    if matched = decide (kind = .and) then
      evaluateChildren kind children root exactId arrayDocument
    else return matched

def evaluateField : List (Predicate Expression) → List Candidate → Bool → Work Bool
  | [], _, _ => return true
  | predicate :: predicates, candidates, exact => do
    if ← overCandidates predicate.negative candidates fun candidate =>
        predicate.evaluate candidate.value (exact || candidate.indexed) then
      evaluateField predicates candidates exact
    else return false

def Predicate.evaluate : Predicate Expression → Option BsonValue → Bool → Work Bool
  | .equal value, actual, exact => do
    step
    Matcher.equal actual value exact
  | .notEqual value, actual, exact => do
    step
    return !(← Matcher.equal actual value exact)
  | .present expected, actual, _ => do
    step
    return actual.isSome = expected
  | .range operand greater inclusive, actual, exact => do
    step
    scalarOrMembers actual exact true fun value => do
      step
      return inRange (value.getD .null) operand greater inclusive
  | .member members negative, actual, exact => do
    step
    let found ← evaluateAny members actual exact
    return found != negative
  | .all members, actual, exact => do
    step
    if members.isEmpty then return false
    else evaluateMembers members actual exact
  | .element element, actual, _ => do
    step
    element.evaluate actual
  | .not predicates, actual, exact => do
    step
    return !(← evaluateAll predicates actual exact)
  | .regex regex, actual, exact => do
    step
    regex.evaluate engine actual exact
  | .size size, actual, _ => do
    step
    return hasSize size actual
  | .types names, actual, exact => do
    step
    scalarOrMembers actual exact true fun value =>
      return value.any fun value => names.any (typeMatches value)
  | .mod divisor remainder, actual, exact => do
    step
    scalarOrMembers actual exact false fun value => return hasRemainder divisor remainder value

def evaluateAll : List (Predicate Expression) → Option BsonValue → Bool → Work Bool
  | [], _, _ => return true
  | predicate :: predicates, actual, exact => do
    if ← predicate.evaluate actual exact then evaluateAll predicates actual exact
    else return false

def evaluateAny : List (Member Expression) → Option BsonValue → Bool → Work Bool
  | [], _, _ => return false
  | member :: members, actual, exact => do
    if ← member.evaluate actual exact then return true
    else evaluateAny members actual exact

def evaluateMembers : List (Member Expression) → Option BsonValue → Bool → Work Bool
  | [], _, _ => return true
  | member :: members, actual, exact => do
    if ← member.within actual exact then evaluateMembers members actual exact
    else return false

def Member.within : Member Expression → Option BsonValue → Bool → Work Bool
  | .literal value, actual, exact =>
    scalarOrMembers actual exact false fun member => Matcher.equal member value true
  | .regex regex, actual, exact =>
    scalarOrMembers actual exact false fun member => regex.evaluate engine member exact
  | .element element, actual, exact =>
    scalarOrMembers actual exact false fun _ => element.evaluate actual

def Member.evaluate : Member Expression → Option BsonValue → Bool → Work Bool
  | .literal value, actual, exact => Matcher.equal actual value exact
  | .regex regex, actual, exact => regex.evaluate engine actual exact
  | .element element, actual, _ => element.evaluate actual

def Element.evaluate : Element Expression → Option BsonValue → Work Bool
  | .fields predicates, actual =>
    (elements actual).anyM fun value => do
      step
      evaluateAll predicates (some value) true
  | .document matcher, actual =>
    (elements actual).anyM fun value => do
      step
      match elementKind value with
      | some arrayDocument => matcher.evaluate value false arrayDocument
      | none => return false

end

def DocumentMatcher.matchesWithCheck
    (matcher : DocumentMatcher Expression) (document : BsonDocument) : EngineResult Bool := do
  let (result, _) ← matcher.evaluate engine (.document document) true false 0
  return result

/-- Decide a document of a caller, which must be structurally valid. -/
def DocumentMatcher.matchesInput [BsonWire.Crate]
    (matcher : DocumentMatcher Expression) (document : BsonDocument) : EngineResult Bool := do
  let _ ← (encodeDocument document).toEngine .clientInput
  matcher.matchesWithCheck engine document

end BriskDB.Document.Matcher
