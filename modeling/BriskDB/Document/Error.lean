import BriskDB.Core.Error

/-! # BSON failures

A classified failure of the BSON layer with its diagnostic text and, when it is
known, the path of the offending value. The first path that is attached stays.
-/

namespace BriskDB.Document

inductive BsonErrorKind
  | invalidValue
  | invalidUtf8
  | unsupportedType
  | duplicateField
  | invalidCanonicalKey
  | truncated
  | oversized
  | nestingLimit
  deriving DecidableEq, Repr

structure BsonError where
  kind : BsonErrorKind
  diagnostic : String
  path : Option String
  deriving DecidableEq, Repr

namespace BsonError

def new (kind : BsonErrorKind) (diagnostic : String) : BsonError := ⟨kind, diagnostic, none⟩

def withPath (error : BsonError) (path : String) : BsonError :=
  if error.path.isNone then { error with path := some path } else error

end BsonError

abbrev BsonResult (α : Type) := Except BsonError α

def invalidValue (diagnostic : String) : BsonError := .new .invalidValue diagnostic

/-- Where the offending BSON came from: a caller, or the engine's own storage. -/
inductive BsonErrorContext
  | clientInput
  | storedData

def BsonError.display (error : BsonError) : String :=
  match error.path with
  | some path => error.diagnostic ++ " at " ++ path
  | none => error.diagnostic

def BsonError.intoEngineError (error : BsonError) (context : BsonErrorContext) : EngineError :=
  let engineKind : EngineErrorKind :=
    match context with
    | .storedData => .dataCorruption
    | .clientInput =>
      match error.kind with
      | .oversized | .nestingLimit => .limitExceeded
      | .unsupportedType => .unsupported
      | .invalidUtf8 => .invalidTextEncoding
      | .invalidValue | .duplicateField | .invalidCanonicalKey | .truncated => .invalidArgument
  .new engineKind error.display

def BsonResult.toEngine {α : Type} (result : BsonResult α) (context : BsonErrorContext) :
    EngineResult α :=
  result.mapError (·.intoEngineError context)

theorem BsonResult.toEngine_eq_ok {α : Type} {result : BsonResult α}
    {context : BsonErrorContext} {value : α} :
    result.toEngine context = .ok value ↔ result = .ok value := by
  cases result with
  | error error => exact ⟨nofun, nofun⟩
  | ok found =>
    constructor
    · intro h
      cases h
      rfl
    · intro h
      cases h
      rfl

def queryError (code : Int) : EngineError :=
  let kind : EngineErrorKind :=
    if code = 115 then .unsupported else if code = 14 then .typeMismatch else .invalidQuery
  .fromSource kind "invalid or unsupported document query" (.documentQuery code)

end BriskDB.Document
