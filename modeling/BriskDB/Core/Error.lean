/-! # Protocol-neutral engine errors

The stable category of an engine failure, with its diagnostic text. The cause
chain of the source is kept only as far as a caller inspects it: index-key
preparation asks whether a failure was caused by an unsupported indexed value.
-/

namespace BriskDB

inductive EngineErrorKind
  | invalidArgument
  | numericOutOfRange
  | invalidTextEncoding
  | invalidQuery
  | unsupported
  | failedPrecondition
  | idempotencyConflict
  | transactionAborted
  | typeMismatch
  | constraintViolation
  | uniqueViolation
  | notNullViolation
  | foreignKeyViolation
  | checkViolation
  | permissionDenied
  | readOnly
  | busy
  | cancelled
  | deadlineExceeded
  | limitExceeded
  | shuttingDown
  | storageFull
  | outOfMemory
  | storageUnavailable
  | dataCorruption
  | internal
  deriving DecidableEq, Repr

/-- The causes that callers distinguish by downcasting an error's source. -/
inductive EngineErrorSource
  | none
  | documentQuery (code : Int)
  | unsupportedIndexedValue
  deriving DecidableEq, Repr

structure EngineError where
  kind : EngineErrorKind
  diagnostic : String
  source : EngineErrorSource
  deriving DecidableEq, Repr

def EngineError.new (kind : EngineErrorKind) (diagnostic : String) : EngineError :=
  ⟨kind, diagnostic, .none⟩

def EngineError.fromSource (kind : EngineErrorKind) (diagnostic : String)
    (source : EngineErrorSource) : EngineError :=
  ⟨kind, diagnostic, source⟩

abbrev EngineResult (α : Type) := Except EngineError α

def EngineError.Limited (error : EngineError) : Prop := error.kind = .limitExceeded

def EngineResult.OnlyLimits {α : Type} (result : EngineResult α) : Prop :=
  ∀ error, result = .error error → error.Limited

namespace EngineResult.OnlyLimits

variable {α β : Type}

theorem ok (value : α) : OnlyLimits (.ok value) := by
  intro error h
  cases h

theorem error {error : EngineError} (h : error.Limited) :
    OnlyLimits (.error error : EngineResult α) := by
  intro other hother
  cases hother
  exact h

theorem bind {result : EngineResult α} {next : α → EngineResult β} (h : OnlyLimits result)
    (hnext : ∀ value, OnlyLimits (next value)) : OnlyLimits (result >>= next) := by
  cases result with
  | error failure => exact error (h failure rfl)
  | ok value => exact hnext value

end EngineResult.OnlyLimits

end BriskDB
