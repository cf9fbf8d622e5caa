import BriskDB.Document.Value
import BriskDB.Core.Error
import BriskDB.Lib.Result

/-! # Retention charges

Conservative charges for keeping BSON on the heap. A caller charges a value before
it clones it, and its own check runs once for each value on the way.
-/

namespace BriskDB.Document.Memory

open Result

def retainedLimit : EngineError :=
  .new .limitExceeded "document retained value limit exceeded"

def add (bytes amount maximum : Nat) : EngineResult Nat :=
  if bytes + amount ≤ maximum then .ok (bytes + amount) else .error retainedLimit

variable {σ : Type} (check : σ → EngineResult σ) (maximum : Nat)

def addAll (bytes : Nat) : List Nat → EngineResult Nat
  | [] => .ok bytes
  | amount :: amounts => do addAll (← add bytes amount maximum) amounts

mutual

def chargeValue (value : BsonValue) (bytes : Nat) (state : σ) : EngineResult (Nat × σ) := do
  let state ← check state
  let bytes ← add bytes 128 maximum
  match value with
  | .string value => return (← add bytes (Utf8.bytes value).length maximum, state)
  | .document entries => do
    let bytes ← add bytes 128 maximum
    chargeEntries entries bytes state
  | .array values => chargeValues values bytes state
  | .binary value => return (← add bytes value.bytes.length maximum, state)
  | .regularExpression value =>
    return (← addAll maximum bytes
      [(Utf8.bytes value.pattern).length, (Utf8.bytes value.options).length], state)
  | .javaScript code none => return (← add bytes (Utf8.bytes code).length maximum, state)
  | .javaScript code (some scope) => do
    let bytes ← addAll maximum bytes [(Utf8.bytes code).length, 128]
    chargeEntries scope bytes state
  | _ => return (bytes, state)

def chargeEntries (entries : List (String × BsonValue)) (bytes : Nat) (state : σ) :
    EngineResult (Nat × σ) :=
  match entries with
  | [] => return (bytes, state)
  | (name, value) :: entries => do
    let bytes ← add bytes (Utf8.bytes name).length maximum
    let (bytes, state) ← chargeValue value bytes state
    chargeEntries entries bytes state

def chargeValues (values : List BsonValue) (bytes : Nat) (state : σ) : EngineResult (Nat × σ) :=
  match values with
  | [] => return (bytes, state)
  | value :: values => do
    let (bytes, state) ← chargeValue value bytes state
    chargeValues values bytes state

end

def valueBytes (value : BsonValue) (state : σ) : EngineResult (Nat × σ) :=
  chargeValue check maximum value 0 state

def documentBytes (document : BsonDocument) (state : σ) : EngineResult (Nat × σ) := do
  chargeEntries check maximum document (← add 0 128 maximum) state

section

variable {failed : EngineError → Prop} (hlimit : failed retainedLimit)

include hlimit

theorem add_ends (bytes amount : Nat) : Ends (fun _ => True) failed (add bytes amount maximum) := by
  unfold add
  split
  · trivial
  · exact hlimit

theorem addAll_ends (bytes : Nat) (amounts : List Nat) :
    Ends (fun _ => True) failed (addAll maximum bytes amounts) := by
  induction amounts generalizing bytes with
  | nil => trivial
  | cons amount amounts ih =>
    exact .bind (add_ends maximum hlimit bytes amount) fun bytes _ => ih bytes

end

/-- What the check keeps, and how it and the limit fail. -/
structure Charging (check : σ → EngineResult σ) (kept : σ → Prop) (failed : EngineError → Prop) :
    Prop where
  limit : failed retainedLimit
  check : ∀ state, kept state → Ends kept failed (check state)

namespace Charging

variable {check} {kept : σ → Prop} {failed : EngineError → Prop}

mutual

/-- A charge keeps what the check keeps, and fails by its limit or as the check does. -/
theorem value (h : Charging check kept failed) (value : BsonValue) (bytes : Nat) {state : σ}
    (hstate : kept state) :
    Ends (fun charged => kept charged.2) failed (chargeValue check maximum value bytes state) := by
  unfold chargeValue
  refine .bind (h.check state hstate) fun state hstate =>
    .bind (add_ends maximum h.limit bytes 128) fun bytes _ => ?_
  match value with
  | .string _ | .binary _ | .javaScript _ none =>
    exact .bind (add_ends maximum h.limit bytes _) fun _ _ => hstate
  | .document entries =>
    exact .bind (add_ends maximum h.limit bytes 128) fun bytes _ => h.entries entries bytes hstate
  | .array values => exact h.values values bytes hstate
  | .regularExpression _ => exact .bind (addAll_ends maximum h.limit bytes _) fun _ _ => hstate
  | .javaScript _ (some scope) =>
    exact .bind (addAll_ends maximum h.limit bytes _) fun bytes _ => h.entries scope bytes hstate
  | .double _ | .uuid _ | .objectId _ | .boolean _ | .dateTime _ | .null | .int32 _
  | .timestamp _ | .int64 _ | .decimal128 _ | .minKey | .maxKey => exact hstate

theorem entries (h : Charging check kept failed) (entries : List (String × BsonValue)) (bytes : Nat)
    {state : σ} (hstate : kept state) : Ends (fun charged => kept charged.2) failed
      (chargeEntries check maximum entries bytes state) := by
  match entries with
  | [] => exact hstate
  | (name, value) :: entries =>
    exact .bind (add_ends maximum h.limit bytes _) fun bytes _ =>
      .bind (h.value value bytes hstate) fun (bytes, _) hstate => h.entries entries bytes hstate

theorem values (h : Charging check kept failed) (values : List BsonValue) (bytes : Nat) {state : σ}
    (hstate : kept state) : Ends (fun charged => kept charged.2) failed
      (chargeValues check maximum values bytes state) := by
  match values with
  | [] => exact hstate
  | value :: values =>
    exact .bind (h.value value bytes hstate) fun (bytes, _) hstate => h.values values bytes hstate

end

end Charging

open EngineResult

theorem valueBytes_onlyLimits {check : σ → EngineResult σ}
    (hcheck : ∀ state, OnlyLimits (check state)) (value : BsonValue) (state : σ) :
    OnlyLimits (valueBytes check maximum value state) := by
  have hcharge : ∀ state, True → Ends (fun _ => True) EngineError.Limited (check state) :=
    fun state _ => ends_iff.mpr ⟨fun _ _ => trivial, hcheck state⟩
  have hcharging : Charging check (fun _ => True) EngineError.Limited := ⟨rfl, hcharge⟩
  exact (ends_iff.mp (hcharging.value maximum value 0 trivial)).2

/-- A charge leaves this part of the caller's state as it was. -/
def KeepsView {κ : Type} (view : σ → κ) (charge : σ → EngineResult (Nat × σ)) : Prop :=
  ∀ state bytes next, charge state = .ok (bytes, next) → view next = view state

section

variable {check} {κ : Type} {view : σ → κ}
  (hkeeps : ∀ state next, check state = .ok next → view next = view state)

include hkeeps

theorem charging_view (first : σ) :
    Charging check (fun next => view next = view first) fun _ => True :=
  ⟨trivial, fun state h =>
    ends_iff.mpr ⟨fun next hnext => (hkeeps state next hnext).trans h, fun _ _ => trivial⟩⟩

theorem valueBytes_keepsView (value : BsonValue) :
    KeepsView view (valueBytes check maximum value) := by
  intro state bytes next h
  exact (ends_iff.mp ((charging_view hkeeps state).value maximum value 0 rfl)).1 _ h

theorem documentBytes_keepsView (document : BsonDocument) :
    KeepsView view (documentBytes check maximum document) := by
  intro state bytes next h
  obtain ⟨charged, -, h⟩ := bind_eq_ok.mp h
  exact (ends_iff.mp ((charging_view hkeeps state).entries maximum document charged rfl)).1 _ h

end

end BriskDB.Document.Memory
