import BriskDB.Document.IndexPreparation
import BriskDB.Document.KeyIdentity
import BriskDB.Lib.ByteReader

/-! # The frames of index keys

A tuple is stored as its frame, and a frame is read back with every component validated. The
frames that are accepted are those that are written, so an index compares frames for tuples.
-/

namespace BriskDB.Document

open Bytes Result List

inductive CanonicalBsonKey.Made : CanonicalBsonKey → Prop
  | encode {value : BsonValue} {key : CanonicalBsonKey} (hvalid : value.Valid)
    (h : CanonicalBsonKey.encode value = .ok key) : Made key
  | fromBytes {bytes : List UInt8} {key : CanonicalBsonKey}
    (h : CanonicalBsonKey.fromBytes bytes = .ok key) : Made key

theorem CanonicalBsonKey.Made.canonical {key : CanonicalBsonKey} (h : key.Made) :
    CanonicalBsonKey.fromBytes key.bytes = .ok key := by
  cases h with
  | encode hvalid h => exact fromBytes_encode hvalid h
  | fromBytes h =>
    grind [bytes_of_fromBytes]

namespace DocumentIndexKey

open IndexKeys
open ByteReader (Exact take_eq_ok lift_eq_ok)

def addSize (length : Nat) (component : IndexComponent) : EngineResult Nat := do
  let size ← componentLen component
  if length + size > maxWorkBytes then throw limit
  return length + size

/-- The frame of the key for a caller without a budget; `toBytes` charges each step. -/
def serialize (key : DocumentIndexKey) : EngineResult (List UInt8) := do
  if key.components = [] ∨ key.components.length > maxComponents then throw limit
  let _ ← key.components.foldlM addSize 12
  return key.frame

def corrupt (message : String) : EngineError := .new .dataCorruption message

def take : Nat → ByteReader EngineError (List UInt8) :=
  ByteReader.take (corrupt "document index key is truncated")

def u32 : ByteReader EngineError Nat := do
  let bytes ← take 4
  return toBe bytes

/-- A component is bounded already, so that only a failed allocation is oversized. -/
def boundedComponentError (error : BsonError) : EngineError :=
  if error.kind = .oversized then limit else error.intoEngineError .storedData

def readComponent : ByteReader EngineError IndexComponent := do
  match ← take 1 with
  | [0] => return .emptyArray
  | [1] => do
    let length ← u32
    if length > maxValueBytes then
      throw (corrupt "document index key exceeds the component limit")
    let bytes ← take length
    let key ← liftM ((CanonicalBsonKey.fromBytes bytes).mapError boundedComponentError)
    return .value key
  | _ => throw (corrupt "document index key has an invalid component tag")

def readFrame : ByteReader EngineError DocumentIndexKey := do
  let start ← take 4
  if start ≠ magic then throw (corrupt "document index key has invalid magic")
  let version ← u32
  if version ≠ encodingVersion then
    throw (corrupt "document index key has an unsupported version")
  let count ← u32
  if ¬ (1 ≤ count ∧ count ≤ maxComponents) then
    throw (corrupt "document index key has an invalid component count")
  let components ← ByteReader.loop (fun done => do return done ++ [← readComponent]) count []
  return ⟨components⟩

def fromBytes (bytes : List UInt8) : EngineResult DocumentIndexKey := do
  if bytes.length > maxWorkBytes then throw (corrupt "document index key exceeds the frame limit")
  let (key, rest) ← readFrame bytes
  if rest ≠ [] then throw (corrupt "document index key has trailing bytes")
  return key

def Sized : IndexComponent → Prop
  | .emptyArray => True
  | .value key => key.bytes.length ≤ maxValueBytes

structure Framed (key : DocumentIndexKey) : Prop where
  nonempty : key.components ≠ []
  count_le : key.components.length ≤ maxComponents
  sized : ∀ component ∈ key.components, Sized component
  length_le : key.frame.length ≤ maxWorkBytes

variable {key : DocumentIndexKey} {bytes : List UInt8}

theorem componentLen_eq_ok {component : IndexComponent} {size : Nat} :
    componentLen component = .ok size ↔
      Sized component ∧ size = (componentCode component).length := by
  cases component with
  | emptyArray => simp [componentLen, Sized, componentCode, eq_comm]
  | value key =>
    have hcode : (componentCode (.value key)).length = 5 + key.bytes.length := by
      simp only [componentCode, PrefixCode.block, length_cons, length_append, ofBe_length]
      omega
    rw [hcode, componentLen]
    split
    next h => simp [Sized, h]
    next h => simp [Sized, not_lt.mp h, eq_comm]

theorem addSize_eq_ok {length next : Nat} {component : IndexComponent} :
    addSize length component = .ok next ↔
      Sized component ∧ next ≤ maxWorkBytes ∧ next = length + (componentCode component).length := by
  simp only [addSize, bind_eq_ok, componentLen_eq_ok, ite_throw_eq_ok, pure_eq, Except.ok.injEq]
  grind

theorem foldlM_addSize_eq_ok {start : Nat} (hstart : start ≤ maxWorkBytes)
    (components : List IndexComponent) :
    (∃ length, components.foldlM addSize start = .ok length) ↔
      (∀ component ∈ components, Sized component) ∧
        start + (components.flatMap componentCode).length ≤ maxWorkBytes := by
  induction components generalizing start with
  | nil => simp [hstart]
  | cons component components ih =>
    simp only [foldlM_cons, bind_eq_ok, addSize_eq_ok, forall_mem_cons, flatMap_cons,
      length_append]
    constructor
    · grind
    · rintro ⟨⟨hsized, hrest⟩, hlength⟩
      have hnext : start + (componentCode component).length ≤ maxWorkBytes := by omega
      obtain ⟨length, h⟩ := (ih hnext).mpr ⟨hrest, by omega⟩
      exact ⟨length, _, ⟨hsized, hnext, rfl⟩, h⟩

theorem length_frame : key.frame.length = 12 + (key.components.flatMap componentCode).length := by
  have hmagic : magic.length = 4 := rfl
  simp [frame, hmagic]
  omega

theorem serialize_eq_ok : key.serialize = .ok bytes ↔ key.Framed ∧ bytes = key.frame := by
  have hfold := @foldlM_addSize_eq_ok 12 (by decide) key.components
  rw [← length_frame] at hfold
  simp only [serialize, ite_throw_eq_ok, bind_eq_ok, pure_eq, not_or, not_lt]
  constructor
  · rintro ⟨⟨hne, hcount⟩, length, hlength, h⟩
    obtain ⟨hsized, hle⟩ := hfold.mp ⟨length, hlength⟩
    cases h
    exact ⟨⟨hne, hcount, hsized, hle⟩, rfl⟩
  · rintro ⟨h, rfl⟩
    obtain ⟨length, hlength⟩ := hfold.mpr ⟨h.sized, h.length_le⟩
    exact ⟨⟨h.nonempty, h.count_le⟩, length, hlength, rfl⟩

theorem exact_u32 : Exact u32 (ofBe 4) fun value => value < 256 ^ 4 := ByteReader.exact_number

def MadeComponent : IndexComponent → Prop
  | .emptyArray => True
  | .value key => key.Made

theorem exact_readComponent : Exact readComponent componentCode fun component =>
    Sized component ∧ MadeComponent component := by
  intro text component rest
  rw [readComponent, ByteReader.bind_eq_ok]
  constructor
  · rintro ⟨tag, text, htag, h⟩
    obtain ⟨-, rfl⟩ := take_eq_ok.mp htag
    split at h
    next =>
      cases h
      exact ⟨⟨trivial, trivial⟩, rfl⟩
    next =>
      simp only [ByteReader.bind_eq_ok, ByteReader.ite_throw_eq_ok, exact_u32 _ _ _, take,
        take_eq_ok, lift_eq_ok, mapError_eq_ok] at h
      obtain ⟨_, _, ⟨-, rfl⟩, hle, bytes, _, ⟨rfl, rfl⟩, key, _, ⟨hkey, rfl⟩, h⟩ := h
      cases h
      cases bytes_of_fromBytes hkey
      exact ⟨⟨not_lt.mp hle, .fromBytes hkey⟩, by simp [componentCode, PrefixCode.block]⟩
    next => cases h
  · rintro ⟨hcomponent, rfl⟩
    cases component with
    | emptyArray => exact ⟨[0], rest, take_eq_ok.mpr ⟨rfl, rfl⟩, rfl⟩
    | value key =>
      refine ⟨[1], PrefixCode.block key.bytes ++ rest, take_eq_ok.mpr ⟨rfl, rfl⟩, ?_⟩
      have hwidth : maxValueBytes < 256 ^ 4 := by decide
      simp only [ByteReader.bind_eq_ok, ByteReader.ite_throw_eq_ok, exact_u32 _ _ _, take,
        take_eq_ok, lift_eq_ok, mapError_eq_ok]
      exact ⟨_, _, ⟨hcomponent.1.trans_lt hwidth, by simp [PrefixCode.block]⟩,
        not_lt.mpr hcomponent.1, key.bytes, rest, ⟨rfl, rfl⟩, key, rest,
          ⟨hcomponent.2.canonical, rfl⟩, rfl⟩

theorem exact_readFrame : Exact readFrame frame fun key =>
    key.components ≠ [] ∧ key.components.length ≤ maxComponents ∧
      ∀ component ∈ key.components, Sized component ∧ MadeComponent component := by
  intro text key rest
  simp only [readFrame, ByteReader.bind_eq_ok, ByteReader.ite_throw_eq_ok, exact_u32 _ _ _, take,
    take_eq_ok, exact_readComponent.loop, ne_eq, not_not]
  constructor
  · rintro ⟨_, _, ⟨-, rfl⟩, rfl, _, _, ⟨-, rfl⟩, rfl, _, _, ⟨-, rfl⟩, ⟨hone, hmax⟩, _, _,
      ⟨components, rfl, hcomponents, rfl, rfl⟩, h⟩
    cases h
    exact ⟨⟨length_pos_iff.mp hone, hmax, hcomponents⟩, by simp [frame]⟩
  · rintro ⟨⟨hne, hmax, hcomponents⟩, rfl⟩
    have hwidth : maxComponents < 256 ^ 4 := by decide
    exact ⟨magic, _, ⟨rfl, by simp [frame]⟩, rfl, encodingVersion, _, ⟨by decide, rfl⟩, rfl,
      key.components.length, _, ⟨hmax.trans_lt hwidth, rfl⟩, ⟨length_pos_iff.mpr hne, hmax⟩,
      key.components, rest, ⟨key.components, rfl, hcomponents, rfl, rfl⟩, rfl⟩

def Made (key : DocumentIndexKey) : Prop := ∀ component ∈ key.components, MadeComponent component

theorem fromBytes_eq_ok : fromBytes bytes = .ok key ↔ key.Made ∧ key.serialize = .ok bytes := by
  simp only [fromBytes, ite_throw_eq_ok, bind_eq_ok, Prod.exists, exact_readFrame _ _ _, pure_eq,
    serialize_eq_ok, ne_eq, not_not]
  constructor
  · rintro ⟨hlength, _, _, ⟨⟨hne, hmax, hcomponents⟩, rfl⟩, rfl, h⟩
    cases h
    rw [append_nil] at hlength ⊢
    exact ⟨fun component hmem => (hcomponents component hmem).2,
      ⟨hne, hmax, fun component hmem => (hcomponents component hmem).1, not_lt.mp hlength⟩, rfl⟩
  · rintro ⟨hmade, h, rfl⟩
    exact ⟨not_lt.mpr h.length_le, key, [], ⟨⟨h.nonempty, h.count_le, fun component hmem =>
      ⟨h.sized component hmem, hmade component hmem⟩⟩, by simp⟩, rfl, rfl⟩

theorem frame_ne_fallback : key.frame ≠ DocumentIndexPreparation.nonUniqueFallbackKey := by
  intro h
  have hmagic := congrArg (List.take 4) h
  have hfour : magic.length = 4 := rfl
  rw [frame, append_assoc, ← hfour, take_left] at hmagic
  exact absurd hmagic (by decide)

/-- The frame is a bijective codec: what is written is read back, what is accepted is written
again, equal frames are equal tuples, and no frame is the marker of unsupported values. -/
theorem frame_codec :
    (∀ key bytes, Made key → key.serialize = .ok bytes → fromBytes bytes = .ok key) ∧
      (∀ key bytes, fromBytes bytes = .ok key → key.serialize = .ok bytes) ∧
      (∀ left right x y, Made left → Made right → left.serialize = .ok x →
        right.serialize = .ok y → (x = y ↔ left.components = right.components)) ∧
      ∀ key bytes, key.serialize = .ok bytes ∨ fromBytes bytes = .ok key →
        bytes ≠ DocumentIndexPreparation.nonUniqueFallbackKey := by
  refine ⟨fun key bytes hmade h => fromBytes_eq_ok.mpr ⟨hmade, h⟩,
    fun key bytes h => (fromBytes_eq_ok.mp h).2, ?_, ?_⟩
  · intro left right x y hleft hright hx hy
    constructor
    · rintro rfl
      have hread := fromBytes_eq_ok.mpr ⟨hleft, hx⟩
      rw [fromBytes_eq_ok.mpr ⟨hright, hy⟩] at hread
      cases hread
      rfl
    · intro h
      obtain ⟨components⟩ := left
      cases h
      exact Except.ok.inj (hx.symm.trans hy)
  · rintro key bytes h
    have hwritten := h.elim id fun h => (fromBytes_eq_ok.mp h).2
    rw [(serialize_eq_ok.mp hwritten).2]
    exact frame_ne_fallback

theorem frame_codec_null :
    fromBytes (magic ++ [0, 0, 0, 1, 0, 0, 0, 2, 0, 1, 0, 0, 0, 9] ++
      (keyMagic ++ [0, 0, 0, 1, 1])) =
        .ok ⟨[.emptyArray, .value ⟨keyMagic ++ [0, 0, 0, 1, 1]⟩]⟩ := by
  refine frame_codec.1 _ _ ?_ (by decide)
  intro component hmem
  simp only [mem_cons, not_mem_nil, or_false] at hmem
  obtain rfl | rfl := hmem
  · trivial
  · exact @CanonicalBsonKey.Made.encode .null _ trivial (by decide)

end DocumentIndexKey

end BriskDB.Document
