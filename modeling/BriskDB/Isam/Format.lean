import BriskDB.Lib.Result
import BriskDB.Isam.Types

/-!
# Root headers

Two root slots and, in pipelined files, a working page stand before the data pages. Each is
a sealed page of fields at fixed places. A snapshot is published by writing the slot that
does not hold the previous one.
-/

namespace BriskDB.Isam

open Bytes List

def workingRootOffset : Nat := headerBytes

/-- `BRISAM02`, `BRISAM03`, `BRISAM04` -/
def headerMagic : FormatVersion → List UInt8
  | .fixed => [0x42, 0x52, 0x49, 0x53, 0x41, 0x4d, 0x30, 0x32]
  | .packed => [0x42, 0x52, 0x49, 0x53, 0x41, 0x4d, 0x30, 0x33]
  | .pipelined => [0x42, 0x52, 0x49, 0x53, 0x41, 0x4d, 0x30, 0x34]

/-- The speculative state of pipelined writers. -/
structure WorkingState where
  snapshot : Snapshot
  durableGeneration : Nat
  ready : BitVec 64
  failed : Bool
  deriving DecidableEq

/-- The fields of a header in order, up to byte 72. -/
def headerFields (snapshot : Snapshot) (working : Option (Nat × BitVec 64 × Bool)) :
    List (List UInt8) :=
  [headerMagic snapshot.formatVersion,
    ofLe 2 snapshot.formatVersion.number,
    ofLe 2 snapshot.layout.keyBytes,
    ofLe 2 snapshot.layout.maxValueBytes,
    List.replicate 2 0,
    ofLe 8 snapshot.generation,
    ofLe 8 snapshot.root,
    ofLe 8 snapshot.end_,
    if snapshot.formatVersion = .pipelined then ofLe 8 snapshot.publication
      else List.replicate 8 0] ++
    match working with
    | some (durable, ready, failed) =>
      [ofLe 8 durable, ofLe 8 ready.toNat, ofLe 8 failed.toNat]
    | none => [List.replicate 8 0, List.replicate 8 0, List.replicate 8 0]

section Write

variable (blake3 : List UInt8 → Digest)

def headerPage (snapshot : Snapshot) (working : Option (Nat × BitVec 64 × Bool)) : Page :=
  Page.seal blake3 (headerFields snapshot working).flatten

def Snapshot.slot (snapshot : Snapshot) : Nat :=
  (if snapshot.formatVersion = .pipelined then snapshot.publication else snapshot.generation) % 2

def writeSnapshot (file : File) (snapshot : Snapshot) : File :=
  file.writeAllAt (headerPage blake3 snapshot none) (snapshot.slot * pageBytes)

def writeWorkingState (file : File) (state : WorkingState) : Result File :=
  if state.snapshot.formatVersion ≠ .pipelined then
    .error (.invalid "working root requires pipelined format")
  else
    .ok (file.writeAllAt (headerPage blake3 state.snapshot
      (some (state.durableGeneration, state.ready, state.failed))) workingRootOffset)

def writeWorkingSnapshot (file : File) (snapshot : Snapshot) : Result File :=
  writeWorkingState blake3 file ⟨snapshot, snapshot.generation, 0, false⟩

end Write

def Layout.new (keyBytes maxValueBytes : Nat) : Result Layout :=
  if h : 1 ≤ keyBytes ∧ keyBytes ≤ 128 ∧ maxValueBytes ≤ 1024 then
    .ok ⟨keyBytes, maxValueBytes, h.1, h.2.1, h.2.2⟩
  else .error (.invalid "key width must be 1..=128; value bound must be <=1024")

/-- The version of a header, which its magic and its number have to name both. -/
def headerVersion (bytes : List UInt8) : Option FormatVersion :=
  [.fixed, .packed, .pipelined].find? fun version =>
    u16At bytes 8 = version.number ∧ bytes.take 8 = headerMagic version

/-- Where the fields of a root slot end. -/
def reservedStart : FormatVersion → Nat
  | .pipelined => 48
  | .fixed | .packed => 40

/-- The bounds that a root in one of the two slots has to keep. -/
def Snapshot.Bounded (snapshot : Snapshot) (slot : Nat) : Prop :=
  snapshot.generation ≠ 0 ∧ snapshot.publication ≠ 0 ∧
    snapshot.publication ≤ snapshot.generation ∧ snapshot.publication % 2 = slot ∧
    dataStart snapshot.formatVersion ≤ snapshot.end_ ∧ snapshot.end_ % pageBytes = 0 ∧
    snapshot.end_ ≤ i64Max ∧
    (snapshot.root = 0 ∨ dataStart snapshot.formatVersion ≤ snapshot.root ∧
      snapshot.root < snapshot.end_ ∧ snapshot.root % pageBytes = 0)
  deriving Decidable

/-- What the newer of two roots has to have in common with the older one. -/
def Snapshot.Succeeds (newer older : Snapshot) : Prop :=
  newer.layout = older.layout ∧ newer.formatVersion = older.formatVersion ∧
    newer.publication = older.publication + 1 ∧ older.generation ≤ newer.generation ∧
    older.end_ ≤ newer.end_ ∧
    (newer.generation = older.generation →
      newer.formatVersion = .pipelined ∧ newer.root = older.root ∧ newer.end_ = older.end_)
  deriving Decidable

/-- The root of two slots. -/
def chooseRoot : Option Snapshot → Option Snapshot → Result Snapshot
  | some a, some b =>
    let (newer, older) := if a.publication > b.publication then (a, b) else (b, a)
    if newer.Succeeds older then .ok newer else .error (.corrupt "root slots disagree")
  | some snapshot, none | none, some snapshot =>
    if snapshot.publication = 1 ∧ snapshot.generation = 1 then .ok snapshot
    else .error (.corrupt "missing root slot after initial generation")
  | none, none => .error (.corrupt "no valid root header")

section Read

variable (blake3 : List UInt8 → Digest)

/-- The root in a slot, or none if the slot was never written. -/
def decode (page : Page) (slot : Nat) : Result (Option Snapshot) :=
  let bytes := page.bytes
  if page.checksumValid blake3 = false then
    if bytes.all (· == 0) then .ok none
    else .error (.corrupt "root slot checksum invalid; recovery is ambiguous")
  else
    match headerVersion bytes with
    | none => .error (.corrupt "unknown file magic or format version")
    | some formatVersion =>
      if ((bytes.take 16).drop 14 ++
          (bytes.take checksumStart).drop (reservedStart formatVersion)).any (· != 0) then
        .error (.corrupt "nonzero header reserved bytes")
      else
        match Layout.new (u16At bytes 10) (u16At bytes 12) with
        | .error _ => .error (.corrupt "invalid persisted record layout")
        | .ok layout =>
          let snapshot : Snapshot :=
            { formatVersion
              layout
              generation := u64At bytes 16
              publication := u64At bytes (if formatVersion = .pipelined then 40 else 16)
              root := u64At bytes 24
              end_ := u64At bytes 32 }
          if snapshot.Bounded slot then .ok (some snapshot)
          else .error (.corrupt "invalid root bounds or generation")

def readSnapshot (file : File) : Result Snapshot :=
  match file.readExactAt 0, file.readExactAt pageBytes with
  | some first, some second => do
    let first ← decode blake3 first 0
    let second ← decode blake3 second 1
    chooseRoot first second
  | _, _ => .error (.corrupt "truncated root headers")

end Read

/-- A snapshot that may stand in a header. -/
structure Snapshot.Publishable (snapshot : Snapshot) : Prop where
  generation_lt : snapshot.generation < 2 ^ 64
  publication_pos : 0 < snapshot.publication
  publication_le : snapshot.publication ≤ snapshot.generation
  publication_eq : snapshot.formatVersion ≠ .pipelined → snapshot.publication = snapshot.generation
  dataStart_le : dataStart snapshot.formatVersion ≤ snapshot.end_
  end_aligned : snapshot.end_ % pageBytes = 0
  end_le : snapshot.end_ ≤ i64Max
  root_spec : snapshot.root = 0 ∨ (dataStart snapshot.formatVersion ≤ snapshot.root ∧
    snapshot.root < snapshot.end_ ∧ snapshot.root % pageBytes = 0)

section Headers

variable {blake3 : List UInt8 → Digest} {snapshot : Snapshot}

theorem Snapshot.Publishable.slot_eq (h : snapshot.Publishable) :
    snapshot.slot = snapshot.publication % 2 := by
  unfold Snapshot.slot
  split
  · rfl
  next hversion => rw [h.publication_eq hversion]

theorem Snapshot.Publishable.bounded (h : snapshot.Publishable) : snapshot.Bounded snapshot.slot :=
  ⟨by have := h.publication_pos; have := h.publication_le; omega, h.publication_pos.ne',
    h.publication_le, h.slot_eq.symm, h.dataStart_le, h.end_aligned, h.end_le, h.root_spec⟩

theorem length_headerMagic (version : FormatVersion) : (headerMagic version).length = 8 := by
  cases version <;> rfl

theorem headerPage_bytes (blake3 : List UInt8 → Digest) (snapshot : Snapshot) :
    ∃ digest : Digest, (headerPage blake3 snapshot none).bytes =
      (headerFields snapshot none).flatten ++ (replicate (checksumStart - 72) 0 ++ digest.1) := by
  have hlength : (headerFields snapshot none).flatten.length = 72 := by
    simp only [headerFields]
    split <;> simp [length_headerMagic]
  refine ⟨blake3 (zeroPad checksumStart (headerFields snapshot none).flatten), ?_⟩
  rw [headerPage, Page.bytes_seal, ← append_assoc, ← hlength,
    ← zeroPad_eq (by rw [hlength]; decide)]

/-- The fields of a header stand where they are read. -/
theorem headerPage_fields (h : snapshot.Publishable) :
    let bytes := (headerPage blake3 snapshot none).bytes
    bytes.take 8 = headerMagic snapshot.formatVersion ∧
      u16At bytes 8 = snapshot.formatVersion.number ∧ u16At bytes 10 = snapshot.layout.keyBytes ∧
      u16At bytes 12 = snapshot.layout.maxValueBytes ∧ (bytes.take 16).drop 14 = [0, 0] ∧
      u64At bytes 16 = snapshot.generation ∧ u64At bytes 24 = snapshot.root ∧
      u64At bytes 32 = snapshot.end_ ∧
      (snapshot.formatVersion = .pipelined → u64At bytes 40 = snapshot.publication) ∧
      (bytes.take checksumStart).drop (reservedStart snapshot.formatVersion) =
        replicate (checksumStart - reservedStart snapshot.formatVersion) 0 := by
  obtain ⟨digest, hbytes⟩ := headerPage_bytes blake3 snapshot
  have hkey : snapshot.layout.keyBytes < 2 ^ 16 :=
    lt_of_le_of_lt snapshot.layout.keyBytes_le (by decide)
  have hvalue : snapshot.layout.maxValueBytes < 2 ^ 16 :=
    lt_of_le_of_lt snapshot.layout.maxValueBytes_le (by decide)
  have hnumber : snapshot.formatVersion.number < 2 ^ 16 := by
    cases snapshot.formatVersion <;> decide
  have hend : snapshot.end_ < 2 ^ 64 := lt_of_le_of_lt h.end_le (by decide)
  have hroot : snapshot.root < 2 ^ 64 := by
    rcases h.root_spec with hroot | hroot <;> omega
  have hpublication := lt_of_le_of_lt h.publication_le h.generation_lt
  simp only [hbytes, headerFields, flatten_append, flatten_cons, flatten_nil, append_nil,
    append_assoc, drop_take]
  refine ⟨take_left' (length_headerMagic _), ?_, ?_, ?_, ?_, ?_, ?_, ?_, fun hversion => ?_, ?_⟩
  · simp [u16At_skip, length_headerMagic, u16At_zero hnumber]
  · simp [u16At_skip, length_headerMagic, u16At_zero hkey]
  · simp [u16At_skip, length_headerMagic, u16At_zero hvalue]
  · simp [drop_skip, length_headerMagic]
  · simp [-reduceReplicate, u64At_skip, length_headerMagic, u64At_zero h.generation_lt]
  · simp [-reduceReplicate, u64At_skip, length_headerMagic, u64At_zero hroot]
  · simp [-reduceReplicate, u64At_skip, length_headerMagic, u64At_zero hend]
  · simp [-reduceReplicate, u64At_skip, length_headerMagic, hversion, u64At_zero hpublication]
  · cases hversion : snapshot.formatVersion <;>
      simp [-reduceReplicate, drop_skip, length_headerMagic, reservedStart, checksumStart,
        pageBytes, take_append]

theorem decode_headerPage (h : snapshot.Publishable) :
    decode blake3 (headerPage blake3 snapshot none) snapshot.slot = .ok (some snapshot) := by
  obtain ⟨hmagic, hnumber, hkey, hvalue, hreserved, hgeneration, hroot, hend, hpublication, hzero⟩ :=
    @headerPage_fields blake3 snapshot h
  have hvalid : (headerPage blake3 snapshot none).checksumValid blake3 = true :=
    Page.checksumValid_seal _ _
  have hversion : headerVersion (headerPage blake3 snapshot none).bytes =
      some snapshot.formatVersion := by
    unfold headerVersion
    rw [hmagic, hnumber]
    cases snapshot.formatVersion <;> rfl
  have hlayout : Layout.new snapshot.layout.keyBytes snapshot.layout.maxValueBytes =
      .ok snapshot.layout :=
    dif_pos ⟨snapshot.layout.keyBytes_pos, snapshot.layout.keyBytes_le,
      snapshot.layout.maxValueBytes_le⟩
  have hnewest : u64At (headerPage blake3 snapshot none).bytes
      (if snapshot.formatVersion = .pipelined then 40 else 16) = snapshot.publication := by
    split
    next hpipelined => exact hpublication hpipelined
    next hpipelined => rw [hgeneration, h.publication_eq hpipelined]
  unfold decode
  simp only [hvalid, Bool.true_eq_false, if_false, hversion, hreserved, hzero, hkey, hvalue,
    hlayout, hgeneration, hnewest, hroot, hend]
  rw [if_neg (by simp), if_pos h.bounded]

theorem decode_zero (hzero : Page.zero.checksumValid blake3 = false) (slot : Nat) :
    decode blake3 Page.zero slot = .ok none := by
  unfold decode
  rw [if_pos hzero, if_pos (by simp [Page.zero])]

variable {file : File} {older next : Snapshot}

/-- A root that was published before another one. -/
structure Snapshot.Precedes (older newer : Snapshot) : Prop where
  publishable : older.Publishable
  succeeds : newer.Succeeds older

/-- The newest root is in its slot, and in the other slot the root before it, or nothing yet. -/
structure Headers (blake3 : List UInt8 → Digest) (file : File) (snapshot : Snapshot) : Prop where
  publishable : snapshot.Publishable
  newest : file.readExactAt (snapshot.slot * pageBytes) = some (headerPage blake3 snapshot none)
  other : snapshot.generation = 1 ∧
      file.readExactAt ((1 - snapshot.slot) * pageBytes) = some Page.zero ∨
    ∃ older : Snapshot, older.Precedes snapshot ∧
      file.readExactAt (older.slot * pageBytes) = some (headerPage blake3 older none)

theorem Snapshot.Precedes.slot (h : older.Precedes snapshot) (hnext : snapshot.Publishable) :
    older.slot = 1 - snapshot.slot := by
  have hsucceeds := h.succeeds.2.2.1
  rw [h.publishable.slot_eq, hnext.slot_eq]
  omega

/-- The root that was published last is read. -/
theorem Headers.readSnapshot (h : Headers blake3 file snapshot)
    (hzero : Page.zero.checksumValid blake3 = false) : readSnapshot blake3 file = .ok snapshot := by
  have hslot : snapshot.slot = 0 ∨ snapshot.slot = 1 := by
    rw [h.publishable.slot_eq]
    omega
  have hnewest := @decode_headerPage blake3 snapshot h.publishable
  have hread := h.newest
  unfold Isam.readSnapshot
  rcases h.other with ⟨hgeneration, hother⟩ | ⟨older, hprecedes, hother⟩
  · have hone : snapshot.publication = 1 ∧ snapshot.generation = 1 := by
      have := h.publishable.publication_pos
      have := h.publishable.publication_le
      omega
    rcases hslot with hslot | hslot <;> rw [hslot] at hread hother hnewest <;>
      simp at hread hother <;>
      simp [hread, hother, hnewest, decode_zero hzero, chooseRoot, hone]
  · have holder := @decode_headerPage blake3 older hprecedes.publishable
    have hlater := hprecedes.succeeds.2.2.1
    rw [hprecedes.slot h.publishable] at hother holder
    rcases hslot with hslot | hslot <;> rw [hslot] at hread hother hnewest holder <;>
      simp at hread hother holder <;>
      simp [hread, hother, hnewest, holder, chooseRoot, hlater, hprecedes.succeeds]

end Headers

end BriskDB.Isam
