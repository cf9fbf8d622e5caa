import BriskDB.Lib.Bytes

/-!
# Indexed-record storage: records, snapshots and files

The vocabulary of the store: persisted layouts, records and mutations, published
snapshots, and the data file. Every read and write of the data file is one page at a
page boundary, so a file is a sequence of pages with a length in bytes.
-/

namespace BriskDB.Isam

open Bytes List

inductive Error where
  | io
  | invalid (message : String)
  | corrupt (message : String)
  | busy
  | duplicate
  | readOnly
  | wrongProcess
  | lockRegistryPoisoned
  | commitUnknown
  deriving DecidableEq, Repr

abbrev Result := Except Error

/-- Persisted record sizes within the accepted bounds. -/
structure Layout where
  keyBytes : Nat
  maxValueBytes : Nat
  keyBytes_pos : 1 ≤ keyBytes
  keyBytes_le : keyBytes ≤ 128
  maxValueBytes_le : maxValueBytes ≤ 1024
  deriving DecidableEq

structure Record where
  key : List UInt8
  value : List UInt8
  deriving DecidableEq, Repr

/-- Operations of a batch; deleting an absent key is a no-op. -/
inductive Mutation where
  | insert (record : Record)
  | put (record : Record)
  | delete (key : List UInt8)
  deriving DecidableEq, Repr

def Mutation.key : Mutation → List UInt8
  | .insert record => record.key
  | .put record => record.key
  | .delete key => key

/-- The checks of a write batch on one mutation. -/
def Layout.Accepts (layout : Layout) (mutation : Mutation) : Prop :=
  mutation.key.length = layout.keyBytes ∧
    match mutation with
    | .insert record | .put record => record.value.length ≤ layout.maxValueBytes
    | .delete _ => True

instance (layout : Layout) (mutation : Mutation) : Decidable (layout.Accepts mutation) := by
  unfold Layout.Accepts
  cases mutation <;> exact inferInstance

def Layout.checkKey (layout : Layout) (key : List UInt8) : Result Unit :=
  if key.length ≠ layout.keyBytes then
    .error (.invalid "key does not match the persisted fixed width")
  else .ok ()

def Layout.checkMutation (layout : Layout) (mutation : Mutation) : Result Unit := do
  layout.checkKey mutation.key
  match mutation with
  | .insert record | .put record =>
    if record.value.length > layout.maxValueBytes then
      throw (.invalid "value exceeds persisted bound")
  | .delete _ => return ()

theorem Layout.Accepts.checkMutation {layout : Layout} {mutation : Mutation}
    (h : layout.Accepts mutation) : layout.checkMutation mutation = .ok () := by
  have hkey : layout.checkKey mutation.key = .ok () := if_neg (not_not.mpr h.1)
  unfold Layout.checkMutation
  rw [hkey]
  cases mutation with
  | insert record | put record => exact if_neg (not_lt.mpr h.2)
  | delete key => rfl

def Layout.Holds (layout : Layout) (record : Record) : Prop :=
  record.key.length = layout.keyBytes ∧ record.value.length ≤ layout.maxValueBytes

/-- Fixed slots (2), packed leaves (3), packed leaves with pipelined commits (4). -/
inductive FormatVersion where
  | fixed
  | packed
  | pipelined
  deriving DecidableEq, Repr

def FormatVersion.number : FormatVersion → Nat
  | .fixed => 2
  | .packed => 3
  | .pipelined => 4

structure Snapshot where
  formatVersion : FormatVersion
  layout : Layout
  generation : Nat
  publication : Nat
  root : Nat
  end_ : Nat
  deriving DecidableEq

def pageBytes : Nat := 4096

def headerBytes : Nat := 2 * pageBytes

def checksumStart : Nat := pageBytes - 32

def i64Max : Nat := 2 ^ 63 - 1

def dataStart : FormatVersion → Nat
  | .pipelined => headerBytes + pageBytes
  | .fixed | .packed => headerBytes

structure Page where
  bytes : List UInt8
  length_bytes : bytes.length = pageBytes
  deriving DecidableEq

/-- The first `n` bytes of a text, filled up with zeros. -/
def zeroPad (n : Nat) (bytes : List UInt8) : List UInt8 :=
  (bytes ++ List.replicate (n - bytes.length) 0).take n

theorem length_zeroPad (n : Nat) (bytes : List UInt8) : (zeroPad n bytes).length = n := by
  rw [zeroPad, length_take, length_append, length_replicate]
  omega

theorem zeroPad_eq {n : Nat} {bytes : List UInt8} (h : bytes.length ≤ n) :
    zeroPad n bytes = bytes ++ List.replicate (n - bytes.length) 0 := by
  rw [zeroPad, take_of_length_le]
  simp [*]

def Page.zero : Page := ⟨List.replicate pageBytes 0, length_replicate⟩

abbrev Digest := { bytes : List UInt8 // bytes.length = 32 }

variable (blake3 : List UInt8 → Digest)

/-- A page from its payload: zero padding and the digest of everything before it. -/
def Page.seal (payload : List UInt8) : Page where
  bytes := zeroPad checksumStart payload ++ (blake3 (zeroPad checksumStart payload)).1
  length_bytes := by
    rw [length_append, length_zeroPad, (blake3 _).2]
    rfl

def Page.checksumValid (page : Page) : Bool :=
  (blake3 (page.bytes.take checksumStart)).1 == page.bytes.drop checksumStart

theorem Page.bytes_seal (payload : List UInt8) : (Page.seal blake3 payload).bytes =
      zeroPad checksumStart payload ++ (blake3 (zeroPad checksumStart payload)).1 := rfl

theorem Page.checksumValid_seal (payload : List UInt8) :
    (Page.seal blake3 payload).checksumValid blake3 = true := by
  rw [checksumValid, bytes_seal, take_left' (length_zeroPad _ _),
    drop_left' (length_zeroPad _ _), beq_self_eq_true]

theorem Page.eq_of_take {blake3 : List UInt8 → Digest} {left right : Page}
    (hleft : left.checksumValid blake3 = true) (hright : right.checksumValid blake3 = true)
    (htake : left.bytes.take checksumStart = right.bytes.take checksumStart) : left = right := by
  have hdrop : left.bytes.drop checksumStart = right.bytes.drop checksumStart := by
    rw [← beq_iff_eq.mp hleft, ← beq_iff_eq.mp hright, htake]
  have hbytes : left.bytes = right.bytes := by
    rw [← take_append_drop checksumStart left.bytes, htake, hdrop, take_append_drop]
  cases left
  cases right
  cases hbytes
  rfl

def u16At (bytes : List UInt8) (offset : Nat) : Nat :=
  toLe ((bytes.drop offset).take 2)

def u64At (bytes : List UInt8) (offset : Nat) : Nat :=
  toLe ((bytes.drop offset).take 8)

theorem u16At_append {before after : List UInt8} {offset n : Nat} (hbefore : before.length = offset)
    (hn : n < 2 ^ 16) : u16At (before ++ (ofLe 2 n ++ after)) offset = n := by
  rw [u16At, drop_left' hbefore, take_left' (ofLe_length 2 n),
    toLe_ofLe_of_lt hn]

theorem u64At_append {before after : List UInt8} {offset n : Nat} (hbefore : before.length = offset)
    (hn : n < 2 ^ 64) : u64At (before ++ (ofLe 8 n ++ after)) offset = n := by
  rw [u64At, drop_left' hbefore, take_left' (ofLe_length 8 n),
    toLe_ofLe_of_lt hn]

theorem u16At_zero {after : List UInt8} {n : Nat} (hn : n < 2 ^ 16) :
    u16At (ofLe 2 n ++ after) 0 = n :=
  @u16At_append [] after 0 n rfl hn

theorem u64At_zero {after : List UInt8} {n : Nat} (hn : n < 2 ^ 64) :
    u64At (ofLe 8 n ++ after) 0 = n :=
  @u64At_append [] after 0 n rfl hn

theorem drop_skip {before after : List UInt8} {offset : Nat} (h : before.length ≤ offset) :
    (before ++ after).drop offset = after.drop (offset - before.length) := by
  rw [drop_append, drop_of_length_le h, nil_append]

theorem u16At_skip {before after : List UInt8} {offset : Nat} (h : before.length ≤ offset) :
    u16At (before ++ after) offset = u16At after (offset - before.length) := by
  rw [u16At, u16At, drop_skip h]

theorem u64At_skip {before after : List UInt8} {offset : Nat} (h : before.length ≤ offset) :
    u64At (before ++ after) offset = u64At after (offset - before.length) := by
  rw [u64At, u64At, drop_skip h]

theorem eq_replicate_zero {n : Nat} {bytes : List UInt8} (h : ¬ bytes.any (· != 0) = true)
    (hlength : bytes.length = n) : bytes = replicate n 0 := by
  refine eq_replicate_iff.mpr ⟨hlength, fun byte hbyte => ?_⟩
  grind

/-- The data file: its length in bytes and its pages, zero where nothing was written. -/
structure File where
  len : Nat
  page : Nat → Page
  zero_beyond : ∀ index, len ≤ index * pageBytes → page index = Page.zero

namespace File

def empty : File := ⟨0, fun _ => Page.zero, fun _ _ => rfl⟩

def readExactAt (file : File) (offset : Nat) : Option Page :=
  if offset + pageBytes ≤ file.len then some (file.page (offset / pageBytes)) else none

def writeAllAt (file : File) (page : Page) (offset : Nat) : File where
  len := max file.len (offset + pageBytes)
  page := Function.update file.page (offset / pageBytes) page
  zero_beyond := by
    intro index hindex
    have hlt : offset / pageBytes * pageBytes ≤ offset := Nat.div_mul_le_self _ _
    have hpos : 0 < pageBytes := by decide
    rw [Function.update_of_ne]
    · exact file.zero_beyond index (le_trans (le_max_left _ _) hindex)
    · grind

def setLen (file : File) (len : Nat) : File where
  len := len
  page index := if index * pageBytes < len then file.page index else Page.zero
  zero_beyond := fun _ hindex => if_neg (Nat.not_lt.mpr hindex)

end File

end BriskDB.Isam
