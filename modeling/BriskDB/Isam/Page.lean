import BriskDB.Lib.Blake3
import BriskDB.Lib.ByteOrder
import BriskDB.Lib.KeyedList
import BriskDB.Lib.Packing
import BriskDB.Lib.Result
import BriskDB.Isam.Types

/-!
# Tree pages

The image of a tree page and its strict reader. A page carries its own offset and
generation, a level, and its entries in strictly ascending key order: key and bounded
value in a leaf, maximum key and child offset in a branch.
-/

namespace BriskDB.Isam

open ByteOrder Result Packing Bytes List

def pagePrefix : Nat := 40

def maxLevel : Nat := 31

/-- `BRIPAGE1` -/
def fixedPageMagic : List UInt8 := [0x42, 0x52, 0x49, 0x50, 0x41, 0x47, 0x45, 0x31]

/-- `BRIPAGE2` -/
def packedPageMagic : List UInt8 := [0x42, 0x52, 0x49, 0x50, 0x41, 0x47, 0x45, 0x32]

structure Node where
  level : Nat
  entries : List Record
  deriving DecidableEq, Repr

def stride (layout : Layout) (level : Nat) : Nat :=
  layout.keyBytes + if level = 0 then 2 + layout.maxValueBytes else 8

def FormatVersion.isPacked : FormatVersion → Bool
  | .packed | .pipelined => true
  | .fixed => false

variable (snapshot : Snapshot)

def packedLeaf (level : Nat) : Bool :=
  snapshot.formatVersion.isPacked && level == 0

def pageMagic : List UInt8 :=
  if snapshot.formatVersion.isPacked then packedPageMagic else fixedPageMagic

/-- The least room an entry takes. -/
def minimumWidth (level : Nat) : Nat :=
  if packedLeaf snapshot level then snapshot.layout.keyBytes + 2 else stride snapshot.layout level

def capacity (level : Nat) : Nat :=
  (checksumStart - pagePrefix) / minimumWidth snapshot level

def child (entry : Record) : Nat := u64At entry.value 0

/-- The value of a leaf entry at the start of `body`, and what follows the entry. -/
def readLeafValue (body : List UInt8) : Result (List UInt8 × List UInt8) :=
  let len := u16At body 0
  let bodyWidth := if packedLeaf snapshot 0 then 2 + len else 2 + snapshot.layout.maxValueBytes
  if len > snapshot.layout.maxValueBytes ∨ bodyWidth > body.length ∨
      ((body.take bodyWidth).drop (2 + len)).any (· != 0) then
    .error (.corrupt "invalid leaf value length or padding")
  else .ok ((body.drop 2).take len, body.drop bodyWidth)

/-- The child pointer of a branch entry. -/
def readPointer (offset : Nat) (body : List UInt8) : Result (List UInt8 × List UInt8) :=
  let pointer := u64At body 0
  if pointer < dataStart snapshot.formatVersion ∨ pointer ≥ offset ∨ pointer % pageBytes ≠ 0 then
    .error (.corrupt "invalid branch pointer")
  else .ok (body.take 8, body.drop 8)

def readValue (offset level : Nat) (body : List UInt8) : Result (List UInt8 × List UInt8) :=
  if level = 0 then readLeafValue snapshot body else readPointer snapshot offset body

/-- Read `count` entries after the entry with the key `previous`. -/
def readEntries (snapshot : Snapshot) (offset level : Nat) :
    Nat → Option (List UInt8) → List UInt8 → Result (List Record × List UInt8)
  | 0, _, payload => .ok ([], payload)
  | count + 1, previous, payload =>
    if payload.length < minimumWidth snapshot level then
      .error (.corrupt "page entry exceeds payload bounds")
    else do
      let key := payload.take snapshot.layout.keyBytes
      let body := payload.drop snapshot.layout.keyBytes
      let (value, payload) ← readValue snapshot offset level body
      if previous.any (fun previous => key ≤ previous) then
        .error (.corrupt "page keys are not strictly ordered")
      else do
        let (entries, payload) ← readEntries snapshot offset level count (some key) payload
        return (⟨key, value⟩ :: entries, payload)

variable (blake3 : List UInt8 → Digest)

/-- Check a page image against the snapshot that refers to it. -/
def decodeNode (snapshot : Snapshot) (offset : Nat) (page : Page) : Result Node :=
  let bytes := page.bytes
  if page.checksumValid blake3 = false ∨ bytes.take 8 ≠ pageMagic snapshot ∨
      u64At bytes 8 ≠ offset then
    .error (.corrupt "page checksum, magic, or position mismatch")
  else
    let generation := u64At bytes 16
    let level := ((bytes.drop 24).headD 0).toNat
    let count := u16At bytes 26
    if level > maxLevel ∨ generation = 0 ∨ generation > snapshot.generation ∨
        (bytes.drop 25).headD 0 ≠ 0 ∨ ((bytes.take pagePrefix).drop 28).any (· != 0) ∨
        count = 0 ∨ count > capacity snapshot level then
      .error (.corrupt "invalid page generation, level, or count")
    else do
      let (entries, tail) ← readEntries snapshot offset level count none
        ((bytes.take checksumStart).drop pagePrefix)
      if tail.any (· != 0) then .error (.corrupt "nonzero page tail")
      else return ⟨level, entries⟩

def readNode (file : File) (snapshot : Snapshot) (offset : Nat) : Result Node :=
  if offset < dataStart snapshot.formatVersion ∨ offset ≥ snapshot.end_ ∨
      offset % pageBytes ≠ 0 then
    .error (.corrupt "page pointer outside committed bounds")
  else
    match file.readExactAt offset with
    | none => .error (.corrupt "truncated tree page")
    | some page => decodeNode blake3 snapshot offset page

def entryWidth (level : Nat) (entry : Record) : Nat :=
  if packedLeaf snapshot level then snapshot.layout.keyBytes + 2 + entry.value.length
  else stride snapshot.layout level

def entryBytes (level : Nat) (entry : Record) : List UInt8 :=
  zeroPad (entryWidth snapshot level entry)
    (entry.key ++ if level = 0 then ofLe 2 entry.value.length ++ entry.value else entry.value)

def pageHeader (offset level count : Nat) : List UInt8 :=
  pageMagic snapshot ++ (ofLe 8 offset ++ (ofLe 8 snapshot.generation ++
    ([UInt8.ofNat level, 0] ++ (ofLe 2 count ++ List.replicate 12 0))))

def pagePayload (offset level : Nat) (entries : List Record) : List UInt8 :=
  pageHeader snapshot offset level entries.length ++ entries.flatMap (entryBytes snapshot level)

def pageImage (snapshot : Snapshot) (offset level : Nat) (entries : List Record) : Page :=
  Page.seal blake3 (pagePayload snapshot offset level entries)

section RoundTrip

variable {snapshot : Snapshot} {offset level : Nat}

/-- An entry that a page of the snapshot may hold. -/
def EntryFits (snapshot : Snapshot) (offset level : Nat) (entry : Record) : Prop :=
  entry.key.length = snapshot.layout.keyBytes ∧
    if level = 0 then entry.value.length ≤ snapshot.layout.maxValueBytes
    else ∃ pointer, entry.value = ofLe 8 pointer ∧ pointer < 2 ^ 64 ∧
      dataStart snapshot.formatVersion ≤ pointer ∧ pointer < offset ∧ pointer % pageBytes = 0

def entryBody (snapshot : Snapshot) (level : Nat) (value : List UInt8) : List UInt8 :=
  if level = 0 then
    ofLe 2 value.length ++ (value ++
      List.replicate (if packedLeaf snapshot 0 then 0
        else snapshot.layout.maxValueBytes - value.length) 0)
  else value

variable {entry : Record} {rest : List UInt8} {entries : List Record}

theorem entryBytes_eq (h : EntryFits snapshot offset level entry) :
    entryBytes snapshot level entry = entry.key ++ entryBody snapshot level entry.value := by
  obtain ⟨hkey, hvalue⟩ := h
  unfold entryBytes entryBody entryWidth stride
  by_cases hlevel : level = 0
  · subst hlevel
    rw [if_pos rfl] at hvalue
    cases hpacked : packedLeaf snapshot 0 with
    | true =>
      simp only [if_pos]
      rw [zeroPad_eq] <;> simp [hkey] <;> omega
    | false =>
      simp only [if_pos, Bool.false_eq_true, if_neg, not_false_eq_true]
      simp [*, zeroPad_eq, Nat.add_sub_add_left]
  · rw [if_neg hlevel] at hvalue
    obtain ⟨pointer, hpointer, _⟩ := hvalue
    simp [*, packedLeaf, zeroPad_eq]

theorem length_entryBytes (entry : Record) :
    (entryBytes snapshot level entry).length = entryWidth snapshot level entry :=
  length_zeroPad _ _

theorem minimumWidth_pos (snapshot : Snapshot) (level : Nat) : 0 < minimumWidth snapshot level := by
  have := snapshot.layout.keyBytes_pos
  unfold minimumWidth stride
  split <;> omega

theorem minimumWidth_le_entryWidth (entry : Record) :
    minimumWidth snapshot level ≤ entryWidth snapshot level entry := by
  unfold minimumWidth entryWidth
  split <;> omega

theorem readLeafValue_append {value : List UInt8}
    (hvalue : value.length ≤ snapshot.layout.maxValueBytes) :
    readLeafValue snapshot (entryBody snapshot 0 value ++ rest) = .ok (value, rest) := by
  have hmax := snapshot.layout.maxValueBytes_le
  have hlen : u16At (entryBody snapshot 0 value ++ rest) 0 = value.length := by
    simp only [entryBody, if_pos, append_assoc]
    exact u16At_zero (by omega)
  have hdrop : (entryBody snapshot 0 value ++ rest).drop 2 =
      value ++ (List.replicate (if packedLeaf snapshot 0 then 0
        else snapshot.layout.maxValueBytes - value.length) 0 ++ rest) := by
    simp only [entryBody, if_pos, append_assoc]
    exact drop_left' (ofLe_length 2 _)
  have hbody : (entryBody snapshot 0 value).length =
      if packedLeaf snapshot 0 then 2 + value.length else 2 + snapshot.layout.maxValueBytes := by
    simp only [entryBody, if_pos, length_append, ofLe_length, length_replicate]
    split <;> omega
  unfold readLeafValue
  simp only [hlen]
  rw [← hbody, take_left, drop_left, hdrop, take_left, if_neg]
  simp only [not_or, length_append]
  refine ⟨Nat.not_lt.mpr hvalue, Nat.not_lt.mpr (Nat.le_add_right _ _), ?_⟩
  have htail : (entryBody snapshot 0 value).drop (2 + value.length) =
      List.replicate (if packedLeaf snapshot 0 then 0
        else snapshot.layout.maxValueBytes - value.length) 0 := by
    simp only [entryBody, if_pos]
    rw [← append_assoc, drop_left' (by simp)]
  simp [*]

theorem readPointer_append {pointer : Nat} (hpointer : pointer < 2 ^ 64)
    (hstart : dataStart snapshot.formatVersion ≤ pointer) (hlt : pointer < offset)
    (haligned : pointer % pageBytes = 0) :
    readPointer snapshot offset (ofLe 8 pointer ++ rest) =
      .ok (ofLe 8 pointer, rest) := by
  have hread : u64At (ofLe 8 pointer ++ rest) 0 = pointer :=
    u64At_zero hpointer
  simp [*, readPointer]

theorem readValue_append (h : EntryFits snapshot offset level entry) (rest : List UInt8) :
    readValue snapshot offset level (entryBody snapshot level entry.value ++ rest) =
      .ok (entry.value, rest) := by
  obtain ⟨_, hvalue⟩ := h
  unfold readValue
  by_cases hlevel : level = 0
  · subst hlevel
    rw [if_pos rfl] at hvalue ⊢
    exact readLeafValue_append hvalue
  · rw [if_neg hlevel] at hvalue ⊢
    obtain ⟨pointer, hpointer, hlt, hstart, hoffset, haligned⟩ := hvalue
    rw [entryBody, if_neg hlevel, hpointer]
    exact readPointer_append hlt hstart hoffset haligned

theorem readEntries_append {previous : Option (List UInt8)}
    (hfits : ∀ entry ∈ entries, EntryFits snapshot offset level entry)
    (hsorted : KeyedList.Sorted Record.key entries)
    (hprevious : ∀ key ∈ previous, ∀ entry ∈ entries, key < entry.key) (rest : List UInt8) :
    readEntries snapshot offset level entries.length previous
      (entries.flatMap (entryBytes snapshot level) ++ rest) = .ok (entries, rest) := by
  induction entries generalizing previous with
  | nil => rfl
  | cons entry entries ih =>
    obtain ⟨hentry, hfits⟩ := forall_mem_cons.mp hfits
    obtain ⟨hlt, hsorted⟩ := KeyedList.sorted_cons.mp hsorted
    have hroom : ¬ ((entryBytes snapshot level entry ++
        (entries.flatMap (entryBytes snapshot level) ++ rest)).length <
          minimumWidth snapshot level) := by
      have := @minimumWidth_le_entryWidth snapshot level entry
      rw [length_append, length_entryBytes]
      omega
    have hordered : ¬ previous.any (fun previous => entry.key ≤ previous) = true := by
      cases previous with
      | none => exact Bool.false_ne_true
      | some key =>
        simp [*]
    rw [length_cons, flatMap_cons, append_assoc, readEntries, if_neg hroom,
      entryBytes_eq hentry, append_assoc, take_left' hentry.1,
      drop_left' hentry.1]
    have hrest := @ih (some entry.key) hfits hsorted (by rintro key ⟨⟩; exact hlt)
    simp [*, readValue_append]

variable {blake3 : List UInt8 → Digest}

structure PageFits (snapshot : Snapshot) (offset level : Nat) (entries : List Record) : Prop where
  level_le : level ≤ maxLevel
  ne_nil : entries ≠ []
  fits : ∀ entry ∈ entries, EntryFits snapshot offset level entry
  sorted : KeyedList.Sorted Record.key entries
  used_le : used (entryWidth snapshot level) entries ≤ checksumStart - pagePrefix

theorem length_entries (entries : List Record) :
    (entries.flatMap (entryBytes snapshot level)).length =
      used (entryWidth snapshot level) entries := by
  rw [length_flatMap, used]
  simp [length_entryBytes]

theorem PageFits.length_le_capacity
    (h : PageFits snapshot offset level entries) : entries.length ≤ capacity snapshot level := by
  refine (Nat.le_div_iff_mul_le (minimumWidth_pos snapshot level)).mpr (le_trans ?_ h.used_le)
  exact length_mul_le_used _ fun entry _ => minimumWidth_le_entryWidth entry

theorem length_pageMagic : (pageMagic snapshot).length = 8 := by
  unfold pageMagic
  split <;> rfl

theorem length_pageHeader (count : Nat) :
    (pageHeader snapshot offset level count).length = pagePrefix := by
  simp [pageHeader, length_pageMagic, ofLe_length, pagePrefix]

theorem pageHeader_fields {count : Nat} (hoffset : offset < 2 ^ 64)
    (hgeneration : snapshot.generation < 2 ^ 64) (hlevel : level < 256) (hcount : count < 2 ^ 16)
    (rest : List UInt8) :
    let bytes := pageHeader snapshot offset level count ++ rest
    bytes.take 8 = pageMagic snapshot ∧ u64At bytes 8 = offset ∧
      u64At bytes 16 = snapshot.generation ∧ ((bytes.drop 24).headD 0).toNat = level ∧
      (bytes.drop 25).headD 0 = 0 ∧ u16At bytes 26 = count ∧
      (bytes.take pagePrefix).drop 28 = List.replicate 12 0 := by
  have hmagic := @length_pageMagic snapshot
  -- The header cut before the generation, before the level, and before the count.
  have hgenerations : pageHeader snapshot offset level count ++ rest =
      (pageMagic snapshot ++ ofLe 8 offset) ++ (ofLe 8 snapshot.generation ++
        ([UInt8.ofNat level, 0] ++ (ofLe 2 count ++ (List.replicate 12 0 ++ rest)))) := by
    simp [pageHeader]
  have hlevels : pageHeader snapshot offset level count ++ rest =
      (pageMagic snapshot ++ (ofLe 8 offset ++ ofLe 8 snapshot.generation)) ++
        (UInt8.ofNat level :: 0 :: (ofLe 2 count ++ (List.replicate 12 0 ++ rest))) := by
    simp [pageHeader]
  have hcounts : ∀ rest, pageHeader snapshot offset level count ++ rest =
      (pageMagic snapshot ++ (ofLe 8 offset ++ (ofLe 8 snapshot.generation ++
        [UInt8.ofNat level, 0]))) ++ (ofLe 2 count ++ (List.replicate 12 0 ++ rest)) := by
    intro rest
    simp [pageHeader]
  have hfront : (pageMagic snapshot ++
      (ofLe 8 offset ++ ofLe 8 snapshot.generation)).length = 24 := by
    simp [hmagic, ofLe_length]
  refine ⟨?_, ?_, ?_, ?_, ?_, ?_, ?_⟩
  · simp [*]
  · rw [pageHeader, append_assoc, append_assoc]
    exact u64At_append hmagic hoffset
  · rw [hgenerations, u64At_append _ hgeneration]
    simp [*]
  · rw [hlevels, drop_left' hfront]
    exact Nat.mod_eq_of_lt hlevel
  · rw [hlevels, show (25 : Nat) = 24 + 1 from rfl, ← drop_drop, drop_left' hfront]
    rfl
  · rw [hcounts, u16At_append _ hcount]
    simp [*]
  · rw [take_left' (length_pageHeader count), ← append_nil (pageHeader _ _ _ _), hcounts,
      append_nil, ← append_assoc, drop_left']
    simp [hmagic, ofLe_length]

theorem bytes_pageImage {entries : List Record} (h : PageFits snapshot offset level entries) :
    ∃ digest, (pageImage blake3 snapshot offset level entries).bytes =
      pageHeader snapshot offset level entries.length ++
        ((entries.flatMap (entryBytes snapshot level) ++ List.replicate
          (checksumStart - pagePrefix -
          used (entryWidth snapshot level) entries) 0) ++ digest) := by
  have hused := h.used_le
  have hpad : zeroPad checksumStart (pagePayload snapshot offset level entries) =
      pageHeader snapshot offset level entries.length ++
        (entries.flatMap (entryBytes snapshot level) ++ List.replicate (checksumStart - pagePrefix -
          used (entryWidth snapshot level) entries) 0) := by
    rw [pagePayload, zeroPad_eq]
    · simp only [append_assoc, length_append, length_pageHeader, length_entries,
        Nat.sub_add_eq]
    · rw [length_append, length_pageHeader, length_entries]
      exact Nat.add_le_of_le_sub' (by decide) hused
  simp [*, pageImage, Page.bytes_seal]

/-- A written page is read back with its level and entries. -/
theorem decodeNode_pageImage (h : PageFits snapshot offset level entries)
    (hoffset : offset < 2 ^ 64) (hgeneration : snapshot.generation < 2 ^ 64)
    (hpos : snapshot.generation ≠ 0) :
    decodeNode blake3 snapshot offset (pageImage blake3 snapshot offset level entries) =
      .ok ⟨level, entries⟩ := by
  have hcount := h.length_le_capacity
  have hlevel := h.level_le
  have hsmall : capacity snapshot level < 2 ^ 16 :=
    lt_of_le_of_lt (Nat.div_le_self _ _) (by decide)
  have hvalid : (pageImage blake3 snapshot offset level entries).checksumValid blake3 = true :=
    Page.checksumValid_seal _ _
  have hlen : entries.length ≠ 0 := by simpa using h.ne_nil
  obtain ⟨digest, hbytes⟩ := @bytes_pageImage snapshot offset level blake3 entries h
  obtain ⟨hmagic, hposition, hgen, hlev, hzero, hcnt, hreserved⟩ :=
    @pageHeader_fields snapshot offset level entries.length hoffset hgeneration
      (lt_of_le_of_lt hlevel (by decide)) (by omega)
      ((entries.flatMap (entryBytes snapshot level) ++ List.replicate (checksumStart - pagePrefix -
          used (entryWidth snapshot level) entries) 0) ++ digest)
  have hpayload : ((pageHeader snapshot offset level entries.length ++
      ((entries.flatMap (entryBytes snapshot level) ++ List.replicate (checksumStart - pagePrefix -
        used (entryWidth snapshot level) entries) 0) ++ digest)).take checksumStart).drop
          pagePrefix =
      entries.flatMap (entryBytes snapshot level) ++ List.replicate (checksumStart - pagePrefix -
        used (entryWidth snapshot level) entries) 0 := by
    have hused := h.used_le
    rw [← append_assoc, take_left', drop_left' (length_pageHeader _)]
    rw [length_append, length_pageHeader, length_append, length_entries,
      length_replicate]
    have : pagePrefix ≤ checksumStart := by decide
    omega
  unfold decodeNode
  simp only [hbytes, hmagic, hposition, hgen, hlev, hzero, hcnt, hreserved, hvalid, hpayload]
  rw [if_neg (by simp), if_neg, readEntries_append h.fits h.sorted (by intro key hkey; cases hkey),
    ok_bind]
  · simp
  · simp [*]

end RoundTrip

structure Snapshot.Extends (earlier later : Snapshot) : Prop where
  formatVersion_eq : later.formatVersion = earlier.formatVersion
  layout_eq : later.layout = earlier.layout
  generation_le : earlier.generation ≤ later.generation
  end_le : earlier.end_ ≤ later.end_

section Extends

variable {blake3 : List UInt8 → Digest} {earlier later : Snapshot}

theorem minimumWidth_extends (h : earlier.Extends later) (level : Nat) :
    minimumWidth later level = minimumWidth earlier level := by
  unfold minimumWidth packedLeaf
  rw [h.formatVersion_eq, h.layout_eq]

theorem readValue_extends (h : earlier.Extends later) (offset level : Nat) :
    readValue later offset level = readValue earlier offset level := by
  funext body
  unfold readValue readLeafValue readPointer packedLeaf
  rw [h.formatVersion_eq, h.layout_eq]

theorem readEntries_extends (h : earlier.Extends later) (offset level count : Nat)
    (previous : Option (List UInt8)) (payload : List UInt8) :
    readEntries later offset level count previous payload =
      readEntries earlier offset level count previous payload := by
  induction count generalizing previous payload with
  | zero => rfl
  | succ count ih =>
    unfold readEntries
    rw [readValue_extends h, minimumWidth_extends h, h.layout_eq]
    simp only [ih]

variable {offset : Nat} {node : Node} {file : File}

/-- A node read at one snapshot reads the same at every later one. -/
theorem decodeNode_extends (h : earlier.Extends later) {page : Page}
    (hnode : decodeNode blake3 earlier offset page = .ok node) :
    decodeNode blake3 later offset page = .ok node := by
  have hmagic : pageMagic later = pageMagic earlier := by
    unfold pageMagic
    rw [h.formatVersion_eq]
  have hcapacity : ∀ level, capacity later level = capacity earlier level := by
    intro level
    unfold capacity
    rw [minimumWidth_extends h]
  have hgeneration := h.generation_le
  unfold decodeNode at hnode ⊢
  simp only [hmagic, hcapacity, readEntries_extends h] at hnode ⊢
  split at hnode
  · cases hnode
  next hvalid =>
    rw [if_neg hvalid]
    split at hnode
    · cases hnode
    next hheader =>
      simp only [not_or] at hheader
      rw [if_neg]
      · exact hnode
      · simp only [not_or]
        exact ⟨hheader.1, hheader.2.1, by omega, hheader.2.2.2⟩

theorem readNode_eq_ok {snapshot : Snapshot} :
    readNode blake3 file snapshot offset = .ok node ↔
      (dataStart snapshot.formatVersion ≤ offset ∧ offset < snapshot.end_ ∧
        offset % pageBytes = 0) ∧
      ∃ page, file.readExactAt offset = some page ∧
        decodeNode blake3 snapshot offset page = .ok node := by
  unfold readNode
  split
  next hbounds =>
    grind
  next hbounds =>
    cases hread : file.readExactAt offset with
    | none => simp
    | some page =>
      simp only [Option.some.injEq, exists_eq_left']
      refine ⟨fun h => ⟨by omega, h⟩, fun h => h.2⟩

theorem readNode_extends {file' : File} (h : earlier.Extends later)
    (hfile : file'.readExactAt offset = file.readExactAt offset)
    (hnode : readNode blake3 file earlier offset = .ok node) :
    readNode blake3 file' later offset = .ok node := by
  obtain ⟨⟨hstart, hend, haligned⟩, page, hpage, hnode⟩ := readNode_eq_ok.mp hnode
  refine readNode_eq_ok.mpr ⟨⟨?_, lt_of_lt_of_le hend h.end_le, haligned⟩, page, ?_, ?_⟩
  · rw [h.formatVersion_eq]
    exact hstart
  · rw [hfile, hpage]
  · exact decodeNode_extends h hnode

end Extends

section Accepted

variable {snapshot : Snapshot} {offset level : Nat} {value body rest : List UInt8}
  {entries : List Record}

theorem readLeafValue_eq_ok (h : readLeafValue snapshot body = .ok (value, rest)) :
    value.length ≤ snapshot.layout.maxValueBytes ∧
      body = entryBody snapshot 0 value ++ rest := by
  obtain ⟨hchecks, h⟩ := ite_error_eq_ok.mp h
  cases h
  simp only [not_or, not_lt] at hchecks
  obtain ⟨hlen, hwidth, hpadding⟩ := hchecks
  -- The entry is two length bytes, the value and, in a fixed slot, zeros up to the width.
  generalize hlength : u16At body 0 = len at hlen hwidth hpadding ⊢
  generalize hw : (if packedLeaf snapshot 0 then 2 + len
    else 2 + snapshot.layout.maxValueBytes) = width at hwidth hpadding ⊢
  have hpad : 2 + len ≤ width ∧ width - (2 + len) =
      if packedLeaf snapshot 0 then 0 else snapshot.layout.maxValueBytes - len := by
    rw [← hw]
    split <;> omega
  have hvalue : ((body.drop 2).take len).length = len := by
    rw [length_take_of_le]
    rw [length_drop]
    omega
  have hzeros : (body.take width).drop (2 + len) = replicate (width - (2 + len)) 0 :=
    eq_replicate_zero hpadding (by simp [*])
  have hfront : ofLe 2 len = body.take 2 := by
    rw [← hlength]
    exact ofLe_take body (by omega)
  have htake : body.take (2 + len) = (body.take width).take (2 + len) := by
    rw [take_take, min_eq_left hpad.1]
  refine ⟨hvalue.trans_le hlen, ?_⟩
  rw [entryBody, if_pos rfl, hvalue, ← hpad.2, ← hzeros, hfront, ← append_assoc, ← take_add,
    htake, take_append_drop, take_append_drop]

theorem readValue_eq_ok {key : List UInt8} (hkey : key.length = snapshot.layout.keyBytes)
    (hroom : minimumWidth snapshot level ≤ snapshot.layout.keyBytes + body.length)
    (h : readValue snapshot offset level body = .ok (value, rest)) :
    EntryFits snapshot offset level ⟨key, value⟩ ∧
      body = entryBody snapshot level value ++ rest := by
  unfold readValue at h
  unfold EntryFits
  split at h
  next hlevel =>
    subst hlevel
    obtain ⟨hvalue, hbody⟩ := readLeafValue_eq_ok h
    exact ⟨⟨hkey, by rwa [if_pos rfl]⟩, hbody⟩
  next hlevel =>
    obtain ⟨hchecks, h⟩ := ite_error_eq_ok.mp h
    cases h
    simp only [not_or, not_lt, not_not, not_le] at hchecks
    have hlength : 8 ≤ body.length := by
      simp only [minimumWidth, packedLeaf, stride, hlevel, beq_iff_eq, if_false, Bool.and_eq_true,
        and_false] at hroom
      omega
    have hpointer : ofLe 8 (u64At body 0) = body.take 8 := ofLe_take body hlength
    have hlt := toLe_lt (body.take 8)
    rw [length_take_of_le hlength] at hlt
    rw [if_neg hlevel, entryBody, if_neg hlevel]
    exact ⟨⟨hkey, u64At body 0, hpointer.symm, hlt, hchecks.1, hchecks.2.1, hchecks.2.2⟩,
      (take_append_drop 8 body).symm⟩

theorem readEntries_eq_ok {count : Nat} {previous : Option (List UInt8)} {payload : List UInt8}
    (h : readEntries snapshot offset level count previous payload = .ok (entries, rest)) :
    entries.length = count ∧ (∀ entry ∈ entries, EntryFits snapshot offset level entry) ∧
      KeyedList.Sorted Record.key entries ∧
      (∀ key ∈ previous, ∀ entry ∈ entries, key < entry.key) ∧
      payload = entries.flatMap (entryBytes snapshot level) ++ rest := by
  induction count generalizing previous payload entries with
  | zero =>
    cases h
    exact ⟨rfl, by simp, .nil, by simp, rfl⟩
  | succ count ih =>
    obtain ⟨hroom, h⟩ := ite_error_eq_ok.mp h
    obtain ⟨⟨value, after⟩, hvalue, h⟩ := bind_eq_ok.mp h
    obtain ⟨hordered, h⟩ := ite_error_eq_ok.mp h
    obtain ⟨⟨entries, payload'⟩, hentries, h⟩ := bind_eq_ok.mp h
    cases h
    obtain ⟨hcount, hfits, hsorted, hprevious, hafter⟩ := ih hentries
    have hkeyBytes : snapshot.layout.keyBytes ≤ payload.length := by
      unfold minimumWidth stride at hroom
      split at hroom <;> omega
    have hkey : (payload.take snapshot.layout.keyBytes).length = snapshot.layout.keyBytes :=
      length_take_of_le hkeyBytes
    obtain ⟨hentry, hbody⟩ := readValue_eq_ok hkey (by rw [length_drop]; omega) hvalue
    have hlt : ∀ entry ∈ entries, payload.take snapshot.layout.keyBytes < entry.key :=
      hprevious _ rfl
    refine ⟨by rw [length_cons, hcount], forall_mem_cons.mpr ⟨hentry, hfits⟩,
      KeyedList.sorted_cons.mpr ⟨hlt, hsorted⟩, ?_, ?_⟩
    · rintro key ⟨⟩
      have hfirst : key < payload.take snapshot.layout.keyBytes := by simpa using hordered
      exact forall_mem_cons.mpr ⟨hfirst, fun entry hmem => hfirst.trans (hlt entry hmem)⟩
    · rw [flatMap_cons, entryBytes_eq hentry, append_assoc, append_assoc, ← hafter, ← hbody,
        take_append_drop]

theorem take_pagePrefix {bytes : List UInt8} (hlength : pagePrefix ≤ bytes.length)
    (hmagic : bytes.take 8 = pageMagic snapshot) (hzero : (bytes.drop 25).headD 0 = 0)
    (hreserved : ¬ ((bytes.take pagePrefix).drop 28).any (· != 0) = true) :
    bytes.take pagePrefix = pageHeader { snapshot with generation := u64At bytes 16 }
      (u64At bytes 8) ((bytes.drop 24).headD 0).toNat (u16At bytes 26) := by
  -- Magic, position, generation, level with a zero byte, count, reserved bytes.
  have hfields : bytes.take pagePrefix = bytes.take 8 ++ ((bytes.drop 8).take 8 ++
      ((bytes.drop 16).take 8 ++ ((bytes.drop 24).take 2 ++ ((bytes.drop 26).take 2 ++
        (bytes.take pagePrefix).drop 28)))) := by
    rw [drop_take, show pagePrefix = 8 + (8 + (8 + (2 + (2 + 12)))) from rfl]
    simp only [take_add, drop_drop]
  have hlevel : (bytes.drop 24).take 2 = [UInt8.ofNat ((bytes.drop 24).headD 0).toNat, 0] := by
    rw [show (25 : Nat) = 24 + 1 from rfl, ← drop_drop] at hzero
    have htwo : (bytes.drop 24).length = bytes.length - 24 := length_drop
    have hforty : 40 ≤ bytes.length := hlength
    rcases hdrop : bytes.drop 24 with _ | ⟨first, _ | ⟨second, rest⟩⟩
    all_goals rw [hdrop] at htwo hzero
    · exact absurd htwo (by rw [length_nil]; omega)
    · exact absurd htwo (by rw [length_singleton]; omega)
    · change [first, second] = [UInt8.ofNat first.toNat, 0]
      rw [UInt8.ofNat_toNat, show second = 0 from hzero]
  have hword : ∀ n width, n + width ≤ pagePrefix →
      ofLe width (toLe ((bytes.drop n).take width)) = (bytes.drop n).take width := by
    intro n width hle
    exact ofLe_take (bytes.drop n) (by rw [length_drop]; omega)
  rw [hfields, hmagic, hlevel, ← hword 8 8 (by decide), ← hword 16 8 (by decide),
    ← hword 26 2 (by decide), eq_replicate_zero hreserved]
  · rfl
  · rw [length_drop, length_take_of_le hlength]
    rfl

/-- The reader accepts exactly the pages that were written for the snapshot or an earlier one:
of every page it accepts it knows the bytes. -/
theorem decodeNode_accepts_written {blake3 : List UInt8 → Digest} (hoffset : offset < 2 ^ 64)
    (hgeneration : snapshot.generation < 2 ^ 64) (page : Page) (node : Node) :
    decodeNode blake3 snapshot offset page = .ok node ↔
      ∃ generation, generation ≠ 0 ∧ generation ≤ snapshot.generation ∧
        PageFits snapshot offset node.level node.entries ∧
        page = pageImage blake3 { snapshot with generation } offset node.level node.entries := by
  constructor
  · intro h
    obtain ⟨hchecks, h⟩ := ite_error_eq_ok.mp h
    obtain ⟨hheader, h⟩ := ite_error_eq_ok.mp h
    obtain ⟨⟨entries, tail⟩, hentries, h⟩ := bind_eq_ok.mp h
    obtain ⟨htail, h⟩ := ite_error_eq_ok.mp h
    cases h
    simp only [not_or, not_lt, not_not, Bool.not_eq_false] at hchecks hheader
    obtain ⟨hvalid, hmagic, rfl⟩ := hchecks
    obtain ⟨hlevel, hpos, hle, hzero, hreserved, hcount, _⟩ := hheader
    obtain ⟨hlength, hfits, hsorted, _, hpayload⟩ := readEntries_eq_ok hentries
    have hbytes := page.length_bytes
    have hused := congrArg length hpayload
    rw [length_drop, length_take_of_le (by rw [hbytes]; decide), length_append, length_entries]
      at hused
    have hpage : PageFits snapshot (u64At page.bytes 8) ((page.bytes.drop 24).headD 0).toNat
        entries := ⟨hlevel, by rintro rfl; exact hcount hlength.symm, hfits, hsorted, by omega⟩
    refine ⟨u64At page.bytes 16, hpos, hle, hpage, ?_⟩
    obtain ⟨digest, himage⟩ := @bytes_pageImage
      { snapshot with generation := u64At page.bytes 16 } _ _ blake3 _
      ⟨hpage.level_le, hpage.ne_nil, hpage.fits, hpage.sorted, hpage.used_le⟩
    -- Both pages carry the digest of their payload, so that the payloads decide.
    refine Page.eq_of_take hvalid (Page.checksumValid_seal _ _) ?_
    rw [himage, ← append_assoc, take_left']
    · rw [← take_append_drop pagePrefix (page.bytes.take checksumStart), take_take, hpayload,
        min_eq_left (by decide), take_pagePrefix (by rw [hbytes]; decide) hmagic hzero hreserved,
        eq_replicate_zero htail (Nat.eq_sub_of_add_eq' hused.symm), hlength]
      rfl
    · rw [length_append, length_pageHeader, length_append, length_entries, length_replicate]
      exact congrArg (pagePrefix + ·) (Nat.add_sub_of_le hpage.used_le)
  · rintro ⟨generation, hpos, hle, hfits, rfl⟩
    have hextends : Snapshot.Extends { snapshot with generation } snapshot :=
      ⟨rfl, rfl, hle, le_rfl⟩
    refine decodeNode_extends hextends (decodeNode_pageImage ?_ hoffset ?_ hpos)
    · exact ⟨hfits.level_le, hfits.ne_nil, hfits.fits, hfits.sorted, hfits.used_le⟩
    · exact hle.trans_lt hgeneration

/-- A packed leaf with three records, one of them without a value, read for a later snapshot. -/
theorem decodeNode_accepts_written_leaf :
    let layout : Layout := ⟨2, 16, by decide, by decide, by decide⟩
    let snapshot : Snapshot := ⟨.packed, layout, 3, 3, 8192, 12288⟩
    ∃ page, decodeNode Blake3.hash snapshot 8192 page =
      .ok ⟨0, [⟨[1, 2], [7]⟩, ⟨[1, 3], []⟩, ⟨[4, 0], [8, 9]⟩]⟩ := by
  intro layout snapshot
  refine ⟨_, (decodeNode_accepts_written (by decide) (by decide) _ _).mpr
    ⟨2, by decide, by decide, ⟨by decide, by simp, ?_, ?_, by decide⟩, rfl⟩⟩
  · simp [EntryFits, snapshot, layout]
  · unfold KeyedList.Sorted
    decide

end Accepted

end BriskDB.Isam
