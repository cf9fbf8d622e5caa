import BriskDB.Document.CodecLength

/-! # Decoding what was encoded

Decoding the wire form of a storable document walks its values in order and
charges each to the budget. The walk is stated on the document itself; decoding
returns the document exactly when the walk stays within the budget, with UUIDs
replaced by the binary values they are stored as.
-/

namespace BriskDB.Document

open BsonWire Result List

def charge (bytes remaining : Nat) : Option Nat :=
  if bytes ≤ remaining then some (remaining - bytes) else none

/-- The slots held after making room for one more member, and what remains. -/
def retainSlot (slotBytes len reserved remaining : Nat) : Option (Nat × Nat) :=
  if len < reserved then some (reserved, remaining)
  else if remaining / slotBytes = 0 then none
  else
    let additional := min (if reserved = 0 then initialDecodedContainerCapacity else reserved)
      (remaining / slotBytes)
    some (reserved + additional, remaining - additional * slotBytes)

mutual

def retainValue (sizes : DecodedSizes) (value : BsonValue) (remaining : Nat) : Option Nat :=
  match value with
  | .string text => charge (textLen text) remaining
  | .document entries => retainFields sizes entries 0 0 remaining
  | .array values => retainElements sizes values 0 0 remaining
  | .binary binary => charge binary.bytes.length remaining
  | .uuid uuid => charge uuid.encodedParts.2.length remaining
  | .regularExpression regex => do
    let remaining ← charge (textLen regex.pattern) remaining
    charge decodedRegexOptionsBytes remaining
  | .javaScript code none => charge (textLen code) remaining
  | .javaScript code (some scope) => do
    let remaining ← retainFields sizes scope 0 0 remaining
    charge (textLen code) remaining
  | _ => some remaining

def retainFields (sizes : DecodedSizes) (entries : List (String × BsonValue))
    (len reserved remaining : Nat) : Option Nat :=
  match entries with
  | [] => some remaining
  | (name, value) :: entries => do
    let remaining ← charge decodedHashNameBytes remaining
    let (reserved, remaining) ← retainSlot sizes.documentSlot len reserved remaining
    let remaining ← charge (textLen name) remaining
    let remaining ← retainValue sizes value remaining
    retainFields sizes entries (len + 1) reserved remaining

def retainElements (sizes : DecodedSizes) (values : List BsonValue)
    (len reserved remaining : Nat) : Option Nat :=
  match values with
  | [] => some remaining
  | value :: values => do
    let (reserved, remaining) ← retainSlot sizes.arraySlot len reserved remaining
    let remaining ← retainValue sizes value remaining
    retainElements sizes values (len + 1) reserved remaining

end

def FitsDecodeBudget (sizes : DecodedSizes) (document : BsonDocument) : Prop :=
  (retainFields sizes document 0 0 bsonMaxDecodedBytes).isSome = true

mutual

/-- A value as it comes back: UUIDs are materialised only on request. -/
def BsonValue.stored : BsonValue → BsonValue
  | .document entries => .document (storedFields entries)
  | .array values => .array (storedElements values)
  | .uuid value => .binary ⟨value.encodedParts.1, value.encodedParts.2⟩
  | .javaScript code (some scope) => .javaScript code (some (storedFields scope))
  | value => value

def storedFields : List (String × BsonValue) → List (String × BsonValue)
  | [] => []
  | (name, value) :: entries => (name, value.stored) :: storedFields entries

def storedElements : List BsonValue → List BsonValue
  | [] => []
  | value :: values => value.stored :: storedElements values

end

/-- A computation that returns what is expected, and runs out of budget when nothing
is. -/
def Follows {β : Type} (result : BsonResult β) : Option β → Prop
  | some expected => result = .ok expected
  | none => ∃ error, result = .error error ∧ error.kind = .oversized

variable {β γ σ : Type} {elements : List (String × RawBson)} {depth : Nat}

theorem Follows.bind {τ : Type} {result : BsonResult β} {expected : Option σ}
    {wrap : σ → β} {next : β → BsonResult γ} {walk : σ → Option τ} {close : τ → γ}
    (h : Follows result (expected.map wrap))
    (hnext : ∀ state, Follows (next (wrap state)) ((walk state).map close)) :
    Follows (result >>= next) ((expected >>= walk).map close) := by
  cases expected with
  | none =>
    obtain ⟨error, rfl, hkind⟩ := h
    exact ⟨error, rfl, hkind⟩
  | some state =>
    change Follows (result >>= next) ((walk state).map close)
    rw [show result = .ok (wrap state) from h]
    exact hnext state

theorem Follows.last {result : BsonResult β} {expected : Option σ} {wrap : σ → β}
    {next : β → BsonResult γ} {close : σ → γ} (h : Follows result (expected.map wrap))
    (hnext : ∀ state, next (wrap state) = .ok (close state)) :
    Follows (result >>= next) (expected.map close) := by
  cases expected with
  | none =>
    obtain ⟨error, rfl, hkind⟩ := h
    exact ⟨error, rfl, hkind⟩
  | some state =>
    rw [show result = .ok (wrap state) from h]
    exact hnext state

section Budget

variable (limit remaining : Nat) (path description : String)

theorem follows_consume (bytes : Nat) :
    Follows (DecodeBudget.consume ⟨limit, remaining⟩ bytes path description)
      ((charge bytes remaining).map (DecodeBudget.mk limit)) := by
  unfold DecodeBudget.consume charge
  split
  · exact rfl
  · exact ⟨_, rfl, rfl⟩

theorem follows_cloneString (value : String) :
    Follows (cloneString value ⟨limit, remaining⟩ path description)
      ((charge (textLen value) remaining).map fun remaining => (value, ⟨limit, remaining⟩)) := by
  unfold cloneString charge DecodeBudget.consume
  split
  · exact rfl
  · exact ⟨_, rfl, rfl⟩

theorem follows_cloneBytes (value : List UInt8) :
    Follows (cloneBytes value ⟨limit, remaining⟩ path description)
      ((charge value.length remaining).map fun remaining => (value, ⟨limit, remaining⟩)) := by
  unfold cloneBytes charge DecodeBudget.consume
  split
  · exact rfl
  · exact ⟨_, rfl, rfl⟩

theorem follows_reserve {slotBytes : Nat} (hslot : 0 < slotBytes) (len reserved : Nat) :
    Follows
      (DecodeBudget.reserveContainerSlots ⟨limit, remaining⟩ len reserved slotBytes path
        description) ((retainSlot slotBytes len reserved remaining).map fun held =>
        (held.1, ⟨limit, held.2⟩)) := by
  unfold DecodeBudget.reserveContainerSlots retainSlot
  split
  · exact rfl
  · dsimp only
    split
    next hnone =>
      have hlt : remaining < slotBytes := Nat.lt_of_div_eq_zero hslot hnone
      unfold DecodeBudget.consume
      rw [if_neg (by simpa using hlt)]
      exact ⟨_, rfl, rfl⟩
    · generalize hadditional : min (if reserved = 0 then initialDecodedContainerCapacity
        else reserved) (remaining / slotBytes) = additional
      have hle : additional * slotBytes ≤ remaining := by
        calc additional * slotBytes
            ≤ remaining / slotBytes * slotBytes :=
              Nat.mul_le_mul_right _ (hadditional ▸ Nat.min_le_right _ _)
          _ ≤ remaining := Nat.div_mul_le_self _ _
      unfold DecodeBudget.consume
      rw [if_pos hle]
      rfl

end Budget

theorem follows_admitName {names : List String} {name : String} (hfresh : name ∉ names)
    (limit remaining : Nat) (path : String) :
    Follows (admitName .new names name ⟨limit, remaining⟩ path)
      ((charge decodedHashNameBytes remaining).map fun remaining =>
        (name :: names, ⟨limit, remaining⟩)) := by
  have hcontains : names.contains name = false := by
    rw [Bool.eq_false_iff]
    exact mt contains_iff_mem.mp hfresh
  have hpolicy : BsonCodecOptions.new.duplicateFieldPolicy = .reject := rfl
  unfold admitName
  rw [if_pos hpolicy, hcontains, if_neg Bool.false_ne_true]
  unfold charge DecodeBudget.consume
  split
  · exact rfl
  · exact ⟨_, rfl, rfl⟩

theorem frame_length_lt (h : (wireBytes elements).length ≤ bsonMaxDocumentBytes) :
    ∃ body, wireBytes elements = frame body ∧ body.length + 5 < 2 ^ 31 := by
  have hmax : bsonMaxDocumentBytes < 2 ^ 31 := by decide
  refine ⟨_, rfl, ?_⟩
  rw [wireBytes, frame_length] at h
  exact lt_of_le_of_lt h hmax

theorem Storable.writable {value : BsonValue} (h : Storable depth value) : value.raw.Writable := by
  cases h with
  | scalar hfits => exact hfits.2.2
  | document _ hsize | array _ hsize => exact frame_length_lt hsize
  | @scope _ code entries hdepth hcode hsize =>
    have hmax : bsonMaxDocumentBytes + bsonMaxDocumentBytes + 4 < 2 ^ 31 := by decide
    refine ⟨?_, frame_length_lt hsize⟩
    grind [text_length, textLen]

variable {entries : List (String × BsonValue)}

theorem rawFields_writable (hentries : ∀ entry ∈ entries, containsNul entry.1 = false)
    (hvalues : ∀ entry ∈ entries, Storable depth entry.2) :
    ∀ entry ∈ rawFields entries,
      (Utf8.bytes entry.1).contains 0 = false ∧ entry.2.Writable := by
  induction entries with
  | nil => nofun
  | cons entry entries ih =>
    refine forall_mem_cons.mpr ⟨⟨hentries entry mem_cons_self,
      (hvalues entry mem_cons_self).writable⟩, ?_⟩
    exact ih (forall_mem_cons.mp hentries).2
      (forall_mem_cons.mp hvalues).2

variable {values : List BsonValue}

theorem rawElements_writable (index : Nat) (hvalues : ∀ value ∈ values, Storable depth value) :
    ∀ entry ∈ rawElements index values,
      (Utf8.bytes entry.1).contains 0 = false ∧ entry.2.Writable := by
  induction values generalizing index with
  | nil => nofun
  | cons value values ih =>
    have hkey : (Utf8.bytes (toString index)).contains 0 = false := by
      rw [Bool.eq_false_iff]
      exact mt contains_iff_mem.mp (Utf8.zero_notMem_bytes_toString index)
    refine forall_mem_cons.mpr ⟨⟨hkey, (hvalues value mem_cons_self).writable⟩, ?_⟩
    exact ih (index + 1) (forall_mem_cons.mp hvalues).2

section Loops

variable {sizes : DecodedSizes} {limit : Nat}
  {decodeValue : RawBson → DecodeBudget → String → BsonResult (BsonValue × DecodeBudget)}

theorem follows_decodeFields {path : String}
    (hentries : ∀ entry ∈ entries, containsNul entry.1 = false)
    (hnames : (entries.map Prod.fst).Nodup) (hvalues : ∀ entry ∈ entries, ∀ remaining path,
      Follows (decodeValue entry.2.raw ⟨limit, remaining⟩ path)
        ((retainValue sizes entry.2 remaining).map fun remaining =>
          (entry.2.stored, ⟨limit, remaining⟩)))
    {names : List String} (hfresh : ∀ entry ∈ entries, entry.1 ∉ names)
    (document : BsonDocument) (reserved remaining : Nat) :
    Follows
      (decodeFields sizes .new decodeValue path document reserved names ⟨limit, remaining⟩
        (written (rawFields entries)))
      ((retainFields sizes entries document.length reserved remaining).map fun remaining =>
        (document ++ storedFields entries, ⟨limit, remaining⟩)) := by
  induction entries generalizing document reserved remaining names with
  | nil =>
    rw [storedFields, append_nil]
    rfl
  | cons entry entries ih =>
    obtain ⟨name, value⟩ := entry
    rw [map_cons, nodup_cons] at hnames
    have hadmit := follows_admitName (hfresh _ mem_cons_self) limit remaining
      (fieldPath path name)
    rw [retainFields, rawFields, written, map_cons, decodeFields]
    simp only [mapRaw, ok_bind]
    refine hadmit.bind fun remaining => ?_
    dsimp only
    refine (follows_reserve limit remaining _ _ sizes.documentSlot_pos _ reserved).bind ?_
    rintro ⟨reserved, remaining⟩
    refine (follows_cloneString limit remaining _ _ name).bind fun remaining => ?_
    refine (hvalues _ mem_cons_self remaining _).bind fun remaining => ?_
    have hpush : BsonDocument.push document name value.stored =
        .ok (document ++ [(name, value.stored)]) := by
      rw [BsonDocument.push, hentries _ mem_cons_self]
      rfl
    dsimp only
    rw [hpush]
    have hrest := @ih (forall_mem_cons.mp hentries).2 hnames.2
      (forall_mem_cons.mp hvalues).2 (name :: names)
      (by
        grind)
      (document ++ [(name, value.stored)]) reserved remaining
    rw [length_append, length_singleton, append_assoc] at hrest
    exact hrest

theorem follows_decodeElements {path : String} (hvalues : ∀ value ∈ values, ∀ remaining path,
      Follows (decodeValue value.raw ⟨limit, remaining⟩ path)
        ((retainValue sizes value remaining).map fun remaining =>
          (value.stored, ⟨limit, remaining⟩)))
    (index : Nat) (decoded : List BsonValue) (reserved remaining : Nat) :
    Follows
      (decodeElements sizes decodeValue path decoded reserved ⟨limit, remaining⟩
        (written (rawElements index values)))
      ((retainElements sizes values decoded.length reserved remaining).map fun remaining =>
        (decoded ++ storedElements values, ⟨limit, remaining⟩)) := by
  induction values generalizing index decoded reserved remaining with
  | nil =>
    rw [storedElements, append_nil]
    rfl
  | cons value values ih =>
    rw [retainElements, rawElements, written, map_cons, decodeElements]
    simp only [mapRaw, ok_bind]
    refine (follows_reserve limit remaining _ _ sizes.arraySlot_pos _ reserved).bind ?_
    rintro ⟨reserved, remaining⟩
    refine (hvalues _ mem_cons_self remaining _).bind fun remaining => ?_
    have hrest := ih (forall_mem_cons.mp hvalues).2 (index + 1)
      (decoded ++ [value.stored]) reserved remaining
    rw [length_append, length_singleton, append_assoc] at hrest
    exact hrest

end Loops

theorem ensureDocumentSize_ok {actual : Nat} (h : actual ≤ bsonMaxDocumentBytes)
    (path : String) : ensureDocumentSize actual .new path = .ok () :=
  if_neg (not_lt.mpr h)

section Values

variable {sizes : DecodedSizes} {limit room depth : Nat}

variable [Crate]

def DecodesWith (sizes : DecodedSizes) (limit room : Nat) (value : BsonValue) : Prop :=
  ∀ remaining path,
    Follows
      (decodeRawValue .new (decodeRawDocument sizes .new room) (decodeRawArray sizes .new room)
        value.raw ⟨limit, remaining⟩ path)
      ((retainValue sizes value remaining).map fun remaining =>
        (value.stored, ⟨limit, remaining⟩))

theorem decodesWith_scalar {value : BsonValue} (h : ScalarFits value) :
    DecodesWith sizes limit room value := by
  obtain ⟨hscalar, hvalid, -⟩ := h
  intro remaining path
  cases value with
  | string value => exact (follows_cloneString limit remaining _ _ value).last fun _ => rfl
  | binary value => exact (follows_cloneBytes limit remaining _ _ value.bytes).last fun _ => rfl
  | uuid value =>
    exact (follows_cloneBytes limit remaining _ _ value.encodedParts.2).last fun _ => rfl
  | regularExpression value =>
    refine (follows_cloneString limit remaining _ _ value.pattern).bind fun remaining => ?_
    refine (follows_consume limit remaining path _ _).last fun remaining => ?_
    rw [BsonRegex.Built.new_eq hvalid]
    rfl
  | javaScript code scope =>
    cases scope with
    | none => exact (follows_cloneString limit remaining _ _ code).last fun _ => rfl
    | some scope => exact hscalar.elim
  | document | array => exact hscalar.elim
  | _ => rfl

theorem follows_decodeRawDocument
    (hsize : (wireBytes (rawFields entries)).length ≤ bsonMaxDocumentBytes)
    (hnames : (entries.map Prod.fst).Nodup)
    (hentries : ∀ entry ∈ entries, containsNul entry.1 = false)
    (hvalues : ∀ entry ∈ entries, Storable depth entry.2)
    (hdecode : ∀ entry ∈ entries, DecodesWith sizes limit room entry.2)
    (remaining : Nat) (path : String) :
    Follows
      (decodeRawDocument sizes .new (room + 1) (wireBytes (rawFields entries))
        ⟨limit, remaining⟩ path) ((retainFields sizes entries 0 0 remaining).map fun remaining =>
        (storedFields entries, ⟨limit, remaining⟩)) := by
  rw [decodeRawDocument, ensureDocumentSize_ok hsize, ok_bind]
  rw [wireBytes, Crate.iterElements_frame (rawFields_writable hentries hvalues)]
  exact follows_decodeFields hentries hnames hdecode (fun _ _ => not_mem_nil) [] 0 remaining

theorem follows_decodeRawArray
    (hsize : (wireBytes (rawElements 0 values)).length ≤ bsonMaxDocumentBytes)
    (hvalues : ∀ value ∈ values, Storable depth value)
    (hdecode : ∀ value ∈ values, DecodesWith sizes limit room value)
    (remaining : Nat) (path : String) :
    Follows
      (decodeRawArray sizes .new (room + 1) (wireBytes (rawElements 0 values))
        ⟨limit, remaining⟩ path) ((retainElements sizes values 0 0 remaining).map fun remaining =>
        (storedElements values, ⟨limit, remaining⟩)) := by
  rw [decodeRawArray, ensureDocumentSize_ok hsize, ok_bind]
  rw [wireBytes, Crate.iterElements_frame (rawElements_writable 0 hvalues)]
  exact follows_decodeElements hdecode 0 [] 0 remaining

/-- Every storable value is decoded as the walk over it says, at its depth. -/
theorem Storable.decodes {value : BsonValue} (h : Storable depth value)
    (hroom : room + depth = bsonMaxNestingDepth) : DecodesWith sizes limit room value := by
  induction h generalizing room with
  | scalar hfits => exact decodesWith_scalar hfits
  | @document depth entries hdepth hsize hnames hentries hvalues ih =>
    obtain ⟨below, rfl⟩ : ∃ below, room = below + 1 := ⟨room - 1, by omega⟩
    have hbelow : below + (depth + 1) = bsonMaxNestingDepth := by omega
    intro remaining path
    exact (follows_decodeRawDocument hsize hnames hentries hvalues
      (fun entry hentry => ih entry hentry hbelow) remaining path).last fun _ => rfl
  | @array depth values hdepth hsize hvalues ih =>
    obtain ⟨below, rfl⟩ : ∃ below, room = below + 1 := ⟨room - 1, by omega⟩
    have hbelow : below + (depth + 1) = bsonMaxNestingDepth := by omega
    intro remaining path
    exact (follows_decodeRawArray hsize hvalues
      (fun value hvalue => ih value hvalue hbelow) remaining path).last fun _ => rfl
  | @scope depth code entries hdepth hcode hsize hnames hentries hvalues ih =>
    obtain ⟨below, rfl⟩ : ∃ below, room = below + 1 := ⟨room - 1, by omega⟩
    have hbelow : below + (depth + 1) = bsonMaxNestingDepth := by omega
    intro remaining path
    refine (follows_decodeRawDocument hsize hnames hentries hvalues
      (fun entry hentry => ih entry hentry hbelow) remaining _).bind fun remaining => ?_
    exact (follows_cloneString limit remaining path _ code).last fun _ => rfl

end Values

theorem validateTopLevelFrame_wireBytes (h : (wireBytes elements).length ≤ bsonMaxDocumentBytes) :
    validateTopLevelFrame (wireBytes elements) .new = .ok () := by
  have hmax : bsonMaxDocumentBytes < 2 ^ 31 := by decide
  have hfive : 5 ≤ (wireBytes elements).length := by
    rw [wireBytes, frame_length]
    omega
  have hword : Bytes.toLe ((wireBytes elements).take 4) = (wireBytes elements).length := by
    rw [wireBytes, frame_length] at *
    rw [frame, take_left' (Bytes.ofLe_length 4 _), Bytes.toLe_ofLe_of_lt (by omega)]
  have hlast : (wireBytes elements).getLast? = some 0 := by
    rw [wireBytes, frame, ← append_assoc, getLast?_concat]
  have hlimit : ¬ (wireBytes elements).length > BsonCodecOptions.new.maxDocumentBytes :=
    not_lt.mpr h
  have hfour : ¬ (wireBytes elements).length < 4 := by omega
  have hpositive : (wireBytes elements).length < 2 ^ 31 := by omega
  have hdeclared : ¬ ((wireBytes elements).length : Int) < 5 := by omega
  simp only [validateTopLevelFrame, hword, hlast, hlimit, hfour, hpositive, hdeclared,
    Int.toNat_natCast, lt_self_iff_false, ne_eq, not_true_eq_false, ↓reduceIte]
  rfl

/-- Decoding an accepted document walks it with the whole budget. -/
theorem follows_decodeDocument [Crate] {sizes : DecodedSizes} {document : BsonDocument}
    {bytes : List UInt8} (hvalid : documentValid document)
    (hencode : encodeDocument document = .ok bytes) :
    Follows (decodeDocument sizes bytes)
      ((retainFields sizes document 0 0 bsonMaxDecodedBytes).map fun _ =>
        storedFields document) := by
  obtain ⟨rfl, hstorable⟩ := of_encodeDocument hvalid hencode
  cases hstorable with
  | scalar hfits => exact hfits.1.elim
  | document hdepth hsize hnames hentries hvalues =>
    have hoptions : BsonCodecOptions.new.validate = .ok () := rfl
    obtain ⟨body, hbody, hlength⟩ := frame_length_lt hsize
    have hraw : mapRaw (Crate.fromBytes (wireBytes (rawFields document))) "$"
        "invalid BSON document frame" = .ok (wireBytes (rawFields document)) := by
      rw [hbody, Crate.fromBytes_frame hlength]
      rfl
    unfold decodeDocument decodeDocumentWithOptions
    rw [hoptions, ok_bind, validateTopLevelFrame_wireBytes hsize, ok_bind, hraw,
      ok_bind]
    exact (follows_decodeRawDocument hsize hnames hentries hvalues
      (fun entry hentry => (hvalues entry hentry).decodes rfl) bsonMaxDecodedBytes "$").last
        fun _ => rfl

end BriskDB.Document
