import BriskDB.Document.SortKey

/-! # What the encoder of sort keys appends

Whenever the bounded encoder finishes, it has appended exactly the order code of the key,
whatever its caller's checks and the allocator did on the way. A run with at least as much
room, for a caller that neither stops it nor refuses it memory, follows it step by step.
-/

namespace BriskDB.Document

open OrderCode ByteCode Result List

/-- A caller that neither stops the encoder nor refuses it memory. -/
structure EncoderHost.Quiet {σ : Type} (host : EncoderHost σ) : Prop where
  check : ∀ state, ∃ next, host.check state = .ok next
  reserve : ∀ state amount, ∃ next, host.tryReserveExact state amount = some next

def quietHost : EncoderHost Unit := ⟨.ok, fun state _ => some state⟩

theorem quietHost_quiet : quietHost.Quiet := ⟨fun _ => ⟨(), rfl⟩, fun _ _ => ⟨(), rfl⟩⟩

def boundedBlob (parts : UInt8 × List UInt8) : List UInt8 :=
  Bytes.ofBe 8 (parts.2.length + if parts.1 = 2 then 4 else 0) ++ (parts.1 :: parts.2)

def BoundedBinary (parts : UInt8 × List UInt8) : Prop := parts.2.length ≤ maxOrderedBytes

def atomCode : Atom → List UInt8
  | .emptyArray => [2]
  | .value value => value.orderedCode boundedBlob

def AtomBounded : Atom → Prop
  | .emptyArray => True
  | .value value => value.AllBinary BoundedBinary

def componentCode (component : Bool × Atom) : List UInt8 :=
  [1, if component.1 then 1 else 0] ++
    (if component.1 then complement (atomCode component.2) else atomCode component.2)

/-- A binary payload is part of the word of the value that holds it. -/
def WordBounds (value : BsonValue) : Prop :=
  (value.orderedCode boundedBlob).length ≤ maxOrderedBytes → value.AllBinary BoundedBinary

theorem documentAllBinary_of_length_le {entries : List (String × BsonValue)}
    (ih : ∀ entry ∈ entries, WordBounds entry.2)
    (h : (documentCode boundedBlob entries).length ≤ maxOrderedBytes) :
    documentAllBinary BoundedBinary entries := by
  induction entries with
  | nil => trivial
  | cons entry entries ihEntries =>
    simp only [documentCode, length_cons, length_append] at h
    exact ⟨ih entry mem_cons_self (by omega),
      ihEntries (forall_mem_cons.mp ih).2 (by omega)⟩

theorem arrayAllBinary_of_length_le {values : List BsonValue}
    (ih : ∀ value ∈ values, WordBounds value)
    (h : (arrayCode boundedBlob values).length ≤ maxOrderedBytes) :
    arrayAllBinary BoundedBinary values := by
  induction values with
  | nil => trivial
  | cons value values ihValues =>
    simp only [arrayCode, length_append] at h
    exact ⟨ih value mem_cons_self (by omega), ihValues (forall_mem_cons.mp ih).2 (by omega)⟩

theorem wordBounds (value : BsonValue) : WordBounds value := by
  induction value using BsonValue.induct with
  | hscalar value hscalar =>
    intro h
    cases value with
    | binary | uuid =>
      have hblob := length_append.symm.trans_le (Nat.le_of_succ_le h)
      exact Nat.le_of_succ_le ((Nat.le_add_left _ _).trans hblob)
    | document | array => exact hscalar.elim
    | javaScript code scope =>
      cases scope with
      | none => trivial
      | some scope => exact hscalar.elim
    | _ => trivial
  | hdocument entries ih =>
    intro h
    exact documentAllBinary_of_length_le ih (Nat.le_of_succ_le h)
  | harray values ih =>
    intro h
    exact arrayAllBinary_of_length_le ih (Nat.le_of_succ_le h)
  | hscope code scope ih =>
    intro h
    simp only [BsonValue.orderedCode, BsonValue.canonicalNumber, BsonValue.binaryParts,
      length_cons, length_append] at h
    exact documentAllBinary_of_length_le ih (by omega)

theorem atomBounded_of_length_le {atom : Atom} (h : (atomCode atom).length ≤ maxOrderedBytes) :
    AtomBounded atom := by
  cases atom with
  | emptyArray => trivial
  | value value => exact wordBounds value h

def escapeBody (bytes : List UInt8) : List UInt8 :=
  bytes.flatMap fun byte => if byte == 0 then [byte, 255] else [byte]

theorem escapeBody_of_no_zero {bytes : List UInt8} (h : ¬bytes.contains 0) :
    escapeBody bytes = bytes := by
  calc escapeBody bytes = bytes.flatMap fun byte => [byte] := by
        apply flatMap_congr
        grind
    _ = bytes := flatMap_singleton' bytes

theorem escape_eq_escapeBody (bytes : List UInt8) :
    escape 0 255 bytes = escapeBody bytes ++ [0, 0] := by
  induction bytes with
  | nil => rfl
  | cons byte bytes ih =>
    rw [escape, ih, escapeBody, escapeBody, flatMap_cons]
    grind

namespace Encoder

variable {σ τ : Type} {host : EncoderHost σ} {quiet : EncoderHost τ}

/-- Two encoders that have written the same, the second one with at least the room. -/
structure Roomier (bound : Nat) (first : Encoder σ) (second : Encoder τ) : Prop where
  bytes : second.bytes = first.bytes
  steps : second.steps = first.steps
  limit : first.maxBytes = bound
  room : bound ≤ second.maxBytes

/-- A writer that succeeds has appended the word, and so does its counterpart with more
room. -/
def Appends (word : List UInt8) (write : Encoder σ → EngineResult (Encoder σ))
    (write' : Encoder τ → EngineResult (Encoder τ)) : Prop :=
  ∀ (bound : Nat) (first next : Encoder σ) (second : Encoder τ), Roomier bound first second →
    write first = .ok next → next.bytes = first.bytes ++ word ∧
      ∃ next', write' second = .ok next' ∧ Roomier bound next next'

section Rules

variable {write rest : Encoder σ → EngineResult (Encoder σ)}
  {write' rest' : Encoder τ → EngineResult (Encoder τ)} {word tail : List UInt8}

theorem Appends.bind (h : Appends word write write') (hrest : Appends tail rest rest') :
    Appends (word ++ tail) (fun encoder => write encoder >>= rest)
      (fun encoder => write' encoder >>= rest') := by
  intro bound first next second hroom hwrite
  obtain ⟨middle, hmiddle, hwrite⟩ := bind_eq_ok.mp hwrite
  obtain ⟨hbytes, middle', hmiddle', hroom⟩ := h _ _ _ _ hroom hmiddle
  obtain ⟨htail, next', hnext', hroom⟩ := hrest _ _ _ _ hroom hwrite
  refine ⟨?_, next', bind_eq_ok.mpr ⟨middle', hmiddle', hnext'⟩, hroom⟩
  rw [htail, hbytes, append_assoc]

theorem Appends.of_eq (hword : word = tail) (h : Appends word write write') :
    Appends tail write write' :=
  hword ▸ h

theorem Appends.push (chunk : List UInt8) :
    @Appends σ τ chunk (fun encoder => .ok { encoder with bytes := encoder.bytes ++ chunk })
      (fun encoder => .ok { encoder with bytes := encoder.bytes ++ chunk }) := by
  intro bound first next second hroom hwrite
  cases hwrite
  exact ⟨rfl, _, rfl, congrArg (· ++ chunk) hroom.bytes, hroom.steps, hroom.limit, hroom.room⟩

theorem Appends.ok : @Appends σ τ [] .ok .ok := by
  intro bound first next second hroom hwrite
  cases hwrite
  exact ⟨(append_nil _).symm, second, rfl, hroom⟩

theorem Appends.ite {check : Prop} [Decidable check] (h : check → Appends word write write')
    (hrest : ¬check → Appends word rest rest') :
    Appends word (fun encoder => if check then write encoder else rest encoder)
      (fun encoder => if check then write' encoder else rest' encoder) := by
  by_cases hcheck : check
  · simpa only [if_pos hcheck] using h hcheck
  · simpa only [if_neg hcheck] using hrest hcheck

theorem Appends.error {error : EngineError} : @Appends σ τ word (fun _ => .error error) write' :=
  fun _ _ _ _ _ => nofun

/-- Rewriting what a writer appended, which needs to know where it started. -/
theorem Appends.rewrite {turned : List UInt8} (h : Appends word write write')
    (turn : Nat → Encoder σ → EngineResult (Encoder σ))
    (turn' : Nat → Encoder τ → EngineResult (Encoder τ))
    (hturn : ∀ (bytes : List UInt8) bound (first next : Encoder σ) (second : Encoder τ),
      Roomier bound first second → first.bytes = bytes ++ word →
        turn bytes.length first = .ok next → next.bytes = bytes ++ turned ∧
          ∃ next', turn' bytes.length second = .ok next' ∧ Roomier bound next next') :
    Appends turned (fun encoder => write encoder >>= turn encoder.bytes.length)
      (fun encoder => write' encoder >>= turn' encoder.bytes.length) := by
  intro bound first next second hroom hwrite
  obtain ⟨middle, hmiddle, hwrite⟩ := bind_eq_ok.mp hwrite
  obtain ⟨hbytes, middle', hmiddle', hmiddleRoom⟩ := h _ _ _ _ hroom hmiddle
  obtain ⟨hnext, next', hnext', hroom'⟩ := hturn _ _ _ _ _ hmiddleRoom hbytes hwrite
  rw [← hroom.bytes] at hnext'
  exact ⟨hnext, next', bind_eq_ok.mpr ⟨middle', hmiddle', hnext'⟩, hroom'⟩

end Rules

section Writers

variable (hquiet : quiet.Quiet)
include hquiet

theorem appends_runCheck : Appends [] (runCheck host) (runCheck quiet) := by
  intro bound first next second hroom hwrite
  obtain ⟨state, -, hwrite⟩ := bind_eq_ok.mp hwrite
  cases hwrite
  obtain ⟨state', hstate'⟩ := hquiet.check second.host
  refine ⟨(append_nil _).symm, { second with host := state' }, ?_, hroom.bytes,
    hroom.steps, hroom.limit, hroom.room⟩
  rw [runCheck, hstate']
  rfl

theorem appends_step : Appends [] (step host) (step quiet) := by
  refine @Appends.bind _ _ _ _ _ _ _ [] (appends_runCheck hquiet) ?_
  intro bound first next second hroom hwrite
  simp only at hwrite ⊢
  split at hwrite
  · cases hwrite
  next hsteps =>
    cases hwrite
    rw [if_neg (by rw [hroom.steps]; exact hsteps)]
    exact ⟨(append_nil _).symm, _, rfl, hroom.bytes, congrArg (· + 1) hroom.steps, hroom.limit,
      hroom.room⟩

variable (chunks : List (List UInt8)) (bytes : List UInt8)

theorem appends_pushChunks :
    Appends chunks.flatten (pushChunks host chunks) (pushChunks quiet chunks) := by
  induction chunks with
  | nil => exact .ok
  | cons chunk chunks ih => exact (appends_runCheck hquiet).bind ((Appends.push chunk).bind ih)

theorem appends_reserve (needed : Nat) :
    Appends [] (reserve host needed) (reserve quiet needed) := by
  intro bound first next second hroom hwrite
  -- the capacities may differ, but they are not part of what was written
  have hnext : next.bytes = first.bytes ∧ Roomier bound next second := by
    unfold reserve at hwrite
    split at hwrite
    · dsimp only at hwrite
      split at hwrite
      · cases hwrite
      · cases hwrite
        exact ⟨rfl, hroom.bytes, hroom.steps, hroom.limit, hroom.room⟩
    · grind
  obtain ⟨hbytes, hnext⟩ := hnext
  refine ⟨hbytes.trans (append_nil _).symm, ?_⟩
  unfold reserve
  split
  · obtain ⟨state, hstate⟩ := hquiet.reserve second.host
      (min (max needed (min (second.capacity * 2) (2 ^ 64 - 1))) second.maxBytes -
        second.bytes.length)
    simp only [hstate]
    exact ⟨_, rfl, hnext.bytes, hnext.steps, hnext.limit, hnext.room⟩
  · exact ⟨second, rfl, hnext⟩

theorem appends_extend : Appends bytes (extend host bytes) (extend quiet bytes) := by
  intro bound first next second hroom hwrite
  unfold extend at hwrite ⊢
  simp only [hroom.bytes] at hwrite ⊢
  split at hwrite
  · cases hwrite
  next hfits =>
    have hlimit := hroom.limit
    have hroomy := hroom.room
    rw [if_neg (by omega)]
    obtain ⟨hbytes, hnext⟩ := ((appends_reserve hquiet _).bind
      (appends_pushChunks hquiet (Chunks.chunks checkChunk bytes))) _ _ _ _ hroom hwrite
    rw [Chunks.flatten_chunks (by decide)] at hbytes
    exact ⟨hbytes, hnext⟩

theorem appends_pushRun (run : List UInt8) :
    Appends (run ++ if run.getLast?.any (· == 0) then [255] else []) (pushRun host run)
      (pushRun quiet run) := by
  refine (appends_extend hquiet run).bind (.ite (fun hlast => ?_) fun hlast => ?_)
  · rw [hlast]
    exact appends_extend hquiet [255]
  · rw [if_neg (by grind)]
    exact .ok

theorem appends_pushRuns (runs : List (List UInt8)) :
    Appends (runs.flatMap fun run => run ++ if run.getLast?.any (· == 0) then [255] else [])
      (pushRuns host runs) (pushRuns quiet runs) := by
  induction runs with
  | nil => exact .ok
  | cons run runs ih => exact (appends_pushRun hquiet run).bind ih

theorem appends_stringChunk (chunk : List UInt8) :
    Appends (escapeBody chunk) (stringChunk host chunk) (stringChunk quiet chunk) := by
  refine (appends_runCheck hquiet).bind (.ite (fun hzero => ?_) fun hzero => ?_)
  · exact .of_eq (escapeBody_of_no_zero hzero).symm (appends_extend hquiet chunk)
  · exact .of_eq (Chunks.flatMap_splitInclusive (· == 0) [255] chunk) (appends_pushRuns hquiet _)

theorem appends_stringChunks :
    Appends (escapeBody chunks.flatten) (stringChunks host chunks) (stringChunks quiet chunks) := by
  induction chunks with
  | nil => exact .ok
  | cons chunk chunks ih =>
    rw [flatten_cons, escapeBody, flatMap_append]
    exact (appends_stringChunk hquiet chunk).bind ih

theorem appends_string : Appends (escape 0 255 bytes) (string host bytes) (string quiet bytes) := by
  refine .of_eq ?_ ((appends_stringChunks hquiet _).bind (appends_extend hquiet _))
  rw [Chunks.flatten_chunks (by decide), escape_eq_escapeBody]

/-- The exponent and the digits of a number, complemented where it is negative. -/
theorem appends_scientific (negative : Bool) (exponent digits : List UInt8) :
    Appends
      (if negative then complement (exponent ++ escape 0 255 digits)
        else exponent ++ escape 0 255 digits)
      (fun encoder => do
        let start := encoder.bytes.length
        let encoder ← encoder.extend host exponent
        let encoder ← encoder.string host digits
        let encoder := if negative then encoder.complementFrom start else encoder
        encoder.runCheck host)
      (fun encoder => do
        let start := encoder.bytes.length
        let encoder ← encoder.extend quiet exponent
        let encoder ← encoder.string quiet digits
        let encoder := if negative then encoder.complementFrom start else encoder
        encoder.runCheck quiet) := by
  have hwritten : Appends _ (fun first => extend host exponent first >>= string host digits) _ :=
    (appends_extend hquiet exponent).bind (appends_string hquiet digits)
  simp only [← bind_assoc]
  refine hwritten.rewrite
    (fun start next => runCheck host (if negative then next.complementFrom start else next))
    (fun start next => runCheck quiet (if negative then next.complementFrom start else next))
    ?_
  intro bytes bound first next second hroom hbytes hnext
  cases negative with
  | false =>
    obtain ⟨hsame, hnext⟩ := appends_runCheck hquiet _ _ _ _ hroom hnext
    exact ⟨by simpa [hbytes] using hsame, hnext⟩
  | true =>
    have hturned : Roomier bound (first.complementFrom bytes.length)
        (second.complementFrom bytes.length) :=
      ⟨by simp [complementFrom, hroom.bytes], hroom.steps, hroom.limit, hroom.room⟩
    obtain ⟨hsame, hnext⟩ := appends_runCheck hquiet _ _ _ _ hturned hnext
    exact ⟨by simpa [complementFrom, hbytes] using hsame, hnext⟩

theorem appends_number (value : CanonicalNumber) :
    Appends (numberCode value) (number host value) (number quiet value) := by
  cases value with
  | nan | negativeInfinity | positiveInfinity => exact appends_extend hquiet _
  | finite finite =>
    refine .ite (fun hzero => ?_) fun hne => ?_
    · rw [(numberCode_zero hzero).1]
      exact appends_extend hquiet [3]
    · refine .of_eq ?_ ((appends_extend hquiet _).bind
        (appends_scientific hquiet finite.negative _ _))
      by_cases hnegative : finite.negative = true
      · rw [(numberCode_negative hne hnegative).1, if_pos hnegative, if_pos hnegative]
        rfl
      · rw [(numberCode_positive hne hnegative).1, if_neg hnegative, if_neg hnegative]
        rfl

theorem appends_enter (value : BsonValue) (depth : Nat) :
    Appends [rankByte value.typeRank] (enter host value depth) (enter quiet value depth) :=
  (appends_step hquiet).bind (.ite (fun _ => .error) fun _ => appends_extend hquiet _)

/-- Writing a payload appends the rest of the value's word after its rank byte. -/
def AppendsPayload (host : EncoderHost σ) (quiet : EncoderHost τ) (value : BsonValue) : Prop :=
  ∀ depth, Appends (value.orderedCode boundedBlob).tail (payload host value depth)
    (payload quiet value depth)

theorem appends_value {value : BsonValue} (hpayload : AppendsPayload host quiet value)
    (depth : Nat) :
    Appends (value.orderedCode boundedBlob) (Encoder.value host value depth)
      (Encoder.value quiet value depth) := by
  refine .of_eq ?_ ((appends_enter hquiet value depth).bind (hpayload depth))
  obtain ⟨tail, htail⟩ := orderedCode_head boundedBlob value
  rw [htail]
  rfl

theorem appends_documentEntries {entries : List (String × BsonValue)}
    (ih : ∀ entry ∈ entries, AppendsPayload host quiet entry.2) (depth : Nat) :
    Appends (documentCode boundedBlob entries) (documentEntries host entries depth)
      (documentEntries quiet entries depth) := by
  induction entries with
  | nil => exact appends_extend hquiet [0]
  | cons entry entries ihEntries =>
    have hrest := (appends_value hquiet (ih entry mem_cons_self) depth).bind
      (ihEntries (forall_mem_cons.mp ih).2)
    simp only [Encoder.value, bind_assoc] at hrest
    exact (appends_extend hquiet _).bind ((appends_string hquiet _).bind hrest)

theorem appends_array {values : List BsonValue}
    (ih : ∀ value ∈ values, AppendsPayload host quiet value) (depth : Nat) :
    Appends (arrayCode boundedBlob values) (array host values depth)
      (array quiet values depth) := by
  induction values with
  | nil => exact appends_extend hquiet [0]
  | cons value values ihValues =>
    have h := (appends_value hquiet (ih value mem_cons_self) depth).bind
      (ihValues (forall_mem_cons.mp ih).2)
    simp only [Encoder.value, bind_assoc] at h
    exact h

theorem appendsPayload_number {value : BsonValue} {number : CanonicalNumber}
    (hnumber : value.canonicalNumber = some number) : AppendsPayload host quiet value := by
  intro depth bound first next second hroom hwrite
  unfold payload at hwrite ⊢
  unfold BsonValue.orderedCode
  simp only [hnumber, tail_cons] at hwrite ⊢
  exact appends_number hquiet number _ _ _ _ hroom hwrite

theorem appendsPayload_binary {value : BsonValue} {parts : UInt8 × List UInt8}
    (hnumber : value.canonicalNumber = none) (hparts : value.binaryParts = some parts) :
    AppendsPayload host quiet value := by
  intro depth bound first next second hroom hwrite
  unfold payload at hwrite ⊢
  unfold BsonValue.orderedCode
  simp only [hnumber, hparts, tail_cons] at hwrite ⊢
  exact ((appends_extend hquiet _).bind ((appends_extend hquiet [_]).bind
    (appends_extend hquiet _))) _ _ _ _ hroom hwrite

theorem appends_payload (value : BsonValue) : AppendsPayload host quiet value := by
  induction value using BsonValue.induct with
  | hscalar value hscalar =>
    cases value with
    | double | int32 | int64 | decimal128 => exact appendsPayload_number hquiet rfl
    | binary | uuid => exact appendsPayload_binary hquiet rfl rfl
    | document | array => exact hscalar.elim
    | javaScript code scope =>
      cases scope with
      | none => exact fun depth => appends_string hquiet (Utf8.bytes code)
      | some scope => exact hscalar.elim
    | string value => exact fun depth => appends_string hquiet (Utf8.bytes value)
    | objectId | boolean | dateTime =>
      intro depth
      refine .of_eq ?_ (appends_extend hquiet _)
      rfl
    | timestamp value => exact fun depth => (appends_extend hquiet _).bind (appends_extend hquiet _)
    | regularExpression value =>
      exact fun depth => (appends_string hquiet _).bind (appends_string hquiet _)
    | null | minKey | maxKey => exact fun depth => .ok
  | hdocument entries ih =>
    exact fun depth => .ite (fun _ => .error) fun _ => appends_documentEntries hquiet ih (depth + 1)
  | harray values ih => exact fun depth => appends_array hquiet ih (depth + 1)
  | hscope code scope ih =>
    exact fun depth => (appends_string hquiet (Utf8.bytes code)).bind
      (.ite (fun _ => .error) fun _ => appends_documentEntries hquiet ih (depth + 1))

theorem appends_atom (atom : Atom) :
    Appends (atomCode atom) (Encoder.atom host atom) (Encoder.atom quiet atom) := by
  cases atom with
  | emptyArray => exact appends_extend hquiet [2]
  | value value => exact appends_value hquiet (appends_payload hquiet value) 0

theorem appends_complementChunks :
    Appends (complement chunks.flatten) (complementChunks host chunks)
      (complementChunks quiet chunks) := by
  induction chunks with
  | nil => exact .ok
  | cons chunk chunks ih =>
    rw [flatten_cons, complement, map_append]
    exact (appends_runCheck hquiet).bind ((Appends.push (complement chunk)).bind ih)

/-- An atom, turned to the direction of its component. -/
theorem appends_oriented (descending : Bool) (atom : Atom) :
    Appends (if descending then complement (atomCode atom) else atomCode atom)
      (fun encoder => encoder.atom host atom >>= orient host descending encoder.bytes.length)
      (fun encoder => encoder.atom quiet atom >>=
        orient quiet descending encoder.bytes.length) := by
  refine (appends_atom hquiet atom).rewrite (orient host descending) (orient quiet descending) ?_
  intro bytes bound first next second hroom hbytes hnext
  unfold orient at hnext ⊢
  cases descending with
  | false =>
    cases hnext
    exact ⟨hbytes, second, rfl, hroom⟩
  | true =>
    have hcut : Roomier bound { first with bytes := first.bytes.take bytes.length }
        { second with bytes := second.bytes.take bytes.length } :=
      ⟨congrArg (·.take bytes.length) hroom.bytes, hroom.steps, hroom.limit, hroom.room⟩
    simp only [if_true, hroom.bytes, hbytes, take_left, drop_left] at hnext hcut ⊢
    have h := appends_complementChunks hquiet _ _ _ _ _ hcut hnext
    rwa [Chunks.flatten_chunks (by decide)] at h

theorem appends_components (components : List (Bool × Atom)) :
    Appends (components.flatMap componentCode) (Encoder.components host components)
      (Encoder.components quiet components) := by
  induction components with
  | nil => exact .ok
  | cons component components ih =>
    have hrest := (@appends_oriented _ _ host _ hquiet component.1 component.2).bind ih
    simp only [bind_assoc] at hrest
    exact .of_eq (append_assoc _ _ _).symm
      ((appends_step hquiet).bind ((appends_extend hquiet _).bind hrest))

end Writers

end Encoder

def orderedHeader : List UInt8 := orderedMagic ++ Bytes.ofBe 4 orderedEncodingVersion.toNat

def DocumentSortKey.write {σ : Type} (host : EncoderHost σ) (key : DocumentSortKey)
    (encoder : Encoder σ) : EngineResult (Encoder σ) := do
  let encoder ← encoder.extend host orderedMagic
  let encoder ← encoder.extend host (Bytes.ofBe 4 orderedEncodingVersion.toNat)
  encoder.components host key.components

variable {σ τ : Type} {host : EncoderHost σ} {quiet : EncoderHost τ} {state : σ}
  {bound bound' : Nat} {key : DocumentSortKey} {bytes : List UInt8}

/-- What an extension checked before it appended anything. -/
theorem Encoder.length_extend_le {encoder next : Encoder σ}
    (hbytes : next.bytes = encoder.bytes ++ bytes) (h : encoder.extend host bytes = .ok next) :
    next.bytes.length ≤ encoder.maxBytes := by
  have hmax := encoder.maxBytes_le
  have hsmall : maxOrderedBytes < 2 ^ 64 - 1 := by decide
  unfold extend saturatingAdd at h
  grind

theorem orderedBytesBounded_eq_write (host : EncoderHost σ) (state : σ)
    (maxBytes : Nat) (key : DocumentSortKey) :
    key.orderedBytesBounded host state maxBytes = (do
      let encoder ← key.write host
        ⟨[], 0, 0, min maxBytes maxOrderedBytes, state, Nat.min_le_right _ _⟩
      let encoder ← encoder.extend host [0]
      let encoder ← encoder.runCheck host
      return encoder.bytes) := by
  simp only [DocumentSortKey.orderedBytesBounded, DocumentSortKey.write, bind_assoc]

/-- A finished encoding is the header and the terminated components, within its bound; it is
the encoding within every larger bound too. -/
theorem orderedBytesBounded_spec (hquiet : quiet.Quiet) (state' : τ) (hbound : bound ≤ bound')
    (h : key.orderedBytesBounded host state bound = .ok bytes) :
    bytes = orderedHeader ++ terminated 0 componentCode key.components ∧
      bytes.length ≤ min bound maxOrderedBytes ∧
      key.orderedBytesBounded quiet state' bound' = .ok bytes := by
  have hwrite : Encoder.Appends _ (key.write host) (key.write quiet) :=
    (Encoder.appends_extend hquiet _).bind ((Encoder.appends_extend hquiet _).bind
      (Encoder.appends_components hquiet _))
  have hstart : Encoder.Roomier (min bound maxOrderedBytes)
      ⟨[], 0, 0, min bound maxOrderedBytes, state, Nat.min_le_right _ _⟩
      ⟨[], 0, 0, min bound' maxOrderedBytes, state', Nat.min_le_right _ _⟩ :=
    ⟨rfl, rfl, rfl, min_le_min_right maxOrderedBytes hbound⟩
  rw [orderedBytesBounded_eq_write] at h ⊢
  obtain ⟨written, hwritten, h⟩ := bind_eq_ok.mp h
  obtain ⟨closed, hclosed, h⟩ := bind_eq_ok.mp h
  obtain ⟨checked, hchecked, h⟩ := bind_eq_ok.mp h
  cases h
  obtain ⟨hbytes, written', hwritten', hroom⟩ := hwrite _ _ _ _ hstart hwritten
  obtain ⟨hend, closed', hclosed', hroom'⟩ :=
    Encoder.appends_extend hquiet _ _ _ _ _ hroom hclosed
  obtain ⟨hsame, checked', hchecked', hroom''⟩ :=
    Encoder.appends_runCheck hquiet _ _ _ _ hroom' hchecked
  rw [append_nil] at hsame
  refine ⟨?_, ?_, ?_⟩
  · rw [hsame, hend, hbytes, orderedHeader, terminated]
    simp
  · rw [hsame, ← hroom.limit]
    exact Encoder.length_extend_le hend hclosed
  · simp only [hwritten', hclosed', hchecked', ok_bind, hroom''.bytes]
    rfl

/-- An encoding within a bound is the encoding within every larger bound. -/
theorem orderedBytesBounded_mono (hquiet : quiet.Quiet) (state' : τ) (hbound : bound ≤ bound')
    (h : key.orderedBytesBounded host state bound = .ok bytes) :
    key.orderedBytesBounded quiet state' bound' = .ok bytes :=
  (orderedBytesBounded_spec hquiet state' hbound h).2.2

theorem length_le_of_orderedBytesBounded
    (h : key.orderedBytesBounded host state bound = .ok bytes) : bytes.length ≤ bound :=
  (orderedBytesBounded_spec quietHost_quiet () le_rfl h).2.1.trans (Nat.min_le_left _ _)

/-- A finished encoding is within the global bound, so is every binary payload in it. -/
theorem orderedBytesBounded_eq (h : key.orderedBytesBounded host state bound = .ok bytes) :
    bytes = orderedHeader ++ terminated 0 componentCode key.components ∧
      ∀ component ∈ key.components, AtomBounded component.2 := by
  obtain ⟨hbytes, hlength, -⟩ := orderedBytesBounded_spec quietHost_quiet () le_rfl h
  refine ⟨hbytes, fun component hcomponent => ?_⟩
  have hpart := (sublist_flatten_of_mem (mem_map_of_mem (f := componentCode) hcomponent)).length_le
  rw [← flatMap_def] at hpart
  rw [hbytes, terminated] at hlength
  apply atomBounded_of_length_le
  simp only [componentCode, length_append, apply_ite length, complement, length_map, ite_self] at *
  omega

end BriskDB.Document
