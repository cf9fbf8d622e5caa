import BriskDB.Lib.Bytes
import BriskDB.Lib.Result

/-! # Readers of byte texts

A reader takes a value from the front of a text and leaves the rest, or fails. It reads a word as
a value when it does so whatever follows the word; readers that run one after the other read the
concatenation of their words.
-/

abbrev ByteReader (ε α : Type) := StateT (List UInt8) (Except ε) α

namespace ByteReader

open List

variable {ε α β σ : Type}

def take (error : ε) (count : Nat) : ByteReader ε (List UInt8) := fun text =>
  if count > text.length then .error error else .ok (text.take count, text.drop count)

def number (error : ε) (width : Nat) : ByteReader ε Nat := do
  let bytes ← take error width
  return Bytes.toBe bytes

/-- A step with a state, as often as asked for. -/
def loop (step : σ → ByteReader ε σ) : Nat → σ → ByteReader ε σ
  | 0, state => pure state
  | count + 1, state => do
    let next ← step state
    loop step count next

variable {next : α → ByteReader ε β} {text rest : List UInt8} {result : β × List UInt8} {error : ε}
    {count : Nat}

theorem bind_eq_ok {reader : ByteReader ε α} :
    (reader >>= next) text = .ok result ↔
      ∃ value rest, reader text = .ok (value, rest) ∧ next value rest = .ok result := by
  have hrun : (reader >>= next) text = (reader text >>= fun read => next read.1 read.2) := rfl
  simp [*, Result.bind_eq_ok]

theorem lift_eq_ok {outcome : Except ε α} {result : α × List UInt8} :
    (liftM outcome : ByteReader ε α) text = .ok result ↔
      outcome = .ok result.1 ∧ result.2 = text := by
  obtain ⟨value, rest⟩ := result
  cases outcome with
  | error error => exact ⟨nofun, fun h => (by cases h.1)⟩
  | ok found =>
    constructor
    · intro h
      cases h
      exact ⟨rfl, rfl⟩
    · rintro ⟨h, rfl⟩
      cases h
      rfl

theorem ite_throw_eq_ok {check : Prop} [Decidable check] {rest : ByteReader ε β} :
    (if check then throw error >>= next else rest) text = .ok result ↔
      ¬ check ∧ rest text = .ok result := by
  split
  next hcheck => exact ⟨nofun, fun h => absurd hcheck h.1⟩
  · simp [*]

theorem take_eq_ok {bytes : List UInt8} :
    take error count text = .ok (bytes, rest) ↔ bytes.length = count ∧ text = bytes ++ rest := by
  unfold take
  split
  next hlength =>
    grind
  next hlength =>
    constructor
    · grind [take_append_drop]
    · grind

/-- What every step preserves holds after the loop; the number of steps counts. -/
theorem loop_preserves {step : σ → ByteReader ε σ} {P : Nat → σ → Prop}
    (hstep : ∀ steps state text next rest, P steps state → step state text = .ok (next, rest) →
      P (steps + 1) next) (steps : Nat) {state result : σ} (hstate : P steps state)
    (hloop : loop step count state text = .ok (result, rest)) : P (steps + count) result := by
  induction count generalizing steps state text with
  | zero =>
    cases hloop
    exact hstate
  | succ count ih =>
    obtain ⟨next, remaining, hnext, hloop⟩ := bind_eq_ok.mp hloop
    grind

/-- The reader takes the word for the value, whatever follows. -/
def Reads (reader : ByteReader ε α) (word : List UInt8) (value : α) : Prop :=
  ∀ rest, reader (word ++ rest) = .ok (value, rest)

namespace Reads

variable {reader : ByteReader ε α} {next : α → ByteReader ε β} {word word' : List UInt8}
  {value : α} {value' : β}

theorem pure (value : α) : Reads (pure value : ByteReader ε α) [] value := fun _ => rfl

theorem bind (hfirst : Reads reader word value) (hnext : Reads (next value) word' value') :
    Reads (reader >>= next) (word ++ word') value' := by
  intro rest
  rw [append_assoc]
  exact bind_eq_ok.mpr ⟨value, word' ++ rest, hfirst (word' ++ rest), hnext rest⟩

theorem bind_nil (hfirst : Reads reader word value) (hnext : Reads (next value) [] value') :
    Reads (reader >>= next) word value' := by
  have hreads := hfirst.bind hnext
  rwa [append_nil] at hreads

variable {outcome : Except ε α} {error : ε}

theorem final (houtcome : outcome = .ok value) :
    Reads (liftM outcome : ByteReader ε α) [] value := by
  intro rest
  exact lift_eq_ok.mpr ⟨houtcome, rfl⟩

theorem lift (houtcome : outcome = .ok value) (hnext : Reads (next value) word value') :
    Reads ((liftM outcome : ByteReader ε α) >>= next) word value' := by
  intro rest
  exact bind_eq_ok.mpr ⟨value, word ++ rest, lift_eq_ok.mpr ⟨houtcome, rfl⟩, hnext rest⟩

theorem guard {check : Prop} [Decidable check] {reader : ByteReader ε β}
    (hcheck : ¬ check) (hreads : Reads reader word value') :
    Reads (if check then throw error >>= next else reader) word value' := by
  simp [*]

theorem take (hlength : word.length = count) : Reads (ByteReader.take error count) word word := by
  intro rest
  exact take_eq_ok.mpr ⟨hlength, rfl⟩

/-- A loop reads the words of its items, as long as its condition allows the next step. -/
theorem loop {step : σ → ByteReader ε σ} {code : α → List UInt8} {advance : σ → α → σ}
    {P : σ → List α → Prop} (hstep : ∀ state item items, P state (item :: items) →
      Reads (step state) (code item) (advance state item) ∧ P (advance state item) items)
    {state : σ} {items : List α} (hstate : P state items) :
    Reads (ByteReader.loop step items.length state) (items.flatMap code)
      (items.foldl advance state) := by
  induction items generalizing state with
  | nil => exact pure state
  | cons item items ih =>
    obtain ⟨hreads, hnext⟩ := hstep state item items hstate
    rw [flatMap_cons]
    exact hreads.bind (ih hnext)

end Reads

/-- The reader accepts the words of the values with the property, and no other text. -/
def Exact (reader : ByteReader ε α) (code : α → List UInt8) (P : α → Prop) : Prop :=
  ∀ text value rest, reader text = .ok (value, rest) ↔ P value ∧ text = code value ++ rest

theorem exact_number {width : Nat} :
    Exact (number error width) (Bytes.ofBe width) fun value => value < 256 ^ width := by
  intro text value rest
  simp only [number, bind_eq_ok, take_eq_ok]
  constructor
  · rintro ⟨bytes, _, ⟨rfl, rfl⟩, h⟩
    cases h
    exact ⟨Bytes.toBe_lt bytes, by rw [Bytes.ofBe_toBe]⟩
  · rintro ⟨hvalue, rfl⟩
    refine ⟨Bytes.ofBe width value, rest, ⟨Bytes.ofBe_length width value, rfl⟩, ?_⟩
    rw [Bytes.toBe_ofBe_of_lt hvalue]
    rfl

theorem Exact.loop {reader : ByteReader ε α} {code : α → List UInt8} {P : α → Prop}
    (hexact : Exact reader code P) (done : List α) {items : List α} :
    loop (fun done => do return done ++ [← reader]) count done text = .ok (items, rest) ↔
      ∃ added, added.length = count ∧ (∀ item ∈ added, P item) ∧ items = done ++ added ∧
        text = added.flatMap code ++ rest := by
  induction count generalizing done text with
  | zero =>
    constructor
    · intro h
      cases h
      exact ⟨[], rfl, by simp, by simp, rfl⟩
    · rintro ⟨added, hlength, -, rfl, rfl⟩
      cases length_eq_zero_iff.mp hlength
      rw [append_nil]
      rfl
  | succ count ih =>
    rw [ByteReader.loop, bind_eq_ok]
    simp only [bind_eq_ok, hexact _ _ _, ih]
    constructor
    · rintro ⟨_, _, ⟨item, _, ⟨hitem, rfl⟩, h⟩, added, rfl, hadded, rfl, rfl⟩
      cases h
      exact ⟨item :: added, rfl, forall_mem_cons.mpr ⟨hitem, hadded⟩, by simp, by simp⟩
    · rintro ⟨_ | ⟨item, added⟩, hlength, hadded, rfl, rfl⟩
      · cases hlength
      · obtain ⟨hitem, hadded⟩ := forall_mem_cons.mp hadded
        exact ⟨done ++ [item], added.flatMap code ++ rest,
          ⟨item, _, ⟨hitem, by simp⟩, rfl⟩, added, Nat.succ.inj hlength, hadded, by simp, rfl⟩

end ByteReader
