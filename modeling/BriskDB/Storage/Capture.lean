import BriskDB.Core.IndexKey
import BriskDB.Lib.ByteOrder
import BriskDB.Lib.KeyedList

/-! # Captured row changes

A write transaction runs on one shard, and the pre-update hook records its row changes in
execution order. For every index the coordinator folds them into one state per row
identity: the key the row had before the transaction and the key it has now. The fold
describes the two tables exactly, so what an index has to learn about the transaction can
be read off the states.
-/

namespace BriskDB.Storage

open ByteOrder IndexKey Result KeyedList List Option

instance : DecidableEq CanonicalIndexKey := fun left right =>
  decidable_of_iff (left.bytes = right.bytes ∧ left.componentCount = right.componentCount)
    CanonicalIndexKey.ext_iff.symm

/-- The shard of a row and the encoded identity it has there. -/
structure GlobalIndexOwner where
  shard : Nat
  locator : List UInt8
  deriving DecidableEq, Repr

/-- What one index reads from the rows of its table. -/
structure IndexSource (ρ : Type) where
  locator : ρ → List UInt8
  key : ρ → EngineResult (Option CanonicalIndexKey)

structure CapturedPhysicalChange (ρ : Type) where
  old : Option ρ
  new : Option ρ

structure CapturedOwnerState where
  owner : GlobalIndexOwner
  initial : Option CanonicalIndexKey
  current : Option CanonicalIndexKey

namespace CapturedOwnerState

def locator (state : CapturedOwnerState) : List UInt8 := state.owner.locator

variable (states : List CapturedOwnerState)

def find (identity : List UInt8) : Option CapturedOwnerState :=
  lookup locator states identity

def put (state : CapturedOwnerState) : List CapturedOwnerState :=
  insert locator state states

theorem find_put (state : CapturedOwnerState) (identity : List UInt8) :
    find (put states state) identity =
      if state.locator = identity then some state else find states identity := by
  unfold find put
  rw [lookup_insert]
  split <;> rfl

end CapturedOwnerState

open CapturedOwnerState

variable (states : List CapturedOwnerState)

def applyCapturedOld (owner : GlobalIndexOwner)
    (key : Option CanonicalIndexKey) : EngineResult (List CapturedOwnerState) :=
  if key = none ∧ find states owner.locator = none then .ok states
  else
    let state := (find states owner.locator).getD ⟨owner, key, key⟩
    if state.current ≠ key then
      .error (.new .dataCorruption
        "global-index physical change history has a discontinuous old row")
    else .ok (put states { state with current := none })

def applyCapturedNew (owner : GlobalIndexOwner)
    (key : Option CanonicalIndexKey) : EngineResult (List CapturedOwnerState) :=
  if key = none ∧ find states owner.locator = none then .ok states
  else
    let state := (find states owner.locator).getD ⟨owner, none, none⟩
    if state.current.isSome then
      .error (.new .dataCorruption
        "global-index physical change history inserted over a live row identity")
    else .ok (put states { state with current := key })

section Planning

variable {ρ : Type} (index : IndexSource ρ) (shard : Nat)

def capturedGlobalOwner (row : ρ) : GlobalIndexOwner := ⟨shard, index.locator row⟩

/-- Rows that do not qualify are passed over. -/
def impactSide (apply : List CapturedOwnerState → GlobalIndexOwner → Option CanonicalIndexKey →
      EngineResult (List CapturedOwnerState)) (states : List CapturedOwnerState) :
    Option ρ → EngineResult (List CapturedOwnerState)
  | none => return states
  | some row => do
    match ← index.key row with
    | some key => apply states (capturedGlobalOwner index shard row) (some key)
    | none => return states

def impactChange (states : List CapturedOwnerState) (change : CapturedPhysicalChange ρ) :
    EngineResult (List CapturedOwnerState) := do
  let states ← impactSide index shard applyCapturedOld states change.old
  impactSide index shard applyCapturedNew states change.new

/-- Remove consecutive repetitions. -/
def dedup {α : Type} [DecidableEq α] : List α → List α
  | [] => []
  | [a] => [a]
  | a :: b :: rest => if a = b then dedup (b :: rest) else a :: dedup (b :: rest)

/-- The keys that rows of the transaction acquired. -/
def summaryAdditions : List CanonicalIndexKey :=
  let changed := states.filter fun state => state.initial ≠ state.current
  dedup ((changed.filterMap (·.current)).mergeSort fun left right => left.bytes ≤ right.bytes)

def planGlobalIndexWriteImpact (changes : List (CapturedPhysicalChange ρ)) :
    EngineResult (List CanonicalIndexKey) := do
  let states ← changes.foldlM (impactChange index shard) []
  return summaryAdditions states

end Planning

theorem mem_dedup {α : Type} [DecidableEq α] {a : α} {items : List α} :
    a ∈ dedup items ↔ a ∈ items := by
  induction items using dedup.induct with
  | case1 | case2 => rfl
  | case3 b rest ih =>
    rw [dedup, if_pos rfl, ih]
    simp
  | case4 b c rest hne ih => rw [dedup, if_neg hne, mem_cons, ih, ← mem_cons]

theorem mem_summaryAdditions {states : List CapturedOwnerState} {key : CanonicalIndexKey} :
    key ∈ summaryAdditions states ↔
      ∃ state ∈ states, state.initial ≠ state.current ∧ state.current = some key := by
  simp only [summaryAdditions, mem_dedup, mem_mergeSort, mem_filterMap,
    mem_filter, decide_eq_true_eq, ne_eq, and_assoc]

/-- The rows of a table on one shard, in the order of their identities. -/
structure RowTable {ρ : Type} (index : IndexSource ρ) where
  rows : List ρ
  sorted : KeyedList.Sorted index.locator rows

namespace RowTable

variable {ρ : Type} {index : IndexSource ρ}

def rowAt (table : RowTable index) (identity : List UInt8) : Option ρ :=
  lookup index.locator table.rows identity

def erase (table : RowTable index) (identity : List UInt8) : RowTable index where
  rows := KeyedList.erase index.locator identity table.rows
  sorted := sorted_erase table.sorted

def insert (table : RowTable index) (row : ρ) : RowTable index where
  rows := KeyedList.insert index.locator row table.rows
  sorted := sorted_insert table.sorted

/-- The key of the row with an identity, when there is one that qualifies. -/
def keyAt (table : RowTable index) (identity : List UInt8) : Option CanonicalIndexKey :=
  (table.rowAt identity).bind fun row => (index.key row).toOption.join

theorem keyAt_erase (table : RowTable index) (removed identity : List UInt8) :
    (table.erase removed).keyAt identity =
      if removed = identity then none else table.keyAt identity := by
  unfold keyAt rowAt erase
  rw [lookup_erase]
  split <;> rfl

theorem keyAt_insert (table : RowTable index) (row : ρ) (identity : List UInt8) :
    (table.insert row).keyAt identity =
      if index.locator row = identity then (index.key row).toOption.join
      else table.keyAt identity := by
  unfold keyAt rowAt insert
  rw [lookup_insert]
  split <;> rfl

variable {table : RowTable index} {row : ρ} {identity : List UInt8} {key : CanonicalIndexKey}

theorem keyAt_of_rowAt (h : table.rowAt identity = some row) :
    table.keyAt identity = (index.key row).toOption.join := by
  rw [keyAt, h]
  rfl

theorem keyAt_of_free (h : table.rowAt identity = none) : table.keyAt identity = none := by
  rw [keyAt, h]
  rfl

theorem keyAt_of_mem (hrow : row ∈ table.rows) (hkey : index.key row = .ok (some key)) :
    table.keyAt (index.locator row) = some key := by
  rw [keyAt_of_rowAt ((lookup_eq_some table.sorted).mpr hrow), hkey]
  rfl

theorem exists_row_of_keyAt (h : table.keyAt identity = some key) :
    ∃ row ∈ table.rows, index.locator row = identity ∧ index.key row = .ok (some key) := by
  obtain ⟨row, hrow, hkey⟩ := bind_eq_some_iff.mp h
  refine ⟨row, mem_of_lookup hrow, key_of_lookup hrow, ?_⟩
  cases hvalue : index.key row with
  | error error =>
    rw [hvalue] at hkey
    cases hkey
  | ok value =>
    rw [hvalue] at hkey
    exact congrArg Except.ok hkey

section Changes

variable [DecidableEq ρ]

def removeOld (table : RowTable index) : Option ρ → Option (RowTable index)
  | none => some table
  | some old =>
    if table.rowAt (index.locator old) = some old then some (table.erase (index.locator old))
    else none

def insertNew (table : RowTable index) : Option ρ → Option (RowTable index)
  | none => some table
  | some new => if table.rowAt (index.locator new) = none then some (table.insert new) else none

def applyChange (table : RowTable index) (change : CapturedPhysicalChange ρ) :
    Option (RowTable index) :=
  (table.removeOld change.old).bind fun table => table.insertNew change.new

def applyChanges (table : RowTable index) (changes : List (CapturedPhysicalChange ρ)) :
    Option (RowTable index) :=
  changes.foldlM applyChange table

end Changes

end RowTable

/-- The states give the keys of two tables: where there is no state the tables agree. -/
structure Describes {ρ : Type} {index : IndexSource ρ} (before after : RowTable index)
    (states : List CapturedOwnerState) : Prop where
  touched : ∀ identity state, find states identity = some state →
    state.initial = before.keyAt identity ∧ state.current = after.keyAt identity
  untouched : ∀ identity, find states identity = none →
    before.keyAt identity = after.keyAt identity

namespace Describes

variable {ρ : Type} {index : IndexSource ρ} {before after next : RowTable index}
  {states result : List CapturedOwnerState} {owner : GlobalIndexOwner}
  {key : Option CanonicalIndexKey}

theorem refl (table : RowTable index) : Describes table table [] where
  touched _ _ h := by cases h
  untouched _ _ := rfl

section

variable (h : Describes before after states)
include h

/-- A state that is right about both tables is put at its identity. -/
theorem put {state : CapturedOwnerState} (hinitial : state.initial = before.keyAt state.locator)
    (hcurrent : state.current = next.keyAt state.locator)
    (hother : ∀ identity, state.locator ≠ identity →
      next.keyAt identity = after.keyAt identity) :
    Describes before next (CapturedOwnerState.put states state) where
  touched identity found hfound := by
    rw [find_put] at hfound
    split at hfound
    next heq =>
      grind
    next hne =>
      rw [hother identity hne]
      exact h.touched identity found hfound
  untouched identity hnone := by
    rw [find_put] at hnone
    split at hnone
    next => cases hnone
    next hne =>
      rw [hother identity hne]
      exact h.untouched identity hnone

theorem congr (hkeys : ∀ identity, next.keyAt identity = after.keyAt identity) :
    Describes before next states where
  touched identity state hfind := by
    rw [hkeys]
    exact h.touched identity state hfind
  untouched identity hfind := by
    rw [hkeys]
    exact h.untouched identity hfind

/-- The state found at an identity, or the one entered there with the current key. -/
theorem initial_getD (owner : GlobalIndexOwner) (hkey : after.keyAt owner.locator = key) :
    ((find states owner.locator).getD ⟨owner, key, key⟩).locator = owner.locator ∧
      ((find states owner.locator).getD ⟨owner, key, key⟩).initial =
        before.keyAt owner.locator := by
  cases hfind : find states owner.locator with
  | none =>
    refine ⟨rfl, ?_⟩
    rw [h.untouched _ hfind, hkey]
    rfl
  | some state => exact ⟨key_of_lookup hfind, (h.touched _ state hfind).1⟩

/-- The current key of an identity is replaced, on a state that was found or entered. -/
theorem replace {entered : Option CanonicalIndexKey}
    (hentered : after.keyAt owner.locator = entered) (hnext : ∀ identity, next.keyAt identity =
      if owner.locator = identity then key else after.keyAt identity) :
    Describes before next (CapturedOwnerState.put states
      { (find states owner.locator).getD ⟨owner, entered, entered⟩ with current := key }) := by
  obtain ⟨hlocator, hinitial⟩ := h.initial_getD owner hentered
  apply h.put
  · exact hinitial.trans (congrArg before.keyAt hlocator.symm)
  · change key = _
    rw [hnext]
    exact (if_pos hlocator.symm).symm
  · intro identity hne
    rw [hnext, if_neg fun heq => hne (hlocator.trans heq)]

theorem skip {free : List UInt8}
    (hfree : after.keyAt free = none) (hnext : ∀ identity, next.keyAt identity =
      if free = identity then none else after.keyAt identity) :
    Describes before next states := by
  apply h.congr
  simp [*]

theorem old (happly : applyCapturedOld states owner key = .ok result)
    (hkey : after.keyAt owner.locator = key) (hnext : ∀ identity, next.keyAt identity =
      if owner.locator = identity then none else after.keyAt identity) :
    Describes before next result := by
  unfold applyCapturedOld at happly
  split at happly
  next hskip =>
    cases happly
    exact h.skip (hkey.trans hskip.1) hnext
  next =>
    dsimp only at happly
    split at happly
    next => cases happly
    next =>
      cases happly
      exact h.replace hkey hnext

theorem new (happly : applyCapturedNew states owner key = .ok result)
    (hfree : after.keyAt owner.locator = none) (hnext : ∀ identity, next.keyAt identity =
      if owner.locator = identity then key else after.keyAt identity) :
    Describes before next result := by
  unfold applyCapturedNew at happly
  split at happly
  next hskip =>
    cases happly
    rw [hskip.1] at hnext
    exact h.skip hfree hnext
  next =>
    dsimp only at happly
    split at happly
    next => cases happly
    next =>
      cases happly
      exact h.replace hfree hnext

end

variable [DecidableEq ρ] {shard : Nat}

section

variable (h : Describes before after states)
include h

theorem impactOld {old : Option ρ} (hremove : after.removeOld old = some next)
    (hside : impactSide index shard applyCapturedOld states old = .ok result) :
    Describes before next result := by
  cases old with
  | none =>
    cases hremove
    cases hside
    exact h
  | some old =>
    simp only [RowTable.removeOld, ite_none_right_eq_some, Option.some.injEq] at hremove
    obtain ⟨hrow, rfl⟩ := hremove
    obtain ⟨value, hvalue, happly⟩ := bind_eq_ok.mp hside
    have hkey : after.keyAt (index.locator old) = value := by
      rw [RowTable.keyAt_of_rowAt hrow, hvalue]
      rfl
    have hnext := after.keyAt_erase (index.locator old)
    cases value with
    | none =>
      cases happly
      exact h.skip hkey hnext
    | some key => exact h.old happly hkey hnext

omit [DecidableEq ρ] in
theorem impactNew {new : Option ρ} (hinsert : after.insertNew new = some next)
    (hside : impactSide index shard applyCapturedNew states new = .ok result) :
    Describes before next result := by
  cases new with
  | none =>
    cases hinsert
    cases hside
    exact h
  | some new =>
    simp only [RowTable.insertNew, ite_none_right_eq_some, Option.some.injEq] at hinsert
    obtain ⟨hrow, rfl⟩ := hinsert
    obtain ⟨value, hvalue, happly⟩ := bind_eq_ok.mp hside
    have hfree := RowTable.keyAt_of_free hrow
    have hnext := after.keyAt_insert new
    rw [hvalue] at hnext
    cases value with
    | none =>
      cases happly
      exact h.skip hfree hnext
    | some key => exact h.new happly hfree hnext

theorem impactChange {change : CapturedPhysicalChange ρ}
    (hchange : after.applyChange change = some next)
    (himpact : Storage.impactChange index shard states change = .ok result) :
    Describes before next result := by
  obtain ⟨middle, hold, hnew⟩ := bind_eq_some_iff.mp hchange
  obtain ⟨states', hstates', himpact⟩ := bind_eq_ok.mp himpact
  exact (h.impactOld hold hstates').impactNew hnew himpact

theorem impactChanges
    {changes : List (CapturedPhysicalChange ρ)} (hchanges : after.applyChanges changes = some next)
    (himpact : changes.foldlM (Storage.impactChange index shard) states = .ok result) :
    Describes before next result := by
  induction changes generalizing after states with
  | nil =>
    cases hchanges
    cases himpact
    exact h
  | cons change changes ih =>
    obtain ⟨middle, hmiddle, hchanges⟩ := bind_eq_some_iff.mp hchanges
    rw [foldlM_cons] at himpact
    obtain ⟨states', hstates', himpact⟩ := bind_eq_ok.mp himpact
    exact ih (h.impactChange hmiddle hstates') hchanges himpact

end

end Describes

/-- A key in the table after a transaction was there before, or is among the planned
additions. -/
theorem keyAt_or_mem_additions {ρ : Type} [DecidableEq ρ] {index : IndexSource ρ} {shard : Nat}
    {table next : RowTable index} {changes : List (CapturedPhysicalChange ρ)}
    {additions : List CanonicalIndexKey} (hchanges : table.applyChanges changes = some next)
    (hplan : planGlobalIndexWriteImpact index shard changes = .ok additions)
    {identity : List UInt8} {key : CanonicalIndexKey} (hkey : next.keyAt identity = some key) :
    table.keyAt identity = some key ∨ key ∈ additions := by
  obtain ⟨states, hstates, hplan⟩ := bind_eq_ok.mp hplan
  cases hplan
  have hdescribes := (Describes.refl table).impactChanges hchanges hstates
  cases hfind : find states identity with
  | none =>
    rw [hdescribes.untouched identity hfind]
    exact .inl hkey
  | some state =>
    obtain ⟨hinitial, hcurrent⟩ := hdescribes.touched identity state hfind
    rw [hkey] at hcurrent
    by_cases hsame : state.initial = state.current
    · grind
    · right
      exact mem_summaryAdditions.mpr
        ⟨state, mem_of_lookup hfind, hsame, hcurrent⟩

section Exact

/-- States were obtained, in the order of their identities. -/
def Proceeds (result : EngineResult (List CapturedOwnerState)) : Prop :=
  ∃ states, result = .ok states ∧ KeyedList.Sorted locator states

variable {ρ : Type} {index : IndexSource ρ} {before after next : RowTable index}
  {states : List CapturedOwnerState} {owner : GlobalIndexOwner} {key : CanonicalIndexKey}

theorem proceeds_old (h : Describes before after states)
    (hsorted : KeyedList.Sorted locator states) (hkey : after.keyAt owner.locator = some key) :
    Proceeds (applyCapturedOld states owner (some key)) := by
  have hcurrent : ((find states owner.locator).getD ⟨owner, some key, some key⟩).current =
      some key := by
    cases hfind : find states owner.locator with
    | none => rfl
    | some state => exact (h.touched _ state hfind).2.trans hkey
  simp only [applyCapturedOld, reduceCtorEq, false_and, if_false, hcurrent, ne_eq,
    not_true_eq_false]
  exact ⟨_, rfl, sorted_insert hsorted⟩

theorem proceeds_new (h : Describes before after states)
    (hsorted : KeyedList.Sorted locator states) (hfree : after.keyAt owner.locator = none) :
    Proceeds (applyCapturedNew states owner (some key)) := by
  have hcurrent : ((find states owner.locator).getD ⟨owner, none, none⟩).current = none := by
    cases hfind : find states owner.locator with
    | none => rfl
    | some state => exact (h.touched _ state hfind).2.trans hfree
  simp only [applyCapturedNew, reduceCtorEq, false_and, if_false, hcurrent, isSome_none,
    Bool.false_eq_true]
  exact ⟨_, rfl, sorted_insert hsorted⟩

theorem proceeds_side (hsorted : KeyedList.Sorted locator states) {shard : Nat}
    {apply : List CapturedOwnerState → GlobalIndexOwner → Option CanonicalIndexKey →
      EngineResult (List CapturedOwnerState)} {side : Option ρ}
    (htotal : ∀ row, ∃ key, index.key row = .ok key)
    (happly : ∀ row ∈ side, ∀ key, index.key row = .ok (some key) →
      Proceeds (apply states (capturedGlobalOwner index shard row) (some key))) :
    Proceeds (impactSide index shard apply states side) := by
  cases side with
  | none => exact ⟨states, rfl, hsorted⟩
  | some row =>
    obtain ⟨key, hkey⟩ := htotal row
    simp only [impactSide, hkey]
    cases key with
    | none => exact ⟨states, rfl, hsorted⟩
    | some key => exact happly row rfl key hkey

variable [DecidableEq ρ] {shard : Nat} {changes : List (CapturedPhysicalChange ρ)}

/-- Changes that a table takes are never found discontinuous. -/
theorem proceeds_changes (htotal : ∀ row, ∃ key, index.key row = .ok key)
    (h : Describes before after states) (hsorted : KeyedList.Sorted locator states)
    (hchanges : after.applyChanges changes = some next) :
    Proceeds (changes.foldlM (impactChange index shard) states) := by
  induction changes generalizing after states with
  | nil => exact ⟨states, rfl, hsorted⟩
  | cons change changes ih =>
    obtain ⟨changed, hchange, hchanges⟩ := bind_eq_some_iff.mp hchanges
    obtain ⟨removed, hremove, hinsert⟩ := bind_eq_some_iff.mp hchange
    have hold : Proceeds (impactSide index shard applyCapturedOld states change.old) := by
      refine proceeds_side hsorted htotal fun old hold key hkey => ?_
      rw [hold, RowTable.removeOld, ite_none_right_eq_some] at hremove
      refine proceeds_old h hsorted ((RowTable.keyAt_of_rowAt hremove.1).trans ?_)
      rw [hkey]
      rfl
    obtain ⟨middle, hmiddle, hsorted⟩ := hold
    have hremoved := h.impactOld hremove hmiddle
    have hnew : Proceeds (impactSide index shard applyCapturedNew middle change.new) := by
      refine proceeds_side hsorted htotal fun new hnew key hkey => ?_
      rw [hnew, RowTable.insertNew, ite_none_right_eq_some] at hinsert
      exact proceeds_new hremoved hsorted (RowTable.keyAt_of_free hinsert.1)
    obtain ⟨result, hresult, hsorted⟩ := hnew
    obtain ⟨final, hfinal, hsorted⟩ := ih (hremoved.impactNew hinsert hresult) hsorted hchanges
    exact ⟨final, bind_eq_ok.mpr ⟨result, bind_eq_ok.mpr ⟨middle, hmiddle, hresult⟩, hfinal⟩,
      hsorted⟩

/-- Whatever a transaction does to a table, the plan of its impact succeeds, and its additions
are exactly the keys that some row has after the transaction and did not have before. -/
theorem write_impact_exact (htotal : ∀ row, ∃ key, index.key row = .ok key)
    (hchanges : before.applyChanges changes = some next) (shard : Nat) :
    ∃ additions, planGlobalIndexWriteImpact index shard changes = .ok additions ∧
      ∀ key, key ∈ additions ↔
        ∃ identity, next.keyAt identity = some key ∧ before.keyAt identity ≠ some key := by
  obtain ⟨states, hstates, hsorted⟩ : Proceeds (changes.foldlM (impactChange index shard) []) :=
    proceeds_changes htotal (.refl before) .nil hchanges
  have hdescribes := (Describes.refl before).impactChanges hchanges hstates
  refine ⟨summaryAdditions states, bind_eq_ok.mpr ⟨states, hstates, rfl⟩, fun key => ?_⟩
  rw [mem_summaryAdditions]
  constructor
  · rintro ⟨state, hstate, hne, hcurrent⟩
    obtain ⟨hinitial, hafter⟩ :=
      hdescribes.touched _ state ((lookup_eq_some hsorted).mpr hstate)
    grind
  · rintro ⟨identity, hafter, hbefore⟩
    cases hfind : find states identity with
    | none => exact absurd ((hdescribes.untouched identity hfind).trans hafter) hbefore
    | some state =>
      obtain ⟨hinitial, hcurrent⟩ := hdescribes.touched identity state hfind
      refine ⟨state, mem_of_lookup hfind, ?_, hcurrent.trans hafter⟩
      simp [*]

/-- A row that begins to qualify for the index. -/
theorem write_impact_exact_qualifying :
    ∃ (key : CanonicalIndexKey) (index : IndexSource Bool) (before next : RowTable index),
      before.applyChanges [⟨some false, some true⟩] = some next ∧
      ∃ additions, planGlobalIndexWriteImpact index 0 [⟨some false, some true⟩] = .ok additions ∧
        key ∈ additions := by
  obtain ⟨key, _⟩ : ∃ key, CanonicalIndexKey.encode [.ascending .null] = .ok key := ⟨_, rfl⟩
  let index : IndexSource Bool := ⟨fun _ => [0], fun row => .ok (if row then some key else none)⟩
  let before : RowTable index := ⟨[false], pairwise_singleton _ _⟩
  let next : RowTable index := ⟨[true], pairwise_singleton _ _⟩
  have hchanges : before.applyChanges [⟨some false, some true⟩] = some next := rfl
  obtain ⟨additions, hplan, hadditions⟩ := write_impact_exact (fun row => ⟨_, rfl⟩) hchanges 0
  exact ⟨key, index, before, next, hchanges, additions, hplan,
    (hadditions key).mpr ⟨[0], rfl, (some_ne_none key).symm⟩⟩

end Exact

end BriskDB.Storage
