import BriskDB.Lib.Charged
import BriskDB.Lib.StableSort
import BriskDB.Document.NumberDenotation
import BriskDB.Document.Update
import BriskDB.Document.ValueLaws

/-! # `$push` inserts, sorts and slices

What a push does to an array, in terms of lists and integers: the additions go in at a
place, the whole is sorted stably, a prefix or a suffix is kept. The merge sort over index
buffers, the insertion by rotation and the clamped machine integers compute exactly this,
unless a resource limit stops them.
-/

namespace BriskDB.Document.DocumentUpdater

open Charged StableSort Result List

/-- The computation is stopped by a resource limit or has such a result. -/
abbrev Meets {α : Type} (computation : Work α) (P : α → Prop) : Prop :=
  Within EngineError.Limited computation P

namespace Budget

theorem stepped_onlyLimits (budget : Budget) : budget.stepped.OnlyLimits := by
  unfold stepped
  split
  · exact .error rfl
  · exact .ok _

theorem meets_of_onlyLimits {α : Type} {computation : Work α}
    (h : ∀ budget, EngineResult.OnlyLimits (computation budget)) : Meets computation fun _ =>
    True := by
  intro budget
  cases hrun : computation budget with
  | error error => exact h budget error hrun
  | ok pair => trivial

theorem step_meets : Meets step fun _ => True :=
  meets_of_onlyLimits fun budget => .bind budget.stepped_onlyLimits fun _ => .ok _

theorem stepMany_meets (count : Nat) : Meets (stepMany count) fun _ => True := by
  unfold stepMany
  induction List.range count with
  | nil => exact .pure trivial
  | cons _ _ ih => exact step_meets.bind fun _ _ => ih

theorem charge_meets (amount : Nat) : Meets (charge amount) fun _ => True := by
  refine meets_of_onlyLimits fun budget => ?_
  unfold charge
  split
  · exact .ok _
  · exact .error rfl

theorem cloneValue_meets (value : BsonValue) : Meets (cloneValue value) (· = value) := by
  unfold cloneValue
  have hbytes := Memory.valueBytes_onlyLimits maxRetainedBytes
    (fun state : Unit => .ok state) value ()
  refine .bind (Q := fun _ => True) ?_ fun pair _ =>
    (charge_meets pair.1).bind fun _ _ => .pure rfl
  exact meets_of_onlyLimits fun _ => .bind hbytes fun _ => .ok _

theorem comparisonValue_meets (value : BsonValue) : Meets (comparisonValue value) fun _ => True :=
  meets_of_onlyLimits fun budget =>
    .bind (Memory.valueBytes_onlyLimits _ stepped_onlyLimits value budget) fun _ => .ok _

end Budget

instance : Std.TransCmp BsonValue.cmp where
  eq_swap := by
    intro left right
    rw [BsonValue.cmp_eq_compare_orderWord, BsonValue.cmp_eq_compare_orderWord]
    exact Std.OrientedCmp.eq_swap
  isLE_trans := by
    intro left middle right
    simp only [BsonValue.cmp_eq_compare_orderWord]
    exact Std.TransCmp.isLE_trans

namespace PushSort

/-- The value at a path through documents; null where there is none. -/
def fieldAt : List String → BsonValue → BsonValue
  | [], value => value
  | component :: path, .document document =>
    match BsonDocument.getFirst document component with
    | some next => fieldAt path next
    | none => .null
  | _ :: _, _ => .null

def directed (descending : Bool) (left right : BsonValue) : Ordering :=
  if descending then (left.cmp right).swap else left.cmp right

/-- The first field that differs decides. -/
def fieldsOrder : List (List String × Bool) → BsonValue → BsonValue → Ordering
  | [] => fun _ _ => .eq
  | (path, descending) :: fields =>
    compareLex (fun left right => directed descending (fieldAt path left) (fieldAt path right))
      (fieldsOrder fields)

def order : PushSort → BsonValue → BsonValue → Ordering
  | byValue descending => directed descending
  | byFields fields => fieldsOrder fields

variable (sort : PushSort)

def le (left right : BsonValue) : Bool := (sort.order left right).isLE

instance (descending : Bool) : Std.TransCmp (directed descending) where
  eq_swap := by
    intro left right
    have hswap : left.cmp right = (right.cmp left).swap := Std.OrientedCmp.eq_swap
    unfold directed
    split <;> rw [hswap]
  isLE_trans := by
    intro left middle right
    have hswap : ∀ x y : BsonValue, (x.cmp y).swap = y.cmp x := fun _ _ =>
      Std.OrientedCmp.eq_swap.symm
    unfold directed
    split
    · rw [hswap, hswap, hswap]
      exact fun hlm hmr => Std.TransCmp.isLE_trans hmr hlm
    · exact Std.TransCmp.isLE_trans

instance (fields : List (List String × Bool)) : Std.TransCmp (fieldsOrder fields) := by
  induction fields with
  | nil => exact { eq_swap := rfl, isLE_trans := fun _ _ => rfl }
  | cons field fields ih =>
    have hfirst : Std.TransCmp fun left right =>
        directed field.2 (fieldAt field.1 left) (fieldAt field.1 right) :=
      { eq_swap := Std.OrientedCmp.eq_swap, isLE_trans := Std.TransCmp.isLE_trans }
    exact inferInstanceAs (Std.TransCmp (compareLex _ (fieldsOrder fields)))

instance (sort : PushSort) : Std.TransCmp sort.order := by
  cases sort with
  | byValue descending => exact inferInstanceAs (Std.TransCmp (directed descending))
  | byFields fields => exact inferInstanceAs (Std.TransCmp (fieldsOrder fields))

theorem le_trans (a b c : BsonValue) (hab : sort.le a b = true)
    (hbc : sort.le b c = true) : sort.le a c = true := by
  unfold le at hab hbc ⊢
  exact Std.TransCmp.isLE_trans hab hbc

theorem le_total (a b : BsonValue) : (sort.le a b || sort.le b a) = true := by
  have hswap : sort.order b a = (sort.order a b).swap := Std.OrientedCmp.eq_swap
  unfold le
  rw [hswap]
  cases sort.order a b <;> rfl

theorem findField_meets (component : String) (document : BsonDocument) :
    Meets (findField component document) (· = BsonDocument.getFirst document component) := by
  induction document with
  | nil => exact .pure rfl
  | cons entry entries ih =>
    obtain ⟨field, candidate⟩ := entry
    refine Budget.step_meets.bind fun _ _ => .ite (fun hfield => ?_) fun hfield => ?_
    · exact .pure (by rw [BsonDocument.getFirst_cons, if_pos hfield])
    · rw [BsonDocument.getFirst_cons, if_neg hfield]
      exact ih

theorem fieldValue_meets (path : List String) (value : BsonValue) :
    Meets (fieldValue path value) (· = fieldAt path value) := by
  induction path generalizing value with
  | nil => exact .pure rfl
  | cons component path ih =>
    refine Budget.step_meets.bind fun _ _ => ?_
    cases value with
    | document document =>
      refine (findField_meets component document).bind fun found hfound => ?_
      subst hfound
      rw [fieldAt]
      cases BsonDocument.getFirst document component with
      | some next => exact ih next
      | none => exact .pure rfl
    | _ => exact .pure rfl

variable (left right : BsonValue)

theorem compareValues_meets (descending : Bool) :
    Meets (compareValues left right descending) (· = directed descending left right) :=
  (Budget.comparisonValue_meets left).bind fun _ _ =>
    (Budget.comparisonValue_meets right).bind fun _ _ =>
      Budget.step_meets.bind fun _ _ => .pure rfl

theorem compareFields_meets (fields : List (List String × Bool)) :
    Meets (compareFields left right fields) (· = fieldsOrder fields left right) := by
  induction fields with
  | nil => exact .pure rfl
  | cons field fields ih =>
    obtain ⟨path, descending⟩ := field
    refine (fieldValue_meets path left).bind fun first hfirst => ?_
    refine (fieldValue_meets path right).bind fun second hsecond => ?_
    refine (compareValues_meets first second descending).bind fun order horder => ?_
    subst hfirst hsecond horder
    rw [fieldsOrder, compareLex]
    refine .ite (fun hne => .pure ?_) fun heq => ?_
    · cases hcmp : directed descending (fieldAt path left) (fieldAt path right) with
      | eq => exact absurd hcmp hne
      | lt | gt => rfl
    · grind

theorem compare_meets : Meets (sort.compare left right) (· = sort.order left right) := by
  cases sort with
  | byValue descending => exact compareValues_meets left right descending
  | byFields fields => exact compareFields_meets left right fields

section Merging

variable (sort : PushSort) {values : List BsonValue} {source : List Nat}

def keyLe (sort : PushSort) (values : List BsonValue) (i j : Nat) : Bool :=
  sort.le (valueAt values i) (valueAt values j)

theorem segment_cons {left stop : Nat} (hlt : left < stop) (hle : stop ≤ source.length) :
    (source.drop left).take (stop - left) =
      source.getD left 0 :: (source.drop (left + 1)).take (stop - (left + 1)) := by
  have hlength : left < source.length := hlt.trans_le hle
  have hcount : stop - left = stop - (left + 1) + 1 := by omega
  rw [drop_eq_getElem_cons hlength, hcount, take_succ_cons,
    getD_eq_getElem _ _ hlength]

theorem takesLeft_meets (middle stop left right : Nat) :
    Meets (takesLeft sort values source middle stop left right) (· =
      (decide (right = stop) || (decide (left < middle) &&
        keyLe sort values (source.getD left 0) (source.getD right 0)))) := by
  unfold takesLeft
  refine .ite (fun hstop => .pure (by simp [hstop])) fun hstop => ?_
  refine .ite (fun hleft => ?_) fun hleft => .pure (by simp [hstop, hleft])
  refine (compare_meets sort _ _).bind fun order horder => .pure ?_
  subst horder
  simp only [hstop, hleft, keyLe, le]
  cases sort.order (valueAt values (source.getD left 0)) (valueAt values (source.getD right 0)) <;>
    rfl

theorem mergeSlots_meets {middle stop : Nat} (hmiddle : middle ≤ stop)
    (hstop : stop ≤ source.length) {slots left right : Nat} (hleft : left ≤ middle)
    (hright : right ≤ stop) (hslots : slots = (middle - left) + (stop - right)) :
    Meets (mergeSlots sort values source middle stop slots left right) (· =
      ((source.drop left).take (middle - left)).merge ((source.drop right).take (stop - right))
        (keyLe sort values)) := by
  induction slots generalizing left right with
  | zero =>
    have hnone : middle - left = 0 ∧ stop - right = 0 := by omega
    exact .pure (by simp [hnone])
  | succ slots ih =>
    refine Budget.step_meets.bind fun _ _ => ?_
    refine (takesLeft_meets sort middle stop left right).bind fun takes htakes => ?_
    by_cases hend : right = stop
    · -- the right run is exhausted
      rw [if_pos (by simp [*])]
      refine (ih (by omega) hright (by omega)).bind fun rest hrest => .pure ?_
      rw [hrest, segment_cons (by omega : left < middle) (by omega), hend, Nat.sub_self]
      simp
    · have hnext := segment_cons (by omega : right < stop) hstop
      by_cases hmore : left < middle
      · have hfirst := segment_cons hmore (hmiddle.trans hstop)
        rw [hfirst, hnext, cons_merge_cons]
        rw [decide_eq_false hend, decide_eq_true hmore, Bool.false_or, Bool.true_and] at htakes
        rw [htakes]
        split
        · rw [← hnext]
          refine (ih (by omega) hright (by omega)).bind fun rest hrest => .pure ?_
          rw [hrest]
        · rw [← hfirst]
          refine (ih hleft (by omega) (by omega)).bind fun rest hrest => .pure ?_
          rw [hrest]
      · -- the left run is exhausted
        rw [if_neg (by simp [htakes, hend, hmore])]
        refine (ih hleft (by omega) (by omega)).bind fun rest hrest => .pure ?_
        rw [hrest, hnext, show middle - left = 0 by omega]
        simp

theorem mergePass_meets {width : Nat} (hwidth : 0 < width) (hword : values.length < 2 ^ 64)
    (hsource : source.length = values.length) {runs start : Nat}
    (hfuel : values.length ≤ runs + start)
    (hruns : Runs (valueAt values) sort.le width start (source.drop start)) :
    Meets (mergePass sort values source width runs start) fun result =>
      Runs (valueAt values) sort.le (width * 2) start result ∧
        result.length = values.length - start := by
  induction runs generalizing start with
  | zero => exact .pure ⟨.nil _, by simp; omega⟩
  | succ runs ih =>
    unfold mergePass
    refine .ite (fun hstart => ?_) fun hstart => .pure ⟨.nil _, by simp; omega⟩
    have hadd : ∀ place, min (saturatingAdd place width) values.length =
        min (place + width) values.length := by
      intro place
      unfold saturatingAdd
      omega
    dsimp only
    rw [hadd, hadd]
    generalize hm : min (start + width) values.length = middle
    generalize hs : min (middle + width) values.length = stop
    obtain ⟨-, -, htail⟩ := hruns.head
    obtain ⟨-, -, hafter⟩ := htail.head
    have hleft : (source.drop start).take (middle - start) =
        (source.drop start).take width := by
      rw [take_eq_take_iff, length_drop]
      omega
    have hright : (source.drop middle).take (stop - middle) =
        ((source.drop start).drop width).take width := by
      by_cases hfits : start + width ≤ values.length
      · rw [drop_drop, show start + width = middle by omega, take_eq_take_iff,
          length_drop]
        omega
      · rw [drop_of_length_le (by omega), drop_drop,
          drop_of_length_le (by omega)]
        simp
    have hnext : Runs (valueAt values) sort.le width stop (source.drop stop) := by
      by_cases hfits : start + width + width ≤ values.length
      · rw [drop_drop, drop_drop, ← Nat.add_assoc] at hafter
        grind
      · rw [drop_of_length_le (by omega)]
        exact .nil _
    refine (mergeSlots_meets sort (by omega) (by omega) (by omega) (by omega)
      (by omega : stop - start = middle - start + (stop - middle))).bind fun merged hmerged => ?_
    rw [hleft, hright] at hmerged
    refine (ih (by omega) hnext).bind fun rest hrest => .pure ?_
    have hlength : merged.length = stop - start := by
      rw [hmerged, length_merge, ← hleft, ← hright, length_take, length_take,
        length_drop, length_drop]
      omega
    refine ⟨?_, by rw [length_append, hlength, hrest.2]; omega⟩
    rw [hmerged]
    by_cases hempty : rest = []
    · rw [hempty]
      exact hruns.merge sort.le_trans sort.le_total (.nil _) (absurd rfl)
    · have hpos := length_pos_iff.mpr hempty
      refine hruns.merge sort.le_trans sort.le_total ?_ fun _ => ?_
      · rw [show start + width * 2 = stop by omega]
        exact hrest.1
      · rw [length_drop]
        omega

theorem mergePasses_meets (hword : values.length < 2 ^ 64) {passes width : Nat}
    (hwidth : 0 < width) (hsource : source.length = values.length)
    (hfuel : values.length ≤ width * 2 ^ passes)
    (hruns : Runs (valueAt values) sort.le width 0 source) :
    Meets (mergePasses sort values passes width source) fun result =>
      result.Perm (List.range values.length) ∧
        result.Pairwise (placeLe (valueAt values) sort.le · ·) := by
  induction passes generalizing width source with
  | zero => exact .pure (hsource ▸ hruns.sorted (by omega))
  | succ passes ih =>
    unfold mergePasses
    refine .ite (fun hmore => ?_) fun hdone => .pure (hsource ▸ hruns.sorted (by omega))
    refine (mergePass_meets sort hwidth hword hsource (by omega) hruns).bind fun next hnext => ?_
    rw [Nat.sub_zero] at hnext
    unfold checkedWord
    split
    · refine ih (Nat.mul_pos hwidth two_pos) hnext.2 ?_ hnext.1
      rw [Option.getD_some, Nat.mul_assoc, ← Nat.pow_succ']
      exact hfuel
    · -- the doubled width is no machine word: the pass has left one run
      obtain ⟨hperm, hsorted⟩ := hnext.1.sorted (by omega)
      refine ih (by simp; omega) hnext.2 (Nat.le_mul_of_pos_right _ (by positivity)) ?_
      rw [Option.getD_none, ← hnext.2]
      exact .of_sorted hperm hsorted

theorem takeValues_eq {places : List Nat} (hnodup : places.Nodup) {rest : List BsonValue}
    (hrest : ∀ place ∈ places, valueAt rest place = valueAt values place) :
    takeValues places rest = places.map (valueAt values) := by
  induction places generalizing rest with
  | nil => rfl
  | cons place places ih =>
    obtain ⟨hfresh, hnodup⟩ := nodup_cons.mp hnodup
    rw [takeValues, map_cons, hrest place mem_cons_self]
    congr 1
    apply ih hnodup
    intro other hother
    grind [valueAt]

theorem apply_meets (hword : values.length < 2 ^ 64) :
    Meets (sort.apply values) (· = values.mergeSort sort.le) := by
  unfold apply
  refine .ite (fun hshort => .pure ?_) fun hlong => ?_
  · match values, hshort with
    | [], _ => simp
    | [value], _ => simp
  · refine (Budget.charge_meets _).bind fun _ _ => (Budget.stepMany_meets _).bind fun _ _ => ?_
    have hruns : Runs (valueAt values) sort.le 1 0 (List.range values.length) :=
      range_eq_range' ▸ .one 0 values.length
    refine (mergePasses_meets sort hword Nat.one_pos length_range ?_ hruns).bind
      fun source hsource => (Budget.stepMany_meets _).bind fun _ _ => .pure ?_
    · rw [Nat.one_mul]
      exact Nat.lt_two_pow_self.le
    · obtain ⟨hperm, hsorted⟩ := hsource
      rw [takeValues_eq (hperm.nodup_iff.mpr nodup_range) fun _ _ => rfl]
      exact map_eq_mergeSort sort.le_trans sort.le_total hperm hsorted

end Merging

end PushSort

def numberOf : BsonValue → Option BsonNumber
  | .int32 value => some (.int32 value)
  | .int64 value => some (.int64 value)
  | .double value => some (.double value)
  | .decimal128 value => some (.decimal128 ⟨value.bid.toArray, value.length_eq⟩)
  | _ => none

theorem canonicalNumber_eq_map (value : BsonValue) :
    value.canonicalNumber = (numberOf value).map BsonNumber.canonical := by
  cases value <;> rfl

/-- The value is a number in one of the four formats and denotes exactly the integer. -/
def DenotesInteger (value : BsonValue) (n : Int) : Prop :=
  ∃ number, numberOf value = some number ∧ number.denotes = NumberValue.rational n

theorem checkedWord_eq_some {value word : Nat} :
    checkedWord value = some word ↔ value < 2 ^ 64 ∧ value = word := by
  unfold checkedWord
  simp

theorem checked_product {coefficient two five : Nat}
    (hzero : coefficient = 0 → two = 0 ∧ five = 0) :
    (do let coefficient ← checkedWord coefficient
        let power ← checkedWord (2 ^ two)
        let value ← checkedWord (coefficient * power)
        let power ← checkedWord (5 ^ five)
        checkedWord (value * power) : Option Nat).getD (2 ^ 64 - 1) =
      min (coefficient * 2 ^ two * 5 ^ five) (2 ^ 64 - 1) := by
  have htwo : 0 < 2 ^ two := Nat.two_pow_pos two
  have hfive : 0 < 5 ^ five := Nat.pow_pos (by decide)
  have hfirst : coefficient * 2 ^ two ≤ coefficient * 2 ^ two * 5 ^ five :=
    Nat.le_mul_of_pos_right _ hfive
  have hcoefficient : coefficient ≤ coefficient * 2 ^ two := Nat.le_mul_of_pos_right _ htwo
  have hpowers : coefficient * 2 ^ two * 5 ^ five < 2 ^ 64 → 2 ^ two < 2 ^ 64 ∧
    5 ^ five < 2 ^ 64 := by
    intro hlt
    rcases Nat.eq_zero_or_pos coefficient with h | h
    · simp [*]
    · have := Nat.le_mul_of_pos_left (2 ^ two) h
      have := Nat.le_mul_of_pos_left (5 ^ five) (Nat.mul_pos h htwo)
      omega
  by_cases hlt : coefficient * 2 ^ two * 5 ^ five < 2 ^ 64
  · obtain ⟨htwoLt, hfiveLt⟩ := hpowers hlt
    rw [Nat.min_eq_left (by omega)]
    simp only [checkedWord, hlt, htwoLt, hfiveLt, show coefficient < 2 ^ 64 by omega,
      show coefficient * 2 ^ two < 2 ^ 64 by omega, if_true, Option.bind_eq_bind, Option.bind_some,
      Option.getD_some]
  · rw [Nat.min_eq_right (by omega)]
    refine (congrArg (Option.getD · _) ?_).trans Option.getD_none
    rw [Option.eq_none_iff_forall_ne_some]
    intro product hproduct
    simp only [Option.bind_eq_bind, Option.bind_eq_some_iff, checkedWord_eq_some] at hproduct
    grind

variable {value : BsonValue} {retained : Nat}

/-- A compiled integer is the denoted one, its magnitude clamped to a machine word. -/
theorem PushInteger.of_compile {integer : PushInteger}
    (h : PushInteger.compile value = .ok integer) :
    ∃ n : Int, DenotesInteger value n ∧ integer.negative = decide (n < 0) ∧
      integer.magnitude = min n.natAbs (2 ^ 64 - 1) := by
  unfold PushInteger.compile at h
  split at h
  next number hnumber =>
    split at h
    · cases h
    next hexponents =>
      cases h
      push Not at hexponents
      obtain ⟨a, ha⟩ := Int.eq_ofNat_of_zero_le hexponents.1
      obtain ⟨b, hb⟩ := Int.eq_ofNat_of_zero_le hexponents.2
      rw [canonicalNumber_eq_map] at hnumber
      obtain ⟨bson, hbson, hcanonical⟩ := Option.map_eq_some_iff.mp hnumber
      have hmagnitude : number.magnitude =
          ((number.coefficient * 2 ^ a * 5 ^ b : Nat) : ℚ) := by
        rw [CanonicalFinite.magnitude, ha, hb]
        push_cast
        simp
      have hchecked := @checked_product number.coefficient a b (by
        intro hzero
        obtain ⟨-, htwo, hfive⟩ := CanonicalFinite.fields_of_zero hzero
        omega)
      have hsign : number.negative = true → 0 < number.coefficient * 2 ^ a * 5 ^ b := by
        intro hnegative
        have hne : number.coefficient ≠ 0 := by
          intro hzero
          rw [(CanonicalFinite.fields_of_zero hzero).1] at hnegative
          cases hnegative
        positivity
      generalize number.coefficient * 2 ^ a * 5 ^ b = m at *
      refine ⟨if number.negative then -m else m, ⟨bson, hbson, ?_⟩, ?_, ?_⟩
      · rw [← denotes_canonical, hcanonical, CanonicalNumber.denotes, CanonicalFinite.value,
          hmagnitude]
        split <;> simp
      · cases hnegative : number.negative with
        | false => simp
        | true => simpa using hsign hnegative
      · rw [ha, hb, Int.toNat_natCast, Int.toNat_natCast, hchecked]
        split <;> simp
  · cases h

structure PushSpec where
  additions : List BsonValue
  position : Option Int
  sort : Option PushSort
  slice : Option Int

namespace PushSpec

/-- The index at which the additions start: by default the end, and never outside the array. -/
def place (position : Option Int) (length : Nat) : Nat :=
  match position with
  | none => length
  | some n => if 0 ≤ n then min n.toNat length else length - n.natAbs

theorem place_le (position : Option Int) (length : Nat) : place position length ≤ length := by
  unfold place
  grind

/-- A nonnegative slice keeps the first elements, a negative one the last. -/
def sliced (slice : Option Int) (values : List BsonValue) : List BsonValue :=
  match slice with
  | none => values
  | some k => if 0 ≤ k then values.take k.toNat else values.drop (values.length - k.natAbs)

def sorted (sort : Option PushSort) (values : List BsonValue) : List BsonValue :=
  sort.elim values fun sort => values.mergeSort sort.le

def result (spec : PushSpec) (values : List BsonValue) : List BsonValue :=
  let place := place spec.position values.length
  sliced spec.slice
    (sorted spec.sort (values.take place ++ spec.additions ++ values.drop place))

end PushSpec

def SortField (entry : String × BsonValue) (field : List String × Bool) : Prop :=
  field.1 = splitPath entry.1 ∧ entry.2.eq (.int32 (if field.2 then -1 else 1)) = true

/-- One or minus one, in any number format, for the whole value or for each named field. -/
inductive SortOperand : BsonValue → PushSort → Prop
  | byValue {value : BsonValue} {descending : Bool}
      (h : value.eq (.int32 (if descending then -1 else 1)) = true) :
      SortOperand value (.byValue descending)
  | byFields {entries : BsonDocument} {fields : List (List String × Bool)}
      (h : List.Forall₂ SortField entries fields) :
      SortOperand (.document entries) (.byFields fields)

/-- The operand of a push is read as modifiers if one of its fields starts with a dollar sign. -/
inductive PushOperand : BsonValue → PushSpec → Prop
  | modifiers {entries : BsonDocument} {spec : PushSpec}
      (hdollar : entries.any (DocumentSorter.startsWithDollar ·.1) = true)
      (heach : entries.getFirst "$each" = some (.array spec.additions))
      (hposition : Option.Rel DenotesInteger (entries.getFirst "$position") spec.position)
      (hsort : Option.Rel SortOperand (entries.getFirst "$sort") spec.sort)
      (hslice : Option.Rel DenotesInteger (entries.getFirst "$slice") spec.slice) :
      PushOperand (.document entries) spec
  | addition {value : BsonValue}
      (hplain : ∀ entries, value = .document entries →
        entries.any (DocumentSorter.startsWithDollar ·.1) = false) :
      PushOperand value ⟨[value], none, none, none⟩

def Clamped (integer : PushInteger) (n : Int) : Prop :=
  integer.negative = decide (n < 0) ∧ integer.magnitude = min n.natAbs (2 ^ 64 - 1)

theorem position_eq_place {position : Option PushInteger} {n : Option Int}
    (h : Option.Rel Clamped position n) {length : Nat} (hword : length < 2 ^ 64) :
    position.elim length (fun integer => integer.position length) = PushSpec.place n length := by
  cases h with
  | none => rfl
  | @some integer n hclamped =>
    obtain ⟨hnegative, hmagnitude⟩ := hclamped
    rw [Option.elim_some, PushInteger.position, PushSpec.place, hnegative, hmagnitude]
    grind

theorem applySlice_meets {push : Push} {k : Option Int} (h : Option.Rel Clamped push.slice k)
    {values : List BsonValue} (hword : values.length < 2 ^ 64) :
    Meets (push.applySlice values) (· = PushSpec.sliced k values) := by
  unfold Push.applySlice
  generalize push.slice = slice at h
  cases h with
  | none => exact .pure rfl
  | @some integer k hclamped =>
    obtain ⟨hnegative, hmagnitude⟩ := hclamped
    refine (Budget.stepMany_meets _).bind fun _ _ => .pure ?_
    rw [PushSpec.sliced, hnegative, hmagnitude]
    by_cases hk : 0 ≤ k
    · grind
    · grind

theorem rotateRight_append (front back : List BsonValue) :
    (front ++ back).rotateRight back.length = back ++ front := by
  unfold List.rotateRight
  dsimp only
  rw [length_append]
  split
  next hshort =>
    by_cases hfront : front.length = 0
    · simp [length_eq_zero_iff.mp hfront]
    · have hback : back = [] := length_eq_zero_iff.mp (by omega)
      simp [hback]
  next hlong =>
    by_cases hfront : front.length = 0
    · simp [length_eq_zero_iff.mp hfront]
    · rw [Nat.mod_eq_of_lt (by omega), Nat.add_sub_cancel, drop_left, take_left]

theorem of_direction {descending : Bool} (h : PushSort.direction value = some descending) :
    value.eq (.int32 (if descending then -1 else 1)) = true := by
  unfold PushSort.direction at h
  split at h
  next hone =>
    cases h
    exact hone
  next =>
    grind

theorem of_foldlM_compileField {done entries : BsonDocument}
    {state result : List (List String × Bool) × Nat} (hdone : List.Forall₂ SortField done state.1)
    (h : entries.foldlM PushSort.compileField state = .ok result) :
    List.Forall₂ SortField (done ++ entries) result.1 := by
  induction entries generalizing done state with
  | nil =>
    cases h
    rwa [append_nil]
  | cons entry entries ih =>
    rw [foldlM_cons] at h
    obtain ⟨next, hnext, h⟩ := bind_eq_ok.mp h
    unfold PushSort.compileField at hnext
    dsimp only at hnext
    split at hnext
    · cases hnext
    next descending hdirection =>
      obtain ⟨-, hnext⟩ := ite_throw_eq_ok.mp hnext
      obtain ⟨retained, -, hnext⟩ := bind_eq_ok.mp hnext
      cases hnext
      have hone : List.Forall₂ SortField [entry] [(splitPath entry.1, descending)] :=
        .cons ⟨rfl, of_direction hdirection⟩ .nil
      have hrest := ih (rel_append hdone hone) h
      rwa [append_assoc] at hrest

theorem SortOperand.of_compile {compiled : PushSort × Nat}
    (h : PushSort.compile value retained = .ok compiled) : SortOperand value compiled.1 := by
  unfold PushSort.compile at h
  split at h
  next descending hdirection =>
    cases h
    exact .byValue (of_direction hdirection)
  next fields hdirection =>
    obtain ⟨-, h⟩ := ite_throw_eq_ok.mp h
    obtain ⟨-, h⟩ := ite_throw_eq_ok.mp h
    obtain ⟨⟨compiled, rest⟩, hfields, h⟩ := bind_eq_ok.mp h
    cases h
    have hnil : List.Forall₂ SortField [] ([], retained).1 := .nil
    exact .byFields (of_foldlM_compileField hnil hfields)
  · cases h

theorem rel_of_compileOption {β : Type} {value : Option BsonValue}
    {compile : BsonValue → EngineResult β} {result : Option β}
    (h : Push.compileOption value compile = .ok result) :
    Option.Rel (fun operand compiled => compile operand = .ok compiled) value result := by
  cases value with
  | none =>
    cases h
    exact .none
  | some operand =>
    obtain ⟨compiled, hcompiled, h⟩ := bind_eq_ok.mp h
    cases h
    exact .some hcompiled

theorem integer_of_compileOption {value : Option BsonValue} {result : Option PushInteger}
    (h : Push.compileOption value PushInteger.compile = .ok result) :
    ∃ n : Option Int, Option.Rel DenotesInteger value n ∧ Option.Rel Clamped result n := by
  cases rel_of_compileOption h with
  | none => exact ⟨none, .none, .none⟩
  | some hcompiled =>
    obtain ⟨n, hdenotes, hclamped⟩ := PushInteger.of_compile hcompiled
    exact ⟨some n, .some hdenotes, .some hclamped⟩

theorem sort_of_compileOption {value : Option BsonValue} {result : Option (PushSort × Nat)}
    (h : Push.compileOption value (PushSort.compile · retained) = .ok result) :
    Option.Rel SortOperand value (result.map (·.1)) := by
  cases rel_of_compileOption h with
  | none => exact .none
  | some hcompiled => exact .some (.of_compile hcompiled)

theorem PushOperand.of_compile {operand : BsonValue} {compiled : Push × Nat}
    (h : Push.compile operand retained = .ok compiled) :
    ∃ spec, PushOperand operand spec ∧ compiled.1.additions = spec.additions ∧
      Option.Rel Clamped compiled.1.position spec.position ∧ compiled.1.sort = spec.sort ∧
      Option.Rel Clamped compiled.1.slice spec.slice := by
  unfold Push.compile at h
  split at h
  next entries =>
    split at h
    next hdollar =>
      obtain ⟨-, h⟩ := ite_throw_eq_ok.mp h
      split at h
      next additions heach =>
        obtain ⟨position, hposition, h⟩ := bind_eq_ok.mp h
        obtain ⟨slice, hslice, h⟩ := bind_eq_ok.mp h
        obtain ⟨sort, hsort, h⟩ := bind_eq_ok.mp h
        cases h
        obtain ⟨n, hdenotes, hclamped⟩ := integer_of_compileOption hposition
        obtain ⟨k, hdenotes', hclamped'⟩ := integer_of_compileOption hslice
        exact ⟨⟨additions, n, sort.map (·.1), k⟩, .modifiers hdollar heach hdenotes
          (sort_of_compileOption hsort) hdenotes', rfl, hclamped, rfl, hclamped'⟩
      · cases h
    next hplain =>
      cases h
      refine ⟨_, .addition ?_, rfl, .none, rfl, .none⟩
      grind
  next hvalue =>
    cases h
    exact ⟨_, .addition fun entries heq => absurd heq (hvalue entries), rfl, .none, rfl, .none⟩

/-- A compiled push inserts its additions, sorts stably and keeps a slice, as its operand
says; nothing but a resource limit stops it. -/
theorem push_inserts_sorts_slices {operand : BsonValue} {retained : Nat} {compiled : Push × Nat}
    (hcompile : Push.compile operand retained = .ok compiled) :
    ∃ spec, PushOperand operand spec ∧
      ∀ values : List BsonValue, values.length + spec.additions.length < 2 ^ 64 →
        Meets (compiled.1.applyArray values) (· = spec.result values) := by
  obtain ⟨spec, hoperand, hadditions, hposition, hsort, hslice⟩ := PushOperand.of_compile hcompile
  refine ⟨spec, hoperand, fun values hword => ?_⟩
  unfold Push.applyArray
  dsimp only
  rw [position_eq_place hposition (by omega), hadditions, hsort]
  generalize hp : PushSpec.place spec.position values.length = place
  have hle : place ≤ values.length := by
    rw [← hp]
    exact PushSpec.place_le _ _
  refine (Budget.charge_meets _).bind fun _ _ => ?_
  refine (Within.mapM fun value _ => Budget.step_meets.bind fun _ _ =>
    Budget.cloneValue_meets value).bind fun added hadded => ?_
  rw [map_id'] at hadded
  subst hadded
  refine (Budget.stepMany_meets _).bind fun _ _ => ?_
  rw [take_append_of_le_length hle, drop_append_of_le_length hle, rotateRight_append,
    ← append_assoc]
  have hwhole : (values.take place ++ spec.additions ++ values.drop place).length < 2 ^ 64 := by
    simp only [length_append, length_take, length_drop]
    omega
  have hresult : spec.result values = PushSpec.sliced spec.slice (PushSpec.sorted spec.sort
      (values.take place ++ spec.additions ++ values.drop place)) := by
    rw [PushSpec.result, hp]
  rw [hresult]
  generalize spec.sort = sort
  cases sort with
  | none => exact applySlice_meets hslice hwhole
  | some sort =>
    refine (PushSort.apply_meets sort hwhole).bind fun sorted hsorted => ?_
    rw [PushSpec.sorted, Option.elim_some, ← hsorted]
    grind [applySlice_meets, length_mergeSort]

/-- Two additions before the last element, an ascending sort and a slice of three. -/
def sortedPush : BsonValue :=
  .document [("$each", .array [.int32 3, .int32 1]), ("$position", .double ⟨0xbff0000000000000⟩),
    ("$sort", .int32 1), ("$slice", .int64 3)]

theorem push_inserts_sorts_slices_three :
    ∃ compiled spec, Push.compile sortedPush 0 = .ok (compiled, 0) ∧ PushOperand sortedPush spec ∧
      ∃ values budget, compiled.applyArray [.int32 5, .int32 2] ⟨0, 0, 0⟩ = .ok (values, budget) ∧
        arrayEq values [.int32 1, .int32 2, .int32 3] ∧
        values = spec.result [.int32 5, .int32 2] := by
  have hcompile : Push.compile sortedPush 0 = .ok (⟨[.int32 3, .int32 1], some ⟨true, 1⟩,
      some (.byValue false), some ⟨false, 3⟩⟩, 0) := by with_unfolding_all rfl
  have hrun : ((⟨[.int32 3, .int32 1], some ⟨true, 1⟩, some (.byValue false),
      some ⟨false, 3⟩⟩ : Push).applyArray [.int32 5, .int32 2] ⟨0, 0, 0⟩).toOption.map
        (fun pair => arrayEq pair.1 [.int32 1, .int32 2, .int32 3]) = some true := by
    decide +kernel
  obtain ⟨⟨values, budget⟩, hsome, hvalues⟩ := Option.map_eq_some_iff.mp hrun
  obtain ⟨_, hresult⟩ := exists_of_toOption (Option.isSome_of_mem hsome)
  rw [hresult] at hsome
  cases hsome
  obtain ⟨spec, hspec, hmeets⟩ := push_inserts_sorts_slices hcompile
  have hadditions : spec.additions = [.int32 3, .int32 1] := by
    unfold sortedPush at hspec
    cases hspec with
    | modifiers _ heach => exact (BsonValue.array.inj (Option.some.inj heach)).symm
    | addition hplain => exact absurd (hplain _ rfl) (by decide)
  exact ⟨_, spec, hcompile, hspec, values, budget, hresult, hvalues,
    (hmeets [.int32 5, .int32 2] (by simp [hadditions])).ensures _ _ _ hresult⟩

end BriskDB.Document.DocumentUpdater
