import BriskDB.Document.Update

/-! # Edits at a path

What it means to change a value at one path: the steps down to the path are kept, a
missing field is appended, a missing array element extends the array, and the value at
the path itself may become anything or disappear. Every other path keeps its value, and
every document off the path keeps its fields in their order.
-/

namespace BriskDB.Document

open DocumentUpdater List

/-- The array element that a path component names. -/
def arrayIndex (component : String) : Option Nat :=
  if isArrayComponent component then parseIndex component else none

def BsonValue.valueAt : List String → BsonValue → Option BsonValue
  | [], value => some value
  | component :: path, .document entries =>
    (BsonDocument.getFirst entries component).bind (valueAt path)
  | component :: path, .array values =>
    ((arrayIndex component).bind (values[·]?)).bind (valueAt path)
  | _ :: _, _ => none

def BsonDocument.valueAt (document : BsonDocument) (path : List String) : Option BsonValue :=
  BsonValue.valueAt path (.document document)

/-- The digits of a number, the last one first. -/
def indexDigits (component : String) : List Nat :=
  if component = "0" then []
  else (component.toList.map fun digit => digit.toNat - '0'.toNat).reverse

theorem foldl_digits (chars : List Char) (start : Nat) :
    chars.foldl (fun value digit => value * 10 + (digit.toNat - '0'.toNat)) start =
      start * 10 ^ chars.length +
        Nat.ofDigits 10 (chars.map fun digit => digit.toNat - '0'.toNat).reverse := by
  induction chars generalizing start with
  | nil => simp
  | cons digit chars ih =>
    rw [foldl_cons, ih, map_cons, reverse_cons, Nat.ofDigits_append,
      length_reverse, length_map, Nat.ofDigits_singleton, length_cons]
    ring

theorem digit_bounds {digit : Char} (h : digit.isDigit = true) :
    48 ≤ digit.toNat ∧ digit.toNat ≤ 57 := by
  simp only [Char.isDigit, ge_iff_le, Bool.and_eq_true, decide_eq_true_eq] at h
  exact ⟨UInt32.le_iff_toNat_le.mp h.1, UInt32.le_iff_toNat_le.mp h.2⟩

theorem char_eq_of_digit {x y : Char} (hx : x.isDigit = true) (hy : y.isDigit = true)
    (h : x.toNat - '0'.toNat = y.toNat - '0'.toNat) : x = y := by
  have hzero : '0'.toNat = 48 := rfl
  have hxb := digit_bounds hx
  have hyb := digit_bounds hy
  have htoNat : x.toNat = y.toNat := by omega
  exact Char.ext (UInt32.toNat_inj.mp htoNat)

theorem eq_of_map_digits {left right : List Char} (hleft : ∀ c ∈ left, c.isDigit = true)
    (hright : ∀ c ∈ right, c.isDigit = true) (h : (left.map fun digit => digit.toNat - '0'.toNat) =
      right.map fun digit => digit.toNat - '0'.toNat) : left = right := by
  induction left generalizing right with
  | nil => exact (map_eq_nil_iff.mp h.symm).symm
  | cons c left ih =>
    cases right with
    | nil => cases h
    | cons d right =>
      rw [map_cons, map_cons, List.cons.injEq] at h
      rw [forall_mem_cons] at hleft hright
      rw [char_eq_of_digit hleft.1 hright.1 h.1, ih hleft.2 hright.2 h.2]

variable {component name : String} {index : Nat} {path place : List String} {value next : BsonValue}

theorem all_isDigit_of_isArrayComponent
    (h : isArrayComponent component = true) : ∀ c ∈ component.toList, c.isDigit = true := by
  simp only [isArrayComponent, Bool.or_eq_true, decide_eq_true_eq, Bool.and_eq_true,
    all_eq_true] at h
  rcases h with rfl | ⟨-, h⟩
  · simp
  · exact h

theorem digits_of_arrayIndex
    (h : arrayIndex component = some index) : Nat.digits 10 index = indexDigits component := by
  simp only [arrayIndex, Option.ite_none_right_eq_some] at h
  obtain ⟨hcomponent, hparse⟩ := h
  have hdigits := all_isDigit_of_isArrayComponent hcomponent
  simp only [parseIndex, DocumentSorter.parseUsize, Option.ite_none_left_eq_some,
    Option.ite_none_right_eq_some, Option.some.injEq] at hparse
  obtain ⟨hempty, -, hvalue⟩ := hparse
  rw [foldl_digits, Nat.zero_mul, Nat.zero_add] at hvalue
  rw [← hvalue]
  by_cases hzero : component = "0"
  · subst hzero
    simp [indexDigits]
  · rw [indexDigits, if_neg hzero]
    apply Nat.digits_ofDigits 10 (by norm_num)
    · intro d hd
      rw [mem_reverse, mem_map] at hd
      obtain ⟨c, hc, rfl⟩ := hd
      have hbounds := digit_bounds (hdigits c hc)
      grind
    · -- a component other than zero does not begin with zero
      intro hne
      simp only [isArrayComponent, hzero, decide_false, Bool.false_or, Bool.and_eq_true,
        decide_eq_true_eq] at hcomponent
      rw [getLast_reverse, head_map]
      intro hhead
      have hchars : component.toList ≠ [] := by simpa using hne
      apply hcomponent.1
      rw [head?_eq_some_head hchars]
      exact congrArg some (char_eq_of_digit (hdigits _ (head_mem hchars)) rfl hhead)

theorem arrayIndex_injective {left right : String}
    (hleft : arrayIndex left = some index) (hright : arrayIndex right = some index) :
    left = right := by
  have hdigits : ∀ {component : String}, arrayIndex component = some index →
      ∀ c ∈ component.toList, c.isDigit = true := by
    intro component h
    simp only [arrayIndex, Option.ite_none_right_eq_some] at h
    exact all_isDigit_of_isArrayComponent h.1
  have hne : ∀ {component : String}, arrayIndex component = some index →
      component ≠ "0" → indexDigits component ≠ [] := by
    intro component h hzero hnil
    rw [indexDigits, if_neg hzero, reverse_eq_nil_iff, map_eq_nil_iff] at hnil
    have hempty : component = "" := String.toList_inj.mp hnil
    subst hempty
    revert h
    simp [arrayIndex, parseIndex]
  have hsame := (digits_of_arrayIndex hleft).symm.trans (digits_of_arrayIndex hright)
  by_cases hl : left = "0"
  · by_cases hr : right = "0"
    · rw [hl, hr]
    · refine absurd ?_ (hne hright hr)
      rw [← hsame, indexDigits, if_pos hl]
  · by_cases hr : right = "0"
    · refine absurd ?_ (hne hleft hl)
      rw [hsame, indexDigits, if_pos hr]
    · rw [indexDigits, indexDigits, if_neg hl, if_neg hr, reverse_inj] at hsame
      exact String.toList_inj.mp (eq_of_map_digits (hdigits hleft) (hdigits hright) hsame)

inductive Edits : List String → BsonValue → BsonValue → Prop
  | keep (path : List String) (value : BsonValue) : Edits path value value
  | whole (value next : BsonValue) : Edits [] value next
  | field {name : String} {path : List String} {before after : BsonDocument}
      {value next : BsonValue} (hfirst : name ∉ before.names) (hedit : Edits path value next) :
      Edits (name :: path) (.document (before ++ (name, value) :: after))
        (.document (before ++ (name, next) :: after))
  | remove {name : String} {before after : BsonDocument} (hfirst : name ∉ before.names)
      (value : BsonValue) :
      Edits [name] (.document (before ++ (name, value) :: after)) (.document (before ++ after))
  | append {name : String} {document : BsonDocument} (hnew : name ∉ document.names)
      (path : List String) (next : BsonValue) :
      Edits (name :: path) (.document document) (.document (document ++ [(name, next)]))
  | element {component : String} {path : List String} {values : List BsonValue} {index : Nat}
      {value next : BsonValue} (hindex : arrayIndex component = some index)
      (hvalue : values[index]? = some value) (hedit : Edits path value next) :
      Edits (component :: path) (.array values) (.array (values.set index next))
  | extend {component : String} {values added : List BsonValue} (path : List String)
      (hindex : arrayIndex component = some (values ++ added).length) (next : BsonValue) :
      Edits (component :: path) (.array values) (.array (values ++ added ++ [next]))

def Incomparable (left right : List String) : Prop := ¬ left <+: right ∧ ¬ right <+: left

/-- What is at a place after an edit: the same, or the edit of the path that is left. -/
def Edited (path place : List String) (found : BsonValue) (after : Option BsonValue) : Prop :=
  after = some found ∨
    ∃ rest target, path = place ++ rest ∧ Edits rest found target ∧ after = some target

variable {found : BsonValue}

theorem Edited.cons {after : Option BsonValue} (h : Edited path place found after) :
    Edited (name :: path) (name :: place) found after := by
  obtain h | ⟨rest, target, rfl, h⟩ := h
  · exact .inl h
  · exact .inr ⟨rest, target, cons_append.symm, h⟩

theorem Edits.edited (hedit : Edits path value next) (hplace : ¬ path <+: place)
    (hfound : value.valueAt place = some found) : Edited path place found (next.valueAt place) := by
  induction place generalizing path value next with
  | nil =>
    cases hfound
    exact .inr ⟨path, next, rfl, hedit, rfl⟩
  | cons component place ih =>
    cases hedit with
    | keep => exact .inl hfound
    | whole => exact absurd nil_prefix hplace
    | @field name path before after value next hfirst hedit =>
      by_cases hname : component = name
      · subst hname
        simp only [BsonValue.valueAt, BsonDocument.getFirst_middle hfirst,
          Option.bind_some] at hfound ⊢
        rw [cons_prefix_cons, not_and] at hplace
        exact (ih hedit (hplace rfl) hfound).cons
      · simp only [BsonValue.valueAt, BsonDocument.getFirst_middle_of_ne hname] at hfound ⊢
        exact .inl hfound
    | @remove name before after hfirst value =>
      have hname : component ≠ name := by
        rintro rfl
        exact hplace (cons_prefix_cons.mpr ⟨rfl, nil_prefix⟩)
      simp only [BsonValue.valueAt, BsonDocument.getFirst_middle_of_ne hname] at hfound ⊢
      exact .inl hfound
    | append hnew path next =>
      simp only [BsonValue.valueAt, Option.bind_eq_some_iff] at hfound
      obtain ⟨field, hfield, hfound⟩ := hfound
      refine .inl ?_
      rw [BsonValue.valueAt, BsonDocument.getFirst_append, hfield, Option.some_or,
        Option.bind_some, hfound]
    | @element _ path values index value next hindex hvalue hedit =>
      simp only [BsonValue.valueAt, Option.bind_eq_some_iff] at hfound
      obtain ⟨member, ⟨position, hposition, hmember⟩, hfound⟩ := hfound
      by_cases hsame : index = position
      · subst hsame
        -- one element has one component, so the rest of the path is off the edit
        obtain rfl := arrayIndex_injective hindex hposition
        obtain rfl := Option.some.inj (hvalue.symm.trans hmember)
        have hlt : index < values.length := (List.getElem?_eq_some_iff.mp hvalue).1
        rw [cons_prefix_cons, not_and] at hplace
        simpa [BsonValue.valueAt, hindex, hlt] using (ih hedit (hplace rfl) hfound).cons
      · refine .inl ?_
        simp [*, BsonValue.valueAt]
    | extend path hindex next =>
      simp only [BsonValue.valueAt, Option.bind_eq_some_iff] at hfound
      obtain ⟨member, ⟨position, hposition, hmember⟩, hfound⟩ := hfound
      have hlt : position < _ := (List.getElem?_eq_some_iff.mp hmember).1
      refine .inl ?_
      rw [BsonValue.valueAt, hposition, Option.bind_some, append_assoc,
        getElem?_append_left hlt, hmember, Option.bind_some, hfound]

theorem Edits.valueAt_eq (hedit : Edits path value next) {other : List String}
    (hother : Incomparable path other) (hfound : value.valueAt other = some found) :
    next.valueAt other = some found := by
  obtain h | ⟨rest, target, rfl, -⟩ := hedit.edited hother.1 hfound
  · exact h
  · exact absurd (prefix_append other rest) hother.2

/-- What an edit at `path` can do to the names of the document at `place`. -/
inductive NamesStep (path place : List String) (names : List String) : List String → Prop
  | same : NamesStep path place names names
  | erase (name : String) (hpath : path = place ++ [name]) :
      NamesStep path place names (names.erase name)
  | append (name : String) (hpath : place ++ [name] <+: path) (hnew : name ∉ names) :
      NamesStep path place names (names ++ [name])

/-- A document off the edit is still a document, and its names take one step. -/
theorem Edits.names_step (hedit : Edits path value next) (hplace : ¬ path <+: place)
    {document : BsonDocument} (hdocument : value.valueAt place = some (.document document)) :
    ∃ document' : BsonDocument, next.valueAt place = some (.document document') ∧
      NamesStep path place document.names document'.names := by
  obtain hsame | ⟨rest, target, rfl, hedit, htarget⟩ := hedit.edited hplace hdocument
  · exact ⟨document, hsame, .same⟩
  rw [htarget]
  cases hedit with
  | keep => exact ⟨document, rfl, .same⟩
  | whole => exact absurd (by simp) hplace
  | @field name path before after value next hfirst hedit =>
    exact ⟨before ++ (name, next) :: after, rfl, by simpa using .same⟩
  | @remove name before after hfirst value =>
    refine ⟨before ++ after, rfl, ?_⟩
    have hnames : (before ++ after).names =
        (before ++ (name, value) :: after).names.erase name := by
      rw [BsonDocument.names_append, BsonDocument.names_append, BsonDocument.names_cons,
        erase_append_right _ hfirst, erase_cons_head]
    rw [hnames]
    exact .erase name rfl
  | @append name _ hnew path next =>
    refine ⟨document ++ [(name, next)], rfl, ?_⟩
    rw [BsonDocument.names_append]
    refine .append name ((prefix_append_right_inj place).mpr ?_) hnew
    exact cons_prefix_cons.mpr ⟨rfl, nil_prefix⟩

end BriskDB.Document
