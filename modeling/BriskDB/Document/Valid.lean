import BriskDB.Document.Error
import BriskDB.Document.Identity

/-! # What the constructors of BSON values guarantee

Regular expressions and documents are built only through constructors that check
their text. A value is valid when each of its regular expressions and documents
could have come from them.
-/

namespace BriskDB.Document

open List

/-- The search for a NUL character: UTF-8 uses the zero byte for nothing else. -/
def containsNul (text : String) : Bool := (Utf8.bytes text).contains 0

/-- The flags `i`, `l`, `m`, `s`, `u` and `x`, in the order they are stored. -/
def regexFlags : List UInt8 := [0x69, 0x6c, 0x6d, 0x73, 0x75, 0x78]

def flagText (flags : List UInt8) : String :=
  String.ofList (flags.map fun flag => Char.ofNat flag.toNat)

/-- Regular expressions keep each option once, in one order. -/
def BsonRegex.new (pattern options : String) : BsonResult BsonRegex :=
  if containsNul pattern then
    .error (invalidValue "BSON regex patterns cannot contain NUL")
  else if (Utf8.bytes options).all (regexFlags.contains ·) then
    .ok ⟨pattern, flagText (regexFlags.filter ((Utf8.bytes options).contains ·))⟩
  else .error (invalidValue "BSON regex options may contain only i, l, m, s, u, and x")

def BsonDocument.push (document : BsonDocument) (name : String) (value : BsonValue) :
    BsonResult BsonDocument :=
  if containsNul name then .error (invalidValue "BSON field names cannot contain NUL")
  else .ok (document ++ [(name, value)])

def BsonDocument.fromEntries (entries : List (String × BsonValue)) : BsonResult BsonDocument :=
  entries.foldlM (fun document entry => document.push entry.1 entry.2) []

def BsonDocument.duplicateField : BsonError :=
  .new .duplicateField "BSON document contains a duplicate field name"

def BsonDocument.getUnique (document : BsonDocument) (name : String) :
    BsonResult (Option BsonValue) :=
  match (document.filter (·.1 = name)).map (·.2) with
  | [] => .ok none
  | [value] => .ok (some value)
  | _ :: _ :: _ => .error BsonDocument.duplicateField

theorem bytes_flagText {flags : List UInt8} (h : ∀ flag ∈ flags, flag ∈ regexFlags) :
    Utf8.bytes (flagText flags) = flags := by
  have hascii : ∀ flag ∈ regexFlags, (Char.ofNat flag.toNat).utf8Size = 1 ∧
      (Char.ofNat flag.toNat).val.toUInt8 = flag := by decide +kernel
  rw [flagText, Utf8.bytes_ofList, map_map]
  · exact map_congr_left (fun flag hflag => (hascii flag (h flag hflag)).2) |>.trans
      (map_id flags)
  · grind

theorem BsonRegex.new_idem {pattern options : String} {regex : BsonRegex}
    (h : BsonRegex.new pattern options = .ok regex) :
    BsonRegex.new regex.pattern regex.options = .ok regex := by
  unfold BsonRegex.new at h
  split at h
  · cases h
  next hnul =>
    split at h
    next hoptions =>
      cases h
      have hbytes : Utf8.bytes (flagText
          (regexFlags.filter ((Utf8.bytes options).contains ·))) =
            regexFlags.filter ((Utf8.bytes options).contains ·) :=
        bytes_flagText fun flag hflag => (mem_filter.mp hflag).1
      have hall : (regexFlags.filter ((Utf8.bytes options).contains ·)).all
          (regexFlags.contains ·) = true := by
        rw [all_eq_true]
        intro flag hflag
        exact contains_iff_mem.mpr (mem_filter.mp hflag).1
      have hfilter : regexFlags.filter
          ((regexFlags.filter ((Utf8.bytes options).contains ·)).contains ·) =
            regexFlags.filter ((Utf8.bytes options).contains ·) := by
        apply filter_congr
        intro flag hflag
        rw [Bool.eq_iff_iff, contains_iff_mem, mem_filter]
        exact ⟨And.right, fun hmem => ⟨hflag, hmem⟩⟩
      grind [BsonRegex.new]
    · cases h

def BsonRegex.Built (regex : BsonRegex) : Prop :=
  ∃ pattern options, BsonRegex.new pattern options = .ok regex

theorem BsonRegex.Built.new_eq {regex : BsonRegex} (h : regex.Built) :
    BsonRegex.new regex.pattern regex.options = .ok regex := by
  obtain ⟨pattern, options, hnew⟩ := h
  exact BsonRegex.new_idem hnew

mutual

/-- Every nested document and regular expression passed its constructor's checks. -/
def BsonValue.Valid : BsonValue → Prop
  | .document entries => documentValid entries
  | .array values => arrayValid values
  | .javaScript _ (some scope) => documentValid scope
  | .regularExpression regex => regex.Built
  | _ => True

def documentValid : List (String × BsonValue) → Prop
  | [] => True
  | (name, value) :: entries => containsNul name = false ∧ value.Valid ∧ documentValid entries

def arrayValid : List BsonValue → Prop
  | [] => True
  | value :: values => value.Valid ∧ arrayValid values

end

theorem documentValid_iff {entries : List (String × BsonValue)} :
    documentValid entries ↔
      ∀ entry ∈ entries, containsNul entry.1 = false ∧ entry.2.Valid := by
  induction entries with
  | nil => simp [documentValid]
  | cons entry entries ih => simp [documentValid, ih, and_assoc]

theorem arrayValid_iff {values : List BsonValue} :
    arrayValid values ↔ ∀ value ∈ values, value.Valid := by
  induction values with
  | nil => simp [arrayValid]
  | cons value values ih => simp [arrayValid, ih]

end BriskDB.Document
