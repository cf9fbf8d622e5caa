import BriskDB.Document.SortKeyEncoder

/-! # Ordered sort bytes

The order code of a key, which is what the bounded encoder writes, decides the comparison
of keys, so the bytes are order-isomorphic to them.
-/

namespace BriskDB.Document

open OrderCode ByteCode List

theorem binaryEncodedLen_of_bounded {parts : UInt8 × List UInt8} (h : BoundedBinary parts) :
    binaryEncodedLen parts.1 parts.2 = parts.2.length + if parts.1 = 2 then 4 else 0 := by
  simp only [BoundedBinary, maxOrderedBytes] at h
  unfold binaryEncodedLen saturatingAdd
  split <;> omega

/-- Equal lengths and subtypes leave raw bytes that need no terminator. -/
theorem decides_boundedBlob (l r : UInt8 × List UInt8) (hl : BoundedBinary l)
    (hr : BoundedBinary r) : Decides (binaryCmp l r) (boundedBlob l) (boundedBlob r) := by
  have hlen := binaryEncodedLen_of_bounded hl
  have hlen' := binaryEncodedLen_of_bounded hr
  have hlt : binaryEncodedLen l.1 l.2 < 256 ^ 8 := by
    unfold binaryEncodedLen saturatingAdd
    omega
  have hlt' : binaryEncodedLen r.1 r.2 < 256 ^ 8 := by
    unfold binaryEncodedLen saturatingAdd
    omega
  unfold boundedBlob binaryCmp
  rw [← hlen, ← hlen']
  have hnumber : Decides (compare (binaryEncodedLen l.1 l.2) (binaryEncodedLen r.1 r.2))
      (Bytes.ofBe 8 (binaryEncodedLen l.1 l.2)) (Bytes.ofBe 8 (binaryEncodedLen r.1 r.2)) :=
    decides_ofBe hlt hlt' Iff.rfl Iff.rfl
  by_cases heq : compare (binaryEncodedLen l.1 l.2) (binaryEncodedLen r.1 r.2) = .eq
  · by_cases hsubtype : l.1 = r.1
    · have hlength : l.2.length = r.2.length := by
        rw [Nat.compare_eq_eq, hlen, hlen', hsubtype] at heq
        omega
      exact hnumber.append (.cons _ _ (.of_length_eq hlength))
    · have hne : compare l.1 r.1 ≠ .eq := mt Std.LawfulEqCmp.compare_eq_iff_eq.mp hsubtype
      rw [then_of_ne_eq hne]
      exact hnumber.append (.differ rfl hne [] _ _)
  · rw [then_of_ne_eq heq]
    exact hnumber.append_of_ne_eq heq _ _

def componentCmp (left right : Bool × Atom) : Ordering :=
  (compare left.1 right.1).then
    (if left.1 then (compareAtom left.2 right.2).swap else compareAtom left.2 right.2)

theorem compareComponents_eq (left right : List (Bool × Atom)) :
    compareComponents left right = left.compareLex componentCmp right := by
  induction left generalizing right with
  | nil =>
    cases right with
    | nil => rfl
    | cons component right => exact Nat.compare_eq_lt.mpr (Nat.succ_pos right.length)
  | cons component left ih =>
    cases right with
    | nil => exact Nat.compare_eq_gt.mpr (Nat.succ_pos left.length)
    | cons component' right =>
      obtain ⟨descending, atom⟩ := component
      obtain ⟨descending', atom'⟩ := component'
      rw [List.compareLex_cons_cons, ← ih]
      simp only [compareComponents, componentCmp]
      cases descending <;> cases descending' <;> cases compareAtom atom atom' <;> rfl

theorem compare_two_rankByte {value : BsonValue} (hne : value.typeRank ≠ 0) :
    compare 2 (rankByte value.typeRank) = .lt := by
  have hle := typeRank_le value
  unfold rankByte
  rw [if_neg hne]
  exact (compare_ofNat (m := 2) (by decide) (by omega)).trans (Nat.compare_eq_lt.mpr (by omega))

theorem typeRank_ne_zero {value : BsonValue} (h : value ≠ .minKey) : value.typeRank ≠ 0 := by
  rcases value with _ | _ | _ | _ | _ | _ | _ | _ | _ | _ | _ | ⟨_, _ | _⟩ | _ | _ | _ | _ | _ |
    _ <;>
    first
      | exact absurd rfl h
      | exact Nat.ne_of_beq_eq_false rfl

def Atom.word (code : BsonValue → List UInt8) : Atom → List UInt8
  | .emptyArray => [2]
  | .value bson => code bson

/-- The direction of a component, and the word of its atom turned to that direction. -/
def componentWord (code : BsonValue → List UInt8) (component : Bool × Atom) : List UInt8 :=
  (if component.1 then 1 else 0) ::
    (if component.1 then complement (component.2.word code) else component.2.word code)

section Words

variable {code : BsonValue → List UInt8}

/-- Words of values that begin with their rank and decide their order extend to atoms. -/
theorem decides_atomWord (hhead : ∀ value, ∃ tail, code value = rankByte value.typeRank :: tail)
    {left right : Atom} (hvalues : ∀ l r, left = .value l → right = .value r →
      Decides (l.cmp r) (code l) (code r)) :
    Decides (compareAtom left right) (left.word code) (right.word code) := by
  cases left with
  | emptyArray =>
    cases right with
    | emptyArray => exact .same _
    | value right =>
      obtain ⟨tail, htail⟩ := hhead right
      by_cases hmin : right = .minKey
      · subst hmin
        rw [Atom.word, Atom.word, htail]
        exact .head_gt (by decide) _ _
      · have hcmp : compareAtom .emptyArray (.value right) = .lt := by
          cases right <;> first | exact absurd rfl hmin | rfl
        rw [hcmp, Atom.word, Atom.word, htail]
        exact .head_lt (compare_two_rankByte (typeRank_ne_zero hmin)) _ _
  | value left =>
    cases right with
    | emptyArray =>
      obtain ⟨tail, htail⟩ := hhead left
      by_cases hmin : left = .minKey
      · subst hmin
        rw [Atom.word, Atom.word, htail]
        exact .head_lt (by decide) _ _
      · have hcmp : compareAtom (.value left) .emptyArray = .gt := by
          cases left <;> first | exact absurd rfl hmin | rfl
        rw [hcmp, Atom.word, Atom.word, htail]
        exact .head_gt (Std.OrientedCmp.gt_of_lt
          (compare_two_rankByte (typeRank_ne_zero hmin))) _ _
    | value right =>
      have hcmp : compareAtom (.value left) (.value right) = left.cmp right := by
        unfold compareAtom
        cases left <;> rfl
      rw [hcmp]
      exact hvalues left right rfl rfl

theorem decides_componentWord {left right : Bool × Atom}
    (hatom : Decides (compareAtom left.2 right.2) (left.2.word code) (right.2.word code)) :
    Decides (componentCmp left right) (componentWord code left) (componentWord code right) := by
  obtain ⟨descending, left⟩ := left
  obtain ⟨descending', right⟩ := right
  cases descending <;> cases descending'
  · exact hatom.prepend [0]
  · exact .head_lt rfl _ _
  · exact .head_gt rfl _ _
  · exact (decides_complement hatom).prepend [1]

end Words

theorem decides_componentCode {left right : Bool × Atom} (hleft : AtomBounded left.2)
    (hright : AtomBounded right.2) :
    Decides (componentCmp left right) (componentCode left) (componentCode right) := by
  have hcode : ∀ component, componentCode component =
      [1] ++ componentWord (BsonValue.orderedCode boundedBlob) component := by
    rintro ⟨_ | _, _ | _⟩ <;> rfl
  rw [hcode, hcode]
  refine (decides_componentWord (decides_atomWord (orderedCode_head boundedBlob) ?_)).prepend [1]
  intro l r hl hr
  rw [hl] at hleft
  rw [hr] at hright
  exact decides_orderedCode decides_boundedBlob l r hleft hright

/-- Ordered sort bytes compare like the sort keys, and they are equal exactly when
the keys compare equal. -/
theorem orderedBytes_compare {σ τ : Type} {leftHost : EncoderHost σ} {rightHost : EncoderHost τ}
    {leftState : σ} {rightState : τ} {leftMax rightMax : Nat} {left right : DocumentSortKey}
    {leftBytes rightBytes : List UInt8}
    (hleft : left.orderedBytesBounded leftHost leftState leftMax = .ok leftBytes)
    (hright : right.orderedBytesBounded rightHost rightState rightMax = .ok rightBytes) :
    compare leftBytes rightBytes = left.cmp right ∧
      (leftBytes = rightBytes ↔ left.cmp right = .eq) := by
  obtain ⟨rfl, hleftBounded⟩ := orderedBytesBounded_eq hleft
  obtain ⟨rfl, hrightBounded⟩ := orderedBytesBounded_eq hright
  have hdecides : Decides (left.cmp right)
      (orderedHeader ++ terminated 0 componentCode left.components)
      (orderedHeader ++ terminated 0 componentCode right.components) := by
    rw [DocumentSortKey.cmp, compareComponents_eq]
    refine (Decides.terminated ?_ ?_ ?_).prepend _
    · grind [decides_componentCode]
    · intro a _
      exact ⟨1, _, rfl, by decide⟩
    · intro b _
      exact ⟨1, _, rfl, by decide⟩
  exact ⟨hdecides.compare_eq, hdecides.eq_iff⟩

/-- Under a descending component a string sorts after its own extension, whose escape
byte is complemented too. -/
theorem orderedBytes_compare_descending :
    DocumentSortKey.cmp ⟨[(true, .value (.string "a")), (false, .value (.int32 1))]⟩
      ⟨[(true, .value (.string "a\x00")), (false, .emptyArray)]⟩ = .gt := by
  have h := @orderedBytes_compare Unit Unit ⟨.ok, fun state _ => some state⟩
    ⟨.ok, fun state _ => some state⟩ () () 64 64
    ⟨[(true, .value (.string "a")), (false, .value (.int32 1))]⟩
    ⟨[(true, .value (.string "a\x00")), (false, .emptyArray)]⟩
    [66, 66, 83, 79, 0, 0, 0, 1, 1, 1, 250, 158, 255, 255, 1, 0, 4, 4, 128, 0, 0, 0, 49, 0, 0, 0]
    [66, 66, 83, 79, 0, 0, 0, 1, 1, 1, 250, 158, 255, 0, 255, 255, 1, 0, 2, 0]
    (by decide +kernel) (by decide +kernel)
  rw [← h.1]
  decide

end BriskDB.Document
