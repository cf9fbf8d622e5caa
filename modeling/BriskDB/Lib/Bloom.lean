import Mathlib

/-! # Bloom filters

A set of bit positions together with the number of its members. An item is
inserted at several positions and may be present when all of them are set. What
was inserted once stays possible under later insertions and merges.
-/

namespace Bloom

open Finset

variable {width : Nat}

def members (bits : BitVec width) : Finset (Fin width) :=
  Finset.univ.filter fun position => bits.getLsbD position = true

def count (bits : BitVec width) : Nat := (members bits).card

variable {bits : BitVec width} {position : Fin width}

@[simp] theorem mem_members : position ∈ members bits ↔ bits.getLsbD position = true := by
  simp [members]

theorem members_mark (bits : BitVec width) (position : Fin width) :
    members (bits ||| BitVec.twoPow width position) = insert position (members bits) := by
  ext other
  simp only [mem_members, BitVec.getLsbD_or, BitVec.getLsbD_twoPow, mem_insert,
    Bool.or_eq_true, Bool.and_eq_true, decide_eq_true_eq, position.isLt, true_and, Fin.ext_iff]
  rw [or_comm, @eq_comm _ position.val]

theorem count_mark (h : ¬ bits.getLsbD position = true) :
    count (bits ||| BitVec.twoPow width position) = count bits + 1 := by
  rw [count, members_mark]
  exact card_insert_of_notMem (mt mem_members.mp h)

/-- Bits with their number. -/
structure Filter (width : Nat) where
  bits : BitVec width
  setBits : Nat
  counted : count bits = setBits

namespace Filter

def empty : Filter width where
  bits := 0
  setBits := 0
  counted := by simp [count, members]

variable (filter : Filter width)

/-- Set one bit, counting it when it is new. -/
def mark (position : Fin width) : Filter width :=
  if h : filter.bits.getLsbD position = true then filter
  else
    { bits := filter.bits ||| BitVec.twoPow width position
      setBits := filter.setBits + 1
      counted := by rw [count_mark h, filter.counted] }

variable (positions : List (Fin width))

def insert : Filter width :=
  positions.foldl mark filter

def mayContain : Bool :=
  positions.all fun position => filter.bits.getLsbD position

def merge (filter other : Filter width) : Filter width where
  bits := filter.bits ||| other.bits
  setBits := count (filter.bits ||| other.bits)
  counted := rfl

theorem members_mark (position : Fin width) :
    members (filter.mark position).bits = Insert.insert position (members filter.bits) := by
  unfold mark
  split
  next h => exact (insert_eq_self.mpr (mem_members.mpr h)).symm
  · simp [Bloom.members_mark]

theorem members_insert :
    members (filter.insert positions).bits = positions.toFinset ∪ members filter.bits := by
  induction positions generalizing filter with
  | nil => simp [insert]
  | cons position positions ih =>
    have hrest := ih (filter.mark position)
    rw [members_mark] at hrest
    rw [List.toFinset_cons, insert_union, ← union_insert]
    exact hrest

theorem mayContain_iff {filter : Filter width} {positions : List (Fin width)} :
    filter.mayContain positions = true ↔ ∀ p ∈ positions, p ∈ members filter.bits := by
  simp [mayContain]

theorem mayContain_insert_self : (filter.insert positions).mayContain positions = true := by
  rw [mayContain_iff]
  intro position hposition
  simp [*, members_insert]

theorem members_merge (filter other : Filter width) :
    members (filter.merge other).bits = members filter.bits ∪ members other.bits := by
  ext position
  simp [merge]

end Filter

end Bloom
