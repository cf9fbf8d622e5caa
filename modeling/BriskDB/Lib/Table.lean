import Mathlib

/-! # Tables with declared constraints

A table holds rows that satisfy the checks of its schema, and no two rows in conflict: its
primary key and its unique constraints are one relation. An insertion or an update that would
break a constraint is refused.
-/

universe u

/-- Rows that pass the check and do not conflict with each other. -/
structure Table {ρ : Type u} (conflict : ρ → ρ → Prop) (check : ρ → Prop) where
  rows : List ρ
  apart : rows.Pairwise fun left right => ¬ conflict left right
  checked : ∀ row ∈ rows, check row

namespace Table

open List

variable {ρ : Type u} {conflict : ρ → ρ → Prop} {check : ρ → Prop}

@[ext] theorem ext {left right : Table conflict check} (h : left.rows = right.rows) :
    left = right := by
  cases left
  cases right
  cases h
  rfl

def empty : Table conflict check := ⟨[], .nil, nofun⟩

variable (selected : ρ → Bool)

def delete (table : Table conflict check) : Table conflict check where
  rows := table.rows.filter fun row => !selected row
  apart := table.apart.filter _
  checked := fun row hmem => table.checked row (mem_of_mem_filter hmem)

theorem filter_delete (table : Table conflict check) :
    (table.delete selected).rows.filter selected = [] := by
  refine filter_eq_nil_iff.mpr fun row hrow hselected => ?_
  have hnot := (mem_filter.mp hrow).2
  simp [hselected] at hnot

theorem filter_not_delete (table : Table conflict check) :
    (table.delete selected).rows.filter (fun row => !selected row) =
      table.rows.filter fun row => !selected row := by
  unfold delete
  rw [filter_filter]
  simp

section Decidable

variable [DecidableRel conflict] [DecidablePred check]

def insert (table : Table conflict check) (row : ρ) : Option (Table conflict check) :=
  if h : check row ∧ ∀ other ∈ table.rows, ¬ conflict other row then
    some {
      rows := table.rows ++ [row]
      apart := pairwise_append.mpr ⟨table.apart, pairwise_singleton _ row,
        fun other hother _ hrow => mem_singleton.mp hrow ▸ h.2 other hother⟩
      checked := fun other hother => (mem_append.mp hother).elim (table.checked other)
        fun hrow => mem_singleton.mp hrow ▸ h.1 }
  else none

def insertAll (table : Table conflict check) (rows : List ρ) : Option (Table conflict check) :=
  rows.foldlM insert table

def update (change : ρ → ρ) (table : Table conflict check) : Option (Table conflict check) :=
  let rows := table.rows.map fun row => if selected row then change row else row
  if h : rows.Pairwise (fun left right => ¬ conflict left right) ∧ ∀ row ∈ rows, check row then
    some ⟨rows, h.1, h.2⟩
  else none

variable {table next : Table conflict check} {row : ρ}

theorem rows_insert (h : table.insert row = some next) : next.rows = table.rows ++ [row] := by
  unfold insert at h
  grind

theorem apart_of_insert
    (h : table.insert row = some next) : ∀ other ∈ table.rows, ¬ conflict other row := by
  grind [insert]

theorem rows_insertAll {rows : List ρ}
    (h : table.insertAll rows = some next) : next.rows = table.rows ++ rows := by
  unfold insertAll at h
  induction rows generalizing table with
  | nil =>
    grind
  | cons row rows ih =>
    rw [foldlM_cons] at h
    obtain ⟨middle, hmiddle, h⟩ := Option.bind_eq_some_iff.mp h
    rw [ih h, rows_insert hmiddle, append_assoc]
    rfl

theorem rows_update {selected : ρ → Bool} {change : ρ → ρ}
    (h : table.update selected change = some next) :
    next.rows = table.rows.map fun row => if selected row then change row else row := by
  unfold update at h
  grind

end Decidable

theorem eq_of_conflict (hsymm : ∀ left right, conflict left right → conflict right left)
    {table : Table conflict check} {left right : ρ} (hleft : left ∈ table.rows)
    (hright : right ∈ table.rows) (h : conflict left right) : left = right := by
  by_contra hne
  have : Std.Symm fun left right => ¬ conflict left right :=
    ⟨fun left right hnot hconflict => hnot (hsymm right left hconflict)⟩
  exact table.apart.forall hleft hright hne h

end Table
