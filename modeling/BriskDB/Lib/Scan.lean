import Mathlib

/-! # Ordered scans and keyset resume

The rows of a table in the order of their positions, and the rows after a position.
When no two rows share a position the scan is the only ordered list of them, and a
scan after the position of a row is exactly what the full scan has after that row.
-/

namespace Scan

open List

universe u v w

variable {α : Type u} {β : Type w} {κ : Type v} (cmp : κ → κ → Ordering) (pos : α → κ)

variable (items : List α)

def scan : List α :=
  items.mergeSort fun a b => (cmp (pos a) (pos b)).isLE

def scanAfter (mark : κ) (items : List α) : List α :=
  scan cmp pos (items.filter fun a => cmp (pos a) mark == .gt)

def Distinct : Prop :=
  items.Pairwise fun a b => cmp (pos a) (pos b) ≠ .eq

def Ascending : Prop :=
  items.Pairwise fun a b => cmp (pos a) (pos b) = .lt

theorem scan_perm : (scan cmp pos items).Perm items :=
  mergeSort_perm items _

variable {cmp pos} [Std.TransCmp cmp] {items items' : List α}

theorem Distinct.perm (hperm : items.Perm items')
    (h : Distinct cmp pos items) : Distinct cmp pos items' := by
  refine hperm.pairwise h ?_
  intro a b hne heq
  exact hne (Std.OrientedCmp.eq_comm.mp heq)

theorem ascending_scan (h : Distinct cmp pos items) : Ascending cmp pos (scan cmp pos items) := by
  have hordered : (scan cmp pos items).Pairwise fun a b => (cmp (pos a) (pos b)).isLE := by
    apply pairwise_mergeSort
    · exact fun a b c => Std.TransCmp.isLE_trans
    · intro a b
      have hswap : cmp (pos b) (pos a) = (cmp (pos a) (pos b)).swap := Std.OrientedCmp.eq_swap
      rw [hswap]
      cases cmp (pos a) (pos b) <;> rfl
  have hdistinct := h.perm (scan_perm cmp pos items).symm
  refine (hordered.and hdistinct).imp ?_
  rintro a b ⟨hle, hne⟩
  cases horder : cmp (pos a) (pos b) with
  | lt => rfl
  | eq => exact absurd horder hne
  | gt =>
    rw [horder] at hle
    cases hle

/-- There is only one ascending list of the same items. -/
theorem Ascending.eq_scan {ordered : List α} (h : Ascending cmp pos ordered)
    (hperm : ordered.Perm items) : ordered = scan cmp pos items := by
  have hdistinct : Distinct cmp pos ordered := h.imp fun hlt heq => by
    grind
  have hscan := ascending_scan (hdistinct.perm hperm)
  refine List.Perm.eq_of_pairwise ?_ h hscan (hperm.trans (scan_perm cmp pos items).symm)
  intro a b _ _ hlt hgt
  rw [Std.OrientedCmp.gt_iff_lt.mpr hlt] at hgt
  cases hgt

theorem scan_filter (h : Distinct cmp pos items) (p : α → Bool) :
    scan cmp pos (items.filter p) = (scan cmp pos items).filter p := by
  have hkept : Ascending cmp pos ((scan cmp pos items).filter p) :=
    List.Pairwise.filter p (ascending_scan h)
  exact (hkept.eq_scan ((scan_perm cmp pos items).filter p)).symm

variable {f : α → β} {pos' : β → κ} {mark : κ}

theorem scan_map (h : Distinct cmp pos items) (hpos : ∀ a ∈ items, pos' (f a) = pos a) :
    scan cmp pos' (items.map f) = (scan cmp pos items).map f := by
  refine (Ascending.eq_scan ?_ ((scan_perm cmp pos items).map f)).symm
  refine pairwise_map.mpr ((ascending_scan h).imp_of_mem ?_)
  grind [scan_perm]

omit [Std.TransCmp cmp] in
theorem scanAfter_of_gt (h : ∀ a ∈ items, cmp (pos a) mark = .gt) :
    scanAfter cmp pos mark items = scan cmp pos items := by
  rw [scanAfter, filter_eq_self.mpr]
  grind

theorem scanAfter_congr (h : Distinct cmp pos items)
    (hperm : items.Perm items') : scanAfter cmp pos mark items = scanAfter cmp pos mark items' :=
  (ascending_scan (List.Pairwise.filter _ h)).eq_scan
    ((scan_perm cmp pos _).trans (hperm.filter _))

theorem scanAfter_map (h : Distinct cmp pos items) (hpos : ∀ a ∈ items, pos' (f a) = pos a) :
    scanAfter cmp pos' mark (items.map f) = (scanAfter cmp pos mark items).map f := by
  have hfilter : (items.map f).filter (fun b => cmp (pos' b) mark == .gt) =
      (items.filter fun a => cmp (pos a) mark == .gt).map f := by
    rw [filter_map]
    refine congrArg (List.map f) (filter_congr ?_)
    intro a ha
    simp [hpos a ha]
  rw [scanAfter, hfilter, scan_map (List.Pairwise.filter _ h), scanAfter]
  exact fun a ha => hpos a (mem_of_mem_filter ha)

/-- A scan that resumes after a row visits the rest of the full scan. -/
theorem scanAfter_eq {before after : List α} {a : α} (h : Distinct cmp pos items)
    (hscan : scan cmp pos items = before ++ a :: after) :
    scanAfter cmp pos (pos a) items = after := by
  have hascending := ascending_scan h
  rw [hscan] at hascending
  obtain ⟨-, hrest, hbefore⟩ := pairwise_append.mp hascending
  rw [pairwise_cons] at hrest
  -- what lies before the row, and the row itself, is not after its position
  have hnone : (before ++ [a]).filter (fun b => cmp (pos b) (pos a) == .gt) = [] := by
    refine filter_eq_nil_iff.mpr ?_
    intro b hb hgt
    rw [mem_append, mem_singleton] at hb
    rcases hb with hb | rfl
    · grind
    · grind
  have hall : after.filter (fun b => cmp (pos b) (pos a) == .gt) = after := by
    refine filter_eq_self.mpr ?_
    intro b hb
    rw [Std.OrientedCmp.gt_iff_lt.mpr (hrest.1 b hb)]
    rfl
  have hsplit : before ++ a :: after = (before ++ [a]) ++ after := by simp
  rw [scanAfter, scan_filter h, hscan, hsplit, filter_append, hnone, hall, nil_append]

end Scan
