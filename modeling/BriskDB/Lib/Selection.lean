import BriskDB.Lib.Scan

/-! # Selecting the lowest items of a stream

A priority queue is kept as the list of its items in the order in which they leave it: a
queue that gives up its greatest item first is descending, one that gives up its least item
first is ascending. A selection keeps some items and drops others, and is right when every
kept item is at most every dropped one.
-/

namespace Selection

open List

universe u

variable {α : Type u} (cmp : α → α → Ordering)

def Below (a b : α) : Prop := (cmp a b).isLE = true

def Above (a b : α) : Prop := (cmp b a).isLE = true

instance : DecidableRel (Below cmp) := fun _ _ => inferInstanceAs (Decidable (_ = true))

instance : DecidableRel (Above cmp) := fun _ _ => inferInstanceAs (Decidable (_ = true))

/-- A selection that dropped no item below one that it kept. -/
def Lowest (kept dropped : List α) : Prop := ∀ a ∈ kept, ∀ b ∈ dropped, Below cmp a b

section Order

variable [Std.TransCmp cmp]

theorem below_total (a b : α) : Below cmp a b ∨ Below cmp b a := by
  have hswap : cmp b a = (cmp a b).swap := Std.OrientedCmp.eq_swap
  unfold Below
  rw [hswap]
  cases cmp a b <;> simp

instance : IsTrans α (Below cmp) := ⟨fun _ _ _ => Std.TransCmp.isLE_trans⟩

instance : Std.Total (Below cmp) := ⟨below_total cmp⟩

instance : IsTrans α (Above cmp) := ⟨fun _ _ _ hab hbc => Std.TransCmp.isLE_trans hbc hab⟩

instance : Std.Total (Above cmp) := ⟨fun a b => below_total cmp b a⟩

end Order

variable {cmp}

theorem below_of_lt {a b : α} (h : cmp a b = .lt) : Below cmp a b := by
  rw [Below, h]
  rfl

theorem below_refl [Std.TransCmp cmp] (a : α) : Below cmp a a := by
  simp [Std.ReflCmp.compare_self, Below]

variable {kept dropped : List α}

theorem lowest_nil (dropped : List α) : Lowest cmp [] dropped := by
  intro a ha
  cases ha

theorem lowest_of_dropped_nil (kept : List α) : Lowest cmp kept [] := by
  intro a _ b hb
  cases hb

variable {top item : α} {rest : List α}

theorem Lowest.pop (hdescending : (top :: rest).Pairwise (Above cmp))
    (h : Lowest cmp (top :: rest) dropped) : Lowest cmp rest (top :: dropped) := by
  intro a ha b hb
  rcases mem_cons.mp hb with rfl | hb
  · exact (pairwise_cons.mp hdescending).1 a ha
  · exact h a (mem_cons_of_mem top ha) b hb

theorem Lowest.drop [Std.TransCmp cmp]
    (hdescending : (top :: rest).Pairwise (Above cmp)) (h : Lowest cmp (top :: rest) dropped)
    (hitem : Below cmp top item) : Lowest cmp (top :: rest) (item :: dropped) := by
  intro a ha b hb
  rcases mem_cons.mp hb with rfl | hb
  · rcases mem_cons.mp ha with rfl | ha
    · exact hitem
    · exact Std.TransCmp.isLE_trans ((pairwise_cons.mp hdescending).1 a ha) hitem
  · exact h a ha b hb

theorem Lowest.push (h : Lowest cmp kept dropped) (hitem : ∀ b ∈ dropped, Below cmp item b) :
    Lowest cmp (kept.orderedInsert (Above cmp) item) dropped := by
  intro a ha b hb
  rcases (mem_orderedInsert _).mp ha with rfl | ha
  · exact hitem b hb
  · exact h a ha b hb

/-- A selection is a beginning of the sorted items when no two share a position. -/
theorem scan_eq_append [Std.TransCmp cmp] {items : List α} (hdistinct : Scan.Distinct cmp id items)
    (hperm : (kept ++ dropped).Perm items) (hlowest : Lowest cmp kept dropped)
    (hdescending : kept.Pairwise (Above cmp)) :
    Scan.scan cmp id items = kept.reverse ++ Scan.scan cmp id dropped := by
  have hboth : Scan.Distinct cmp id (kept ++ dropped) := hdistinct.perm hperm.symm
  obtain ⟨hkept, hdropped, hcross⟩ := pairwise_append.mp hboth
  have hstrict : ∀ {a b : α}, Below cmp a b → cmp a b ≠ .eq → cmp a b = .lt := by
    intro a b hle hne
    unfold Below at hle
    cases horder : cmp a b with
    | lt => rfl
    | eq => exact absurd horder hne
    | gt =>
      rw [horder] at hle
      cases hle
  refine (Scan.Ascending.eq_scan ?_ ?_).symm
  · refine pairwise_append.mpr ⟨?_, Scan.ascending_scan hdropped, ?_⟩
    · rw [pairwise_reverse]
      refine (hdescending.and hkept).imp ?_
      rintro a b ⟨hle, hne⟩
      exact hstrict hle fun heq => hne (Std.OrientedCmp.eq_comm.mp heq)
    · intro a ha b hb
      rw [mem_reverse] at ha
      have hb := (Scan.scan_perm cmp id dropped).mem_iff.mp hb
      exact hstrict (hlowest a ha b hb) (hcross a ha b hb)
  · exact (List.Perm.append (reverse_perm kept) (Scan.scan_perm cmp id dropped)).trans hperm

end Selection
