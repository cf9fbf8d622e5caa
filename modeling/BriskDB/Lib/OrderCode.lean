import Mathlib

/-! # Order-deciding words

Two words *decide* an ordering when they are equal, or when they differ at a
position that both of them have. No word then is a proper prefix of the other,
so whatever follows the two words cannot change a decided comparison. Codes
whose words decide the order of the encoded values can therefore be
concatenated without lengths or separators and still compare lexicographically.
-/

namespace OrderCode

open List

variable {σ τ : Type*} [Ord σ] [Ord τ]

/-- `Decides o x y`: the words `x` and `y` settle the ordering `o` on their own,
before any continuation is inspected. -/
inductive Decides : Ordering → List σ → List σ → Prop
  | same (x : List σ) : Decides .eq x x
  | differ {o : Ordering} {a b : σ} (hab : compare a b = o) (hne : o ≠ .eq)
      (shared x y : List σ) : Decides o (shared ++ a :: x) (shared ++ b :: y)

theorem compare_append_left [Std.ReflOrd σ] (shared x y : List σ) :
    compare (shared ++ x) (shared ++ y) = compare x y := by
  induction shared with
  | nil => rfl
  | cons a shared ih =>
    simp [*]

theorem then_of_ne_eq {o : Ordering} (hne : o ≠ .eq) (rest : Ordering) : o.then rest = o := by
  cases o with
  | lt | gt => rfl
  | eq => exact absurd rfl hne

namespace Decides

variable {o o' : Ordering} {x y x' y' : List σ}

theorem head_lt {a b : σ} (h : compare a b = .lt) (x y : List σ) : Decides .lt (a :: x) (b :: y) :=
  .differ h nofun [] x y

theorem head_gt {a b : σ} (h : compare a b = .gt) (x y : List σ) : Decides .gt (a :: x) (b :: y) :=
  .differ h nofun [] x y

section

variable (h : Decides o x y)
include h

/-- Only equal prefixes defer to the continuations. -/
theorem compare_append [Std.ReflOrd σ] (s t : List σ) :
    compare (x ++ s) (y ++ t) = o.then (compare s t) := by
  cases h with
  | same => rw [compare_append_left, Ordering.eq_then]
  | differ hab hne shared x y =>
    rw [append_assoc, append_assoc, compare_append_left, cons_append,
      List.cons_append, List.compare_cons_cons, hab, then_of_ne_eq hne, then_of_ne_eq hne]

theorem compare_eq [Std.ReflOrd σ] : compare x y = o := by
  simpa using h.compare_append [] []

theorem eq_iff [Std.LawfulEqOrd σ] : x = y ↔ o = .eq := by
  rw [← h.compare_eq]
  exact Std.LawfulEqCmp.compare_eq_iff_eq.symm

theorem append_of_ne_eq (hne : o ≠ .eq) (s t : List σ) : Decides o (x ++ s) (y ++ t) := by
  cases h with
  | same => exact absurd rfl hne
  | differ hab _ shared x y =>
    rw [append_assoc, append_assoc]
    exact .differ hab hne shared (x ++ s) (y ++ t)

end

theorem prepend (shared : List σ) (h : Decides o x y) : Decides o (shared ++ x) (shared ++ y) := by
  cases h with
  | same => exact .same _
  | differ hab hne inner x y =>
    rw [← append_assoc, ← append_assoc]
    exact .differ hab hne (shared ++ inner) x y

theorem append (h : Decides o x y) (h' : Decides o' x' y') :
    Decides (o.then o') (x ++ x') (y ++ y') := by
  by_cases hne : o = .eq
  · subst hne
    cases h with
    | same => exact h'.prepend _
    | differ _ hne => exact absurd rfl hne
  · rw [then_of_ne_eq hne]
    exact h.append_of_ne_eq hne x' y'

theorem single [Std.LawfulEqOrd σ] (a b : σ) : Decides (compare a b) [a] [b] := by
  by_cases hab : compare a b = .eq
  · rw [hab, Std.LawfulEqCmp.compare_eq_iff_eq.mp hab]
    exact .same [b]
  · exact .differ rfl hab [] [] []

theorem cons [Std.LawfulEqOrd σ] (a b : σ) (h : Decides o x y) :
    Decides ((compare a b).then o) (a :: x) (b :: y) :=
  (single a b).append h

theorem of_length_eq [Std.LawfulEqOrd σ] :
    ∀ {x y : List σ}, x.length = y.length → Decides (compare x y) x y
  | [], [], _ => .same []
  | a :: x, b :: y, hlength => by
    rw [List.compare_cons_cons]
    exact cons a b (of_length_eq (Nat.succ.inj hlength))

/-- An order-reversing relabelling of the alphabet reverses the decision. -/
theorem map_swap {f : σ → τ} (hf : ∀ a b, compare (f a) (f b) = (compare a b).swap)
    (h : Decides o x y) : Decides o.swap (x.map f) (y.map f) := by
  cases h with
  | same => exact .same _
  | differ hab hne shared x y =>
    rw [map_append, map_append, map_cons, map_cons]
    refine .differ (by rw [hf, hab]) ?_ _ _ _
    simp [*]

theorem map_mono {f : σ → τ} (hf : ∀ a b, compare (f a) (f b) = compare a b)
    (h : Decides o x y) : Decides o (x.map f) (y.map f) := by
  cases h with
  | same => exact .same _
  | differ hab hne shared x y =>
    rw [map_append, map_append, map_cons, map_cons]
    exact .differ (by rw [hf, hab]) hne _ _ _

end Decides

section Escape

variable [DecidableEq σ] (stop mark : σ)

/-- Close a word with two stops, marking every stop that belongs to the word. -/
def escape : List σ → List σ
  | [] => [stop, stop]
  | a :: x => if a = stop then stop :: mark :: escape x else a :: escape x

variable {stop mark}

/-- Escaping preserves the order when the stop is the least letter. -/
theorem Decides.escape [Std.OrientedOrd σ] [Std.LawfulEqOrd σ]
    (hstop : ∀ a, a ≠ stop → compare stop a = .lt) (hmark : mark ≠ stop) (x y : List σ) :
    Decides (compare x y) (OrderCode.escape stop mark x) (OrderCode.escape stop mark y) := by
  have hgreater : ∀ a, a ≠ stop → compare a stop = .gt := by
    intro a ha
    rw [Std.OrientedOrd.eq_swap, hstop a ha]
    rfl
  induction x generalizing y with
  | nil =>
    cases y with
    | nil => exact .same _
    | cons b y =>
      by_cases hb : b = stop
      · rw [OrderCode.escape, OrderCode.escape, if_pos hb]
        exact .differ (hstop mark hmark) (by decide) [stop] [] _
      · rw [OrderCode.escape, OrderCode.escape, if_neg hb]
        exact .head_lt (hstop b hb) _ _
  | cons a x ih =>
    cases y with
    | nil =>
      by_cases ha : a = stop
      · rw [OrderCode.escape, OrderCode.escape, if_pos ha]
        exact .differ (hgreater mark hmark) (by decide) [stop] _ []
      · rw [OrderCode.escape, OrderCode.escape, if_neg ha]
        exact .head_gt (hgreater a ha) _ _
    | cons b y =>
      rw [OrderCode.escape, OrderCode.escape, List.compare_cons_cons]
      by_cases ha : a = stop <;> by_cases hb : b = stop
      · rw [if_pos ha, if_pos hb, ha, hb, Std.ReflOrd.compare_self, Ordering.eq_then]
        exact (ih y).prepend [stop, mark]
      · rw [if_pos ha, if_neg hb, ha, hstop b hb]
        exact .head_lt (hstop b hb) _ _
      · rw [if_neg ha, if_pos hb, hb, hgreater a ha]
        exact .head_gt (hgreater a ha) _ _
      · rw [if_neg ha, if_neg hb]
        exact (ih y).cons a b

end Escape

section Terminated

variable {α : Type*}

/-- The member words of a sequence, closed by a stop letter. -/
def terminated (stop : σ) (encode : α → List σ) (members : List α) : List σ :=
  members.flatMap encode ++ [stop]

/-- A terminated sequence of deciding words decides the order of the sequences. -/
theorem Decides.terminated [Std.OrientedOrd σ] [Std.LawfulEqOrd σ] {stop : σ}
    {encode : α → List σ} {cmp : α → α → Ordering} {left right : List α}
    (hdecides : ∀ a ∈ left, ∀ b ∈ right, Decides (cmp a b) (encode a) (encode b))
    (hleft : ∀ a ∈ left, ∃ head tail, encode a = head :: tail ∧ compare stop head = .lt)
    (hright : ∀ b ∈ right, ∃ head tail, encode b = head :: tail ∧ compare stop head = .lt) :
    Decides (left.compareLex cmp right) (OrderCode.terminated stop encode left)
      (OrderCode.terminated stop encode right) := by
  induction left generalizing right with
  | nil =>
    cases right with
    | nil => exact .same _
    | cons b right =>
      obtain ⟨head, tail, hb, hlt⟩ := hright b mem_cons_self
      simp only [OrderCode.terminated, flatMap_nil, flatMap_cons, hb]
      exact .head_lt hlt _ _
  | cons a left ih =>
    obtain ⟨head, tail, ha, hlt⟩ := hleft a mem_cons_self
    cases right with
    | nil =>
      simp only [OrderCode.terminated, flatMap_nil, flatMap_cons, ha]
      have hgt : compare head stop = .gt := by
        rw [Std.OrientedOrd.eq_swap, hlt]
        rfl
      exact .head_gt hgt _ _
    | cons b right =>
      rw [List.compareLex_cons_cons]
      simp only [OrderCode.terminated, flatMap_cons, append_assoc]
      refine (hdecides a mem_cons_self b mem_cons_self).append (ih ?_ ?_ ?_)
      · grind
      · grind
      · grind

end Terminated

end OrderCode
