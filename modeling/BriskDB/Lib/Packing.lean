import Mathlib

/-!
# Greedy packing

Items with a width are put into containers of a fixed room, in order, each container
taking as many as fit.
-/

namespace Packing

open List

variable {α : Type} (width : α → Nat)

def takeFit : Nat → List α → List α
  | _, [] => []
  | room, a :: items => if width a ≤ room then a :: takeFit (room - width a) items else []

def used (items : List α) : Nat := (items.map width).sum

theorem takeFit_append_drop (room : Nat) (items : List α) :
    takeFit width room items ++ items.drop (takeFit width room items).length = items := by
  induction items generalizing room with
  | nil => rfl
  | cons a items ih =>
    unfold takeFit
    grind

theorem used_takeFit_le (room : Nat) (items : List α) :
    used width (takeFit width room items) ≤ room := by
  induction items generalizing room with
  | nil => exact Nat.zero_le room
  | cons a items ih =>
    unfold takeFit
    split
    next hfit =>
      have := ih (room - width a)
      rw [used, map_cons, sum_cons]
      exact Nat.add_le_of_le_sub' hfit this
    · exact Nat.zero_le room

variable {items : List α}

theorem takeFit_eq_self {room : Nat} (h : used width items ≤ room) :
    takeFit width room items = items := by
  induction items generalizing room with
  | nil => rfl
  | cons a items ih =>
    rw [used, map_cons, sum_cons] at h
    rw [takeFit, if_pos (Nat.le_of_add_right_le h), ih (Nat.le_sub_of_add_le' h)]

theorem takeFit_ne_nil {room : Nat} (hitems : items ≠ [])
    (h : ∀ a ∈ items, width a ≤ room) : takeFit width room items ≠ [] := by
  cases items with
  | nil => exact absurd rfl hitems
  | cons a items =>
    rw [takeFit, if_pos (h a mem_cons_self)]
    exact cons_ne_nil _ _

theorem length_mul_le_used {step : Nat} (h : ∀ a ∈ items, step ≤ width a) :
    items.length * step ≤ used width items := by
  induction items with
  | nil => exact Nat.le_of_eq (Nat.zero_mul step)
  | cons a items ih =>
    obtain ⟨ha, hitems⟩ := forall_mem_cons.mp h
    rw [used, map_cons, sum_cons, length_cons, Nat.succ_mul, Nat.add_comm]
    exact Nat.add_le_add ha (ih hitems)

/-- Fill container after container. -/
def pack (room : Nat) (items : List α) : List (List α) :=
  if takeFit width room items = [] then []
  else takeFit width room items :: pack room (items.drop (takeFit width room items).length)
termination_by items.length
decreasing_by
  next hne =>
    have hsplit := congrArg List.length (takeFit_append_drop width room items)
    have hpos := length_pos_iff.mpr hne
    grind

variable {width} {room : Nat}

theorem pack_eq_cons (hne : takeFit width room items ≠ []) :
    pack width room items = takeFit width room items ::
      pack width room (items.drop (takeFit width room items).length) := by
  rw [pack, if_neg hne]

theorem pack_nil : pack width room [] = [] := by
  rw [pack, takeFit, if_pos rfl]

theorem pack_of_used_le (hitems : items ≠ []) (h : used width items ≤ room) :
    pack width room items = [items] := by
  rw [pack, takeFit_eq_self width h, if_neg hitems, drop_length, pack_nil]

theorem flatten_pack (h : ∀ a ∈ items, width a ≤ room) :
    (pack width room items).flatten = items := by
  fun_induction pack width room items with
  | case1 items hnil =>
    by_contra hne
    exact takeFit_ne_nil width (fun hitems => hne hitems.symm) h hnil
  | case2 items hne ih =>
    rw [flatten_cons, ih fun a ha => h a (mem_of_mem_drop ha), takeFit_append_drop]

theorem of_mem_pack {container : List α} (h : container ∈ pack width room items) :
    container ≠ [] ∧ used width container ≤ room := by
  fun_induction pack width room items with
  | case1 items hnil => cases h
  | case2 items hne ih =>
    grind [used_takeFit_le]

theorem length_flatten_pack_le (hpos : ∀ a, 0 < width a) (items : List α) :
    (pack width room items).flatten.length ≤ room * (pack width room items).length := by
  have hcontainer : ∀ container ∈ pack width room items, container.length ≤ room := by
    intro container hcontainer
    refine le_trans ?_ (of_mem_pack hcontainer).2
    have := length_mul_le_used width (fun a (_ : a ∈ container) => hpos a)
    rwa [Nat.mul_one] at this
  generalize pack width room items = containers at hcontainer
  induction containers with
  | nil => exact Nat.zero_le _
  | cons container containers ih =>
    obtain ⟨hfirst, hrest⟩ := forall_mem_cons.mp hcontainer
    rw [flatten_cons, length_append, length_cons, Nat.mul_succ, Nat.add_comm]
    exact Nat.add_le_add (ih hrest) hfirst

section Related

variable {β : Type} {width' : β → Nat} {r : α → β → Prop}

theorem takeFit_forall₂ (hwidth : ∀ a b, r a b → width a = width' b)
    {items' : List β} (h : List.Forall₂ r items items') :
    List.Forall₂ r (takeFit width room items) (takeFit width' room items') := by
  induction h generalizing room with
  | nil => exact .nil
  | cons hab _ ih =>
    unfold takeFit
    rw [hwidth _ _ hab]
    split
    · exact .cons hab ih
    · exact .nil

theorem pack_forall₂ (hwidth : ∀ a b, r a b → width a = width' b)
    {items' : List β} (h : List.Forall₂ r items items') :
    List.Forall₂ (List.Forall₂ r) (pack width room items) (pack width' room items') := by
  fun_induction pack width room items generalizing items' with
  | case1 items hnil =>
    have hfit := @takeFit_forall₂ _ _ _ room _ _ _ hwidth _ h
    rw [hnil] at hfit
    rw [pack, if_pos (forall₂_nil_left_iff.mp hfit)]
    exact .nil
  | case2 items hne ih =>
    have hfit := @takeFit_forall₂ _ _ _ room _ _ _ hwidth _ h
    have hne' : takeFit width' room items' ≠ [] := by
      intro hnil
      rw [hnil] at hfit
      exact hne (forall₂_nil_right_iff.mp hfit)
    rw [pack_eq_cons hne']
    refine .cons hfit (ih ?_)
    rw [← hfit.length_eq]
    exact forall₂_drop _ h

end Related

section Uniform

variable {step : Nat}

theorem used_const (items : List α) : used (fun _ => step) items = items.length * step := by
  simp [used]

theorem takeFit_const (hstep : 0 < step) (items : List α) :
    takeFit (fun _ => step) room items = items.take (room / step) := by
  induction items generalizing room with
  | nil => rw [takeFit, take_nil]
  | cons a items ih =>
    unfold takeFit
    split
    next hfit => rw [ih, Nat.div_eq_sub_div hstep hfit, take_succ_cons]
    next hfit => rw [Nat.div_eq_of_lt (Nat.lt_of_not_le hfit), take_zero]

/-- Items of one width overflow into a second container after the first is full. -/
theorem pack_const_overflow (hstep : 0 < step)
    (hroom : 0 < room / step) (hmore : room / step < items.length)
    (hless : items.length ≤ 2 * (room / step)) :
    pack (fun _ => step) room items = [items.take (room / step), items.drop (room / step)] := by
  have hlength : (items.take (room / step)).length = room / step := by
    rw [length_take]
    omega
  have hne : items.take (room / step) ≠ [] :=
    ne_nil_of_length_pos (by omega)
  rw [pack, takeFit_const hstep, if_neg hne, hlength, pack_of_used_le]
  · exact ne_nil_of_length_pos (by rw [length_drop]; omega)
  · rw [used_const, length_drop]
    calc (items.length - room / step) * step
        ≤ room / step * step := Nat.mul_le_mul_right step (by omega)
      _ ≤ room := Nat.div_mul_le_self room step

end Uniform

end Packing
