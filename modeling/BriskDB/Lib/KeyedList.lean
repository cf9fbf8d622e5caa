import Mathlib

/-!
# Lists sorted by key, and batches of edits to them

A map with ordered keys is kept as the list of its items in strictly ascending key
order. An edit refers to one key and turns the item found there into another one,
into none, or refuses. A batch runs its edits in order. What a batch does is
determined key by key, so edits of different keys may be exchanged, and a batch
whose edits stay on one side of a key leaves the items on the other side alone.
-/

namespace KeyedList

open List

variable {α κ : Type} [LinearOrder κ] (key : α → κ)

def Sorted (items : List α) : Prop :=
  items.Pairwise fun a b => key a < key b

def lookup (items : List α) (k : κ) : Option α :=
  items.find? fun a => key a = k

/-- Insert an item at its place, replacing the one with the same key. -/
def insert (a : α) : List α → List α
  | [] => [a]
  | b :: items =>
    if key a < key b then a :: b :: items
    else if key a = key b then a :: items
    else b :: insert a items

def erase (k : κ) (items : List α) : List α :=
  items.filter fun a => key a ≠ k

variable {key} {a : α} {items : List α} {k : κ}

theorem sorted_cons : Sorted key (a :: items) ↔ (∀ b ∈ items, key a < key b) ∧ Sorted key items :=
  pairwise_cons

theorem sorted_append {left right : List α} :
    Sorted key (left ++ right) ↔
      Sorted key left ∧ Sorted key right ∧ ∀ a ∈ left, ∀ b ∈ right, key a < key b :=
  pairwise_append

theorem key_of_lookup (h : lookup key items k = some a) : key a = k := by
  simpa using find?_some h

theorem mem_of_lookup (h : lookup key items k = some a) : a ∈ items :=
  mem_of_find?_eq_some h

@[simp] theorem lookup_nil (k : κ) : lookup key [] k = none := rfl

theorem lookup_cons (a : α) (items : List α) (k : κ) :
    lookup key (a :: items) k = if key a = k then some a else lookup key items k := by
  unfold lookup
  grind

theorem lookup_eq_none : lookup key items k = none ↔ ∀ a ∈ items, key a ≠ k := by
  simp [lookup, find?_eq_none]

theorem lookup_append (left right : List α) (k : κ) :
    lookup key (left ++ right) k = (lookup key left k).or (lookup key right k) :=
  find?_append

theorem lookup_eq_some (hsorted : Sorted key items) :
    lookup key items (key a) = some a ↔ a ∈ items := by
  refine ⟨mem_of_lookup, ?_⟩
  intro hmem
  induction items with
  | nil => cases hmem
  | cons b items ih =>
    obtain ⟨hlt, hsorted⟩ := sorted_cons.mp hsorted
    rw [lookup_cons]
    grind

theorem Sorted.ext {items' : List α} (hsorted : Sorted key items)
    (hsorted' : Sorted key items') (h : ∀ k, lookup key items k = lookup key items' k) :
    items = items' := by
  have hantisymm : ∀ a b, a ∈ items → b ∈ items' → key a < key b → key b < key a → a = b :=
    fun _ _ _ _ hab hba => absurd hab hba.not_gt
  have hperm : items.Perm items' := by
    refine (perm_ext_iff_of_nodup ?_ ?_).mpr ?_
    · exact hsorted.imp fun hlt heq => hlt.ne (congrArg key heq)
    · exact hsorted'.imp fun hlt heq => hlt.ne (congrArg key heq)
    · intro a
      rw [← lookup_eq_some hsorted, ← lookup_eq_some hsorted', h]
  exact hperm.eq_of_pairwise hantisymm hsorted hsorted'

section Insert

variable {a : α} {items left right : List α}

theorem mem_insert {b : α} (h : b ∈ insert key a items) : b = a ∨ b ∈ items := by
  induction items with
  | nil => simpa [insert] using h
  | cons c items ih =>
    unfold insert at h
    split at h
    · simpa using h
    · split at h
      · grind
      · grind

theorem sorted_insert (hsorted : Sorted key items) : Sorted key (insert key a items) := by
  induction items with
  | nil => exact pairwise_singleton _ a
  | cons b items ih =>
    obtain ⟨hlt, htail⟩ := sorted_cons.mp hsorted
    unfold insert
    split
    next hab =>
      refine sorted_cons.mpr ⟨?_, hsorted⟩
      exact forall_mem_cons.mpr ⟨hab, fun c hc => hab.trans (hlt c hc)⟩
    next hab =>
      split
      next heq => exact sorted_cons.mpr ⟨fun c hc => heq ▸ hlt c hc, htail⟩
      next hne =>
        refine sorted_cons.mpr ⟨?_, ih htail⟩
        intro c hc
        rcases mem_insert hc with rfl | hc
        · exact lt_of_le_of_ne (not_lt.mp hab) (Ne.symm hne)
        · exact hlt c hc

theorem lookup_insert (a : α) (items : List α) (k : κ) :
    lookup key (insert key a items) k = if key a = k then some a else lookup key items k := by
  induction items with
  | nil => rw [insert, lookup_cons]
  | cons b items ih =>
    unfold insert
    split
    · rw [lookup_cons]
    · split
      next heq =>
        rw [lookup_cons, lookup_cons]
        grind
      next hne =>
        rw [lookup_cons, ih, lookup_cons]
        grind

theorem insert_append_left (h : ∀ b ∈ right, key a < key b) :
    insert key a (left ++ right) = insert key a left ++ right := by
  induction left with
  | nil =>
    cases right with
    | nil => rfl
    | cons b right =>
      simp [insert, if_pos (h b mem_cons_self)]
  | cons b left ih =>
    grind [insert]

theorem insert_append_right (h : ∀ b ∈ left, key b < key a) :
    insert key a (left ++ right) = left ++ insert key a right := by
  induction left with
  | nil => rfl
  | cons b left ih =>
    obtain ⟨hb, hleft⟩ := forall_mem_cons.mp h
    rw [cons_append, insert, if_neg hb.not_gt, if_neg hb.ne', ih hleft, cons_append]

end Insert

section Erase

theorem sorted_erase (hsorted : Sorted key items) : Sorted key (erase key k items) :=
  List.Pairwise.filter _ hsorted

theorem lookup_erase (k : κ) (items : List α) (k' : κ) :
    lookup key (erase key k items) k' = if k = k' then none else lookup key items k' := by
  induction items with
  | nil => simp [erase]
  | cons a items ih =>
    unfold erase at ih ⊢
    rw [filter_cons]
    split
    next hne =>
      rw [lookup_cons, ih, lookup_cons]
      grind
    · grind [lookup_cons]

theorem erase_append (k : κ) (left right : List α) :
    erase key k (left ++ right) = erase key k left ++ erase key k right :=
  filter_append left right

theorem erase_eq_self (h : ∀ a ∈ items, key a ≠ k) : erase key k items = items :=
  filter_eq_self.mpr fun a ha => decide_eq_true (h a ha)

end Erase

/-- A language of edits: the key an edit refers to, and what it makes of the item
found there. -/
structure Editing (μ α κ : Type) where
  key : α → κ
  target : μ → κ
  effect : μ → Option α → Option (Option α)
  key_effect : ∀ {edit found a}, effect edit found = some (some a) → key a = target edit

namespace Editing

variable {μ : Type} (E : Editing μ α κ)

/-- Put the outcome of an edit in place. -/
def place (items : List α) (k : κ) : Option α → List α
  | some a => insert E.key a items
  | none => erase E.key k items

def apply (items : List α) (edit : μ) : Option (List α) :=
  (E.effect edit (lookup E.key items (E.target edit))).map (E.place items (E.target edit))

/-- Run a batch of edits in order; one refusal refuses the batch. -/
def run (items : List α) (edits : List μ) : Option (List α) :=
  edits.foldlM E.apply items

/-- What a batch makes of the item under one key. -/
def runKey (edits : List μ) (k : κ) (found : Option α) : Option (Option α) :=
  (edits.filter fun edit => E.target edit = k).foldlM (fun found edit => E.effect edit found) found

variable {E}

@[simp] theorem run_nil (items : List α) : E.run items [] = some items := rfl

theorem run_cons (items : List α) (edit : μ) (edits : List μ) :
    E.run items (edit :: edits) = (E.apply items edit).bind (E.run · edits) := rfl

theorem run_append (items : List α) (edits edits' : List μ) :
    E.run items (edits ++ edits') = (E.run items edits).bind (E.run · edits') := by
  unfold run
  rw [foldlM_append]
  rfl

@[simp] theorem runKey_nil (k : κ) : E.runKey [] k = some := rfl

theorem runKey_cons_same (edit : μ) (edits : List μ) (found : Option α) :
    E.runKey (edit :: edits) (E.target edit) found =
      (E.effect edit found).bind (E.runKey edits (E.target edit)) := by
  simp only [runKey, filter_cons, decide_true, if_pos, foldlM_cons]
  rfl

variable {edit : μ} {edits' : List μ}

theorem runKey_cons_other (h : E.target edit ≠ k) (edits : List μ)
    (found : Option α) : E.runKey (edit :: edits) k found = E.runKey edits k found := by
  simp only [runKey, filter_cons, decide_eq_true_eq, if_neg h]

variable {items items' : List α} {edits : List μ}

theorem sorted_apply (hsorted : Sorted E.key items)
    (h : E.apply items edit = some items') : Sorted E.key items' := by
  obtain ⟨outcome, _, rfl⟩ := Option.map_eq_some_iff.mp h
  cases outcome with
  | none => exact sorted_erase hsorted
  | some a => exact sorted_insert hsorted

theorem lookup_apply (h : E.apply items edit = some items') (k : κ) :
    E.runKey [edit] k (lookup E.key items k) = some (lookup E.key items' k) := by
  obtain ⟨outcome, heffect, rfl⟩ := Option.map_eq_some_iff.mp h
  by_cases hk : E.target edit = k
  · subst hk
    rw [runKey_cons_same, heffect]
    cases outcome with
    | none => simp [place, lookup_erase]
    | some a => simp [place, lookup_insert, E.key_effect heffect]
  · rw [runKey_cons_other hk]
    cases outcome with
    | none => simp [place, lookup_erase, hk]
    | some a => simp [place, lookup_insert, E.key_effect heffect, hk]

theorem runKey_cons (h : E.apply items edit = some items') (edits : List μ) (k : κ) :
    E.runKey (edit :: edits) k (lookup E.key items k) =
      E.runKey edits k (lookup E.key items' k) := by
  have hlookup := lookup_apply h k
  by_cases hk : E.target edit = k
  · subst hk
    rw [runKey_cons_same, runKey_nil, Option.bind_fun_some] at hlookup
    rw [runKey_cons_same, hlookup, Option.bind_some]
  · rw [runKey_cons_other hk] at hlookup ⊢
    rw [Option.some.inj hlookup]

/-- A batch succeeds with a given result exactly when it does so key by key. -/
theorem run_eq_some_iff (hsorted : Sorted E.key items) (edits : List μ) :
    E.run items edits = some items' ↔
      Sorted E.key items' ∧
        ∀ k, E.runKey edits k (lookup E.key items k) = some (lookup E.key items' k) := by
  induction edits generalizing items with
  | nil =>
    constructor
    · rintro ⟨⟩
      exact ⟨hsorted, fun _ => rfl⟩
    · rintro ⟨hsorted', h⟩
      rw [run_nil, hsorted.ext hsorted' fun k => Option.some.inj (h k)]
  | cons edit edits ih =>
    rw [run_cons]
    cases happly : E.apply items edit with
    | some next =>
      grind [sorted_apply, runKey_cons]
    | none =>
      -- The refused edit refuses its own key.
      refine iff_of_false nofun ?_
      rintro ⟨_, h⟩
      have hrefused := h (E.target edit)
      rw [runKey_cons_same, Option.map_eq_none_iff.mp happly] at hrefused
      cases hrefused

theorem run_congr (hsorted : Sorted E.key items)
    (h : ∀ k, edits.filter (fun edit => E.target edit = k) =
      edits'.filter fun edit => E.target edit = k) : E.run items edits = E.run items edits' := by
  ext items'
  simp [*, run_eq_some_iff, runKey]

section Locality

variable {left right : List α}

theorem apply_append_left (h : ∀ b ∈ right, E.target edit < E.key b) :
    E.apply (left ++ right) edit = (E.apply left edit).map (· ++ right) := by
  have hlookup : lookup E.key right (E.target edit) = none :=
    lookup_eq_none.mpr fun b hb => (h b hb).ne'
  unfold apply
  rw [lookup_append, hlookup, Option.or_none, Option.map_map]
  refine Option.map_congr fun outcome houtcome => ?_
  cases outcome with
  | none =>
    simp only [place, Function.comp_apply, erase_append,
      erase_eq_self fun b hb => (h b hb).ne']
  | some a =>
    have ha := E.key_effect houtcome
    simp [place, insert_append_left fun b hb => ha ▸ h b hb]

theorem apply_append_right (h : ∀ a ∈ left, E.key a < E.target edit) :
    E.apply (left ++ right) edit = (E.apply right edit).map (left ++ ·) := by
  have hlookup : lookup E.key left (E.target edit) = none :=
    lookup_eq_none.mpr fun a ha => (h a ha).ne
  unfold apply
  rw [lookup_append, hlookup, Option.none_or, Option.map_map]
  refine Option.map_congr fun outcome houtcome => ?_
  cases outcome with
  | none =>
    simp only [place, Function.comp_apply, erase_append,
      erase_eq_self fun a ha => (h a ha).ne]
  | some b =>
    have hb := E.key_effect houtcome
    simp [place, insert_append_right fun a ha => hb ▸ h a ha]

theorem run_append_left
    (h : ∀ edit ∈ edits, ∀ b ∈ right, E.target edit < E.key b) :
    E.run (left ++ right) edits = (E.run left edits).map (· ++ right) := by
  induction edits generalizing left with
  | nil => rfl
  | cons edit edits ih =>
    obtain ⟨hedit, hedits⟩ := forall_mem_cons.mp h
    rw [run_cons, run_cons, apply_append_left hedit]
    cases E.apply left edit with
    | none => rfl
    | some left' => exact ih hedits

theorem run_append_right
    (h : ∀ edit ∈ edits, ∀ a ∈ left, E.key a < E.target edit) :
    E.run (left ++ right) edits = (E.run right edits).map (left ++ ·) := by
  induction edits generalizing right with
  | nil => rfl
  | cons edit edits ih =>
    obtain ⟨hedit, hedits⟩ := forall_mem_cons.mp h
    rw [run_cons, run_cons, apply_append_right hedit]
    cases E.apply right edit with
    | none => rfl
    | some right' => exact ih hedits

end Locality

theorem mem_run (h : E.run items edits = some items') (ha : a ∈ items') :
    a ∈ items ∨ ∃ edit ∈ edits, ∃ found, E.effect edit found = some (some a) := by
  induction edits generalizing items with
  | nil =>
    cases h
    exact .inl ha
  | cons edit edits ih =>
    rw [run_cons] at h
    obtain ⟨next, happly, h⟩ := Option.bind_eq_some_iff.mp h
    rcases ih h with hmem | ⟨edit', hmem, hkey⟩
    · obtain ⟨outcome, heffect, rfl⟩ := Option.map_eq_some_iff.mp happly
      cases outcome with
      | none => exact .inl (mem_filter.mp hmem).1
      | some b =>
        rcases mem_insert hmem with rfl | hmem
        · exact .inr ⟨edit, mem_cons_self, _, heffect⟩
        · exact .inl hmem
    · exact .inr ⟨edit', mem_cons_of_mem edit hmem, hkey⟩

theorem run_append_append {left right : List α}
    (hright : ∀ edit ∈ edits, ∀ b ∈ right, E.target edit < E.key b)
    (hleft : ∀ edit ∈ edits', ∀ a ∈ left, E.key a < E.target edit)
    (hedits : ∀ edit ∈ edits, ∀ edit' ∈ edits', E.target edit < E.target edit') :
    E.run (left ++ right) (edits ++ edits') =
      (E.run left edits).bind fun left' => (E.run right edits').map (left' ++ ·) := by
  rw [run_append, run_append_left hright]
  cases hrun : E.run left edits with
  | none => rfl
  | some left' =>
    refine run_append_right ?_
    intro edit' hedit' a ha
    rcases mem_run hrun ha with ha | ⟨edit, hedit, found, heffect⟩
    · exact hleft edit' hedit' a ha
    · rw [E.key_effect heffect]
      exact hedits edit hedit edit' hedit'

/-- A stable sort by key does what the batch does. -/
theorem run_mergeSort (hsorted : Sorted E.key items) (edits : List μ) :
    E.run items (edits.mergeSort fun a b => E.target a ≤ E.target b) = E.run items edits := by
  refine run_congr hsorted fun k => ?_
  have htrans : ∀ a b c : μ, decide (E.target a ≤ E.target b) = true →
      decide (E.target b ≤ E.target c) = true → decide (E.target a ≤ E.target c) = true := by
    simp only [decide_eq_true_eq]
    exact fun _ _ _ => le_trans
  have htotal : ∀ a b : μ,
      (decide (E.target a ≤ E.target b) || decide (E.target b ≤ E.target a)) = true := by
    simp only [Bool.or_eq_true, decide_eq_true_eq]
    exact fun a b => le_total _ _
  have hsub : (edits.filter fun edit => E.target edit = k).Sublist
      (edits.mergeSort fun a b => E.target a ≤ E.target b) := by
    refine sublist_mergeSort htrans htotal ?_ filter_sublist
    refine pairwise_of_forall_mem_list fun a ha b hb => ?_
    have ha := of_decide_eq_true (mem_filter.mp ha).2
    have hb := of_decide_eq_true (mem_filter.mp hb).2
    simp [ha, hb]
  have hfilter := hsub.filter fun edit => E.target edit = k
  rw [filter_filter] at hfilter
  simp only [Bool.and_self] at hfilter
  exact (hfilter.eq_of_length
    ((mergeSort_perm edits _).filter _).length_eq.symm).symm

theorem sorted_run (hsorted : Sorted E.key items)
    (h : E.run items edits = some items') : Sorted E.key items' :=
  ((run_eq_some_iff hsorted edits).mp h).1

end Editing

end KeyedList
