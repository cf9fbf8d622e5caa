import Mathlib

/-! # Fallible computations

Rules that take a successful sequence of fallible steps apart, one step at a
time.
-/

namespace Result

open List

universe u v

variable {ε : Type u} {α β : Type v}

@[simp] theorem ok_bind (value : α) (next : α → Except ε β) :
    (Except.ok value >>= next) = next value := rfl

@[simp] theorem error_bind (error : ε) (next : α → Except ε β) :
    (Except.error error >>= next) = Except.error error := rfl

@[simp] theorem pure_eq (value : α) : (pure value : Except ε α) = Except.ok value := rfl

variable {first : Except ε α} {items : List α}
  {next f : α → Except ε β} {result : β} {check : Prop} {error : ε} {rest : Except ε β}
    {images : List β}

theorem bind_eq_ok :
    (first >>= next) = .ok result ↔ ∃ value, first = .ok value ∧ next value = .ok result := by
  cases first with
  | error error =>
    simp
  | ok value =>
    simp

theorem bind_eq_error :
    (first >>= next) = .error error ↔
      first = .error error ∨ ∃ value, first = .ok value ∧ next value = .error error := by
  cases first <;> simp

theorem map_eq_ok {f : α → β} :
    f <$> first = .ok result ↔ ∃ value, first = .ok value ∧ f value = result := by
  cases first with
  | error error => exact ⟨nofun, fun ⟨_, h, _⟩ => (by cases h)⟩
  | ok value =>
    simp

theorem exists_of_toOption {result : Except ε α} (h : result.toOption.isSome = true) :
    ∃ value, result = .ok value := by
  cases result with
  | error error => cases h
  | ok value => exact ⟨value, rfl⟩

theorem mapError_eq_ok {δ : Type u} {f : ε → δ} {result : α} :
    first.mapError f = .ok result ↔ first = .ok result := by
  cases first with
  | error error => exact ⟨nofun, nofun⟩
  | ok value => exact ⟨fun h => (by cases h; rfl), fun h => (by cases h; rfl)⟩

theorem ite_throw_eq_ok [Decidable check] :
    (if check then throw error >>= next else rest) = .ok result ↔
      ¬ check ∧ rest = .ok result := by
  split
  next hcheck =>
    constructor
    · intro h
      cases h
    · exact fun h => absurd hcheck h.1
  · simp [*]

theorem ite_error_eq_ok [Decidable check] :
    (if check then .error error else rest) = .ok result ↔ ¬ check ∧ rest = .ok result := by
  split <;> simp [*]

/-- A sequence with a check that throws fails by the check or by what follows it. -/
theorem ite_throw_eq_error [Decidable check] {failure : ε} :
    (if check then throw error >>= next else rest) = .error failure ↔
      check ∧ error = failure ∨ ¬ check ∧ rest = .error failure := by
  by_cases hcheck : check
  · rw [if_pos hcheck]
    constructor
    · intro h
      cases h
      exact .inl ⟨hcheck, rfl⟩
    · rintro (⟨_, rfl⟩ | ⟨hnot, _⟩)
      · rfl
      · exact absurd hcheck hnot
  · simp [*]

/-- The computation has a value of the one kind or an error of the other. -/
def Ends (P : α → Prop) (failed : ε → Prop) : Except ε α → Prop
  | .ok value => P value
  | .error error => failed error

theorem Ends.bind {P : α → Prop} {Q : β → Prop} {failed : ε → Prop} (h : Ends P failed first)
    (hnext : ∀ value, P value → Ends Q failed (next value)) : Ends Q failed (first >>= next) := by
  cases first with
  | error error => exact h
  | ok value => exact hnext value h

theorem ends_iff {P : α → Prop} {failed : ε → Prop} : Ends P failed first ↔
    (∀ value, first = .ok value → P value) ∧ ∀ error, first = .error error → failed error := by
  cases first <;> simp [Ends]

theorem forM_eq_ok {f : α → Except ε PUnit} :
    items.forM f = .ok ⟨⟩ ↔ ∀ item ∈ items, f item = .ok ⟨⟩ := by
  induction items with
  | nil => exact ⟨nofun, fun _ => rfl⟩
  | cons head items ih =>
    have hstep : (head :: items).forM f = (f head >>= fun _ => items.forM f) := rfl
    rw [hstep, bind_eq_ok, forall_mem_cons, ← ih]
    exact ⟨fun ⟨⟨⟩, hhead, hrest⟩ => ⟨hhead, hrest⟩, fun ⟨hhead, hrest⟩ => ⟨⟨⟩, hhead, hrest⟩⟩

theorem exists_of_forM_eq_error {f : α → Except ε PUnit} (h : items.forM f = .error error) :
    ∃ item ∈ items, f item = .error error := by
  induction items with
  | nil => cases h
  | cons head items ih =>
    obtain hhead | ⟨⟨⟩, -, hrest⟩ := bind_eq_error.mp h
    · exact ⟨head, mem_cons_self, hhead⟩
    · simp [*]

theorem mapM_eq_ok :
    items.mapM f = .ok images ↔
      List.Forall₂ (fun item image => f item = .ok image) items images := by
  induction items generalizing images with
  | nil => simp
  | cons head items ih =>
    rw [mapM_cons, bind_eq_ok, forall₂_cons_left_iff]
    constructor
    · rintro ⟨first, hfirst, h⟩
      obtain ⟨rest, hrest, h⟩ := bind_eq_ok.mp h
      cases h
      exact ⟨first, rest, hfirst, ih.mp hrest, rfl⟩
    · rintro ⟨first, rest, hfirst, hrest, rfl⟩
      exact ⟨first, hfirst, bind_eq_ok.mpr ⟨rest, ih.mpr hrest, rfl⟩⟩

theorem mem_of_mapM_eq_ok
    (h : items.mapM f = .ok images) {item : α} {image : β} (hitem : item ∈ items)
    (himage : f item = .ok image) : image ∈ images := by
  induction items generalizing images with
  | nil => cases hitem
  | cons head items ih =>
    rw [mapM_cons] at h
    obtain ⟨first, hfirst, h⟩ := bind_eq_ok.mp h
    obtain ⟨rest, hrest, h⟩ := bind_eq_ok.mp h
    cases h
    grind

end Result
