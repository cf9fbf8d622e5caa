import Mathlib

/-! # Ledgers of granted numbers

Numbers are granted to holders from a head that only moves up, and each is issued
by its holder at most once. A ledger is sound when no number has two holders and
no held or unissued number was issued. Granting, handing over, issuing and
forgetting keep a ledger sound, so nothing is ever issued twice.
-/

universe u

/-- The head of a sequence, what every holder may still issue, and what was issued. -/
structure Ledger (H : Type u) where
  head : Nat
  held : H → Nat → Prop
  issued : List Nat

namespace Ledger

open List

variable {H : Type u}

structure Sound (ledger : Ledger H) : Prop where
  held_below : ∀ holder n, ledger.held holder n → 1 ≤ n ∧ n < ledger.head
  held_fresh : ∀ holder n, ledger.held holder n → n ∉ ledger.issued
  held_once : ∀ holder other n, ledger.held holder n → ledger.held other n → holder = other
  issued_below : ∀ n ∈ ledger.issued, 1 ≤ n ∧ n < ledger.head
  issued_nodup : ledger.issued.Nodup

namespace Sound

variable {before after : Ledger H}

section

variable (h : before.Sound)
include h

theorem forget (hhead : before.head ≤ after.head) (hissued : after.issued = before.issued)
    (hheld : ∀ holder n, after.held holder n → before.held holder n) : after.Sound where
  held_below holder n hn := by
    have hbelow := h.held_below holder n (hheld holder n hn)
    omega
  held_fresh holder n hn := by
    rw [hissued]
    exact h.held_fresh holder n (hheld holder n hn)
  held_once holder other n hn hother :=
    h.held_once holder other n (hheld holder n hn) (hheld other n hother)
  issued_below n hn := by
    rw [hissued] at hn
    have hbelow := h.issued_below n hn
    omega
  issued_nodup := hissued ▸ h.issued_nodup

theorem grant (holder : H) (hpos : 1 ≤ before.head)
    (hhead : before.head ≤ after.head) (hissued : after.issued = before.issued)
    (hheld : ∀ other n, after.held other n →
      before.held other n ∨ other = holder ∧ before.head ≤ n ∧ n < after.head) : after.Sound where
  held_below other n hn := by
    rcases hheld other n hn with hold | ⟨-, hle, hlt⟩
    · have hbelow := h.held_below other n hold
      omega
    · omega
  held_fresh other n hn := by
    rw [hissued]
    rcases hheld other n hn with hold | ⟨-, hle, -⟩
    · exact h.held_fresh other n hold
    · intro hmem
      have hbelow := h.issued_below n hmem
      omega
  held_once first second n hfirst hsecond := by
    rcases hheld first n hfirst with hold | ⟨rfl, hle, -⟩
    · have hbelow := h.held_below first n hold
      rcases hheld second n hsecond with hold' | ⟨-, hle', -⟩
      · exact h.held_once first second n hold hold'
      · omega
    · rcases hheld second n hsecond with hold' | ⟨rfl, -, -⟩
      · have hbelow := h.held_below second n hold'
        omega
      · rfl
  issued_below n hn := by
    rw [hissued] at hn
    have hbelow := h.issued_below n hn
    omega
  issued_nodup := hissued ▸ h.issued_nodup

theorem handOver (source target : H) (hhead : after.head = before.head)
    (hissued : after.issued = before.issued) (hheld : ∀ holder n, after.held holder n →
      holder = target ∧ before.held source n ∨
        holder ≠ source ∧ holder ≠ target ∧ before.held holder n) : after.Sound where
  held_below holder n hn := by
    rw [hhead]
    rcases hheld holder n hn with ⟨-, hold⟩ | ⟨-, -, hold⟩
    · exact h.held_below source n hold
    · exact h.held_below holder n hold
  held_fresh holder n hn := by
    rw [hissued]
    rcases hheld holder n hn with ⟨-, hold⟩ | ⟨-, -, hold⟩
    · exact h.held_fresh source n hold
    · exact h.held_fresh holder n hold
  held_once first second n hfirst hsecond := by
    rcases hheld first n hfirst with ⟨rfl, hold⟩ | ⟨hne, -, hold⟩
    · rcases hheld second n hsecond with ⟨rfl, -⟩ | ⟨hne', -, hold'⟩
      · rfl
      · exact absurd (h.held_once second source n hold' hold) hne'
    · rcases hheld second n hsecond with ⟨rfl, hold'⟩ | ⟨-, -, hold'⟩
      · exact absurd (h.held_once first source n hold hold') hne
      · exact h.held_once first second n hold hold'
  issued_below n hn := by
    rw [hhead]
    exact h.issued_below n (hissued ▸ hn)
  issued_nodup := hissued ▸ h.issued_nodup

theorem issue (holder : H) (number : Nat) (hnumber : before.held holder number)
    (hhead : after.head = before.head) (hissued : after.issued = before.issued ++ [number])
    (hheld : ∀ other n, after.held other n →
      before.held other n ∧ (other = holder → n ≠ number)) : after.Sound where
  held_below other n hn := by
    rw [hhead]
    exact h.held_below other n (hheld other n hn).1
  held_fresh other n hn := by
    obtain ⟨hold, hnot⟩ := hheld other n hn
    rw [hissued, mem_append, mem_singleton, not_or]
    refine ⟨h.held_fresh other n hold, ?_⟩
    rintro rfl
    exact hnot (h.held_once other holder n hold hnumber) rfl
  held_once first second n hfirst hsecond :=
    h.held_once first second n (hheld first n hfirst).1 (hheld second n hsecond).1
  issued_below n hn := by
    rw [hhead]
    rw [hissued, mem_append, mem_singleton] at hn
    rcases hn with hn | rfl
    · exact h.issued_below n hn
    · exact h.held_below holder n hnumber
  issued_nodup := by
    rw [hissued, nodup_append]
    refine ⟨h.issued_nodup, nodup_singleton number, ?_⟩
    rintro n hn m hm rfl
    rw [mem_singleton] at hm
    exact h.held_fresh holder number hnumber (hm ▸ hn)

end

end Sound

/-- The moves of a ledger. -/
inductive Step (before after : Ledger H) : Prop
  | forget (hhead : before.head ≤ after.head) (hissued : after.issued = before.issued)
      (hheld : ∀ holder n, after.held holder n → before.held holder n)
  | grant (holder : H) (hpos : 1 ≤ before.head) (hhead : before.head ≤ after.head)
      (hissued : after.issued = before.issued)
      (hheld : ∀ other n, after.held other n →
        before.held other n ∨ other = holder ∧ before.head ≤ n ∧ n < after.head)
  | handOver (source target : H) (hhead : after.head = before.head)
      (hissued : after.issued = before.issued)
      (hheld : ∀ holder n, after.held holder n →
        holder = target ∧ before.held source n ∨
          holder ≠ source ∧ holder ≠ target ∧ before.held holder n)
  | issue (holder : H) (number : Nat) (hnumber : before.held holder number)
      (hhead : after.head = before.head) (hissued : after.issued = before.issued ++ [number])
      (hheld : ∀ other n, after.held other n →
        before.held other n ∧ (other = holder → n ≠ number))

namespace Step

variable {before after : Ledger H}

/-- Every move keeps a ledger sound. -/
theorem sound (hstep : Step before after) (h : before.Sound) : after.Sound := by
  cases hstep with
  | forget hhead hissued hheld => exact h.forget hhead hissued hheld
  | grant holder hpos hhead hissued hheld => exact h.grant holder hpos hhead hissued hheld
  | handOver source target hhead hissued hheld => exact h.handOver source target hhead hissued hheld
  | issue holder number hnumber hhead hissued hheld =>
    exact h.issue holder number hnumber hhead hissued hheld

/-- While the head stands still, a ledger that nobody holds numbers of stays so. -/
theorem drained (hstep : Step before after) (hhead : after.head = before.head)
    (h : ∀ holder n, ¬ before.held holder n) : ∀ holder n, ¬ after.held holder n := by
  intro holder n hn
  cases hstep with
  | forget _ _ hheld => exact h holder n (hheld holder n hn)
  | grant owner _ _ _ hheld =>
    grind
  | handOver source target _ _ hheld =>
    grind
  | issue owner number hnumber _ _ _ => exact h owner number hnumber

end Step

end Ledger
