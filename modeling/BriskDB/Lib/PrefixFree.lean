import Mathlib

/-! # Prefix-free families of lists

In the lexicographic order everything between a list and one of its extensions is an
extension too. A sorted family is therefore prefix free as soon as no list is a prefix
of its successor.
-/

namespace PrefixFree

open List

variable {α : Type*} [LT α] [LE α] [Std.IsLinearOrder α] [Std.LawfulOrderLT α]

theorem prefix_of_le_append {start middle rest : List α} (hle : start ≤ middle)
    (hmiddle : middle ≤ start ++ rest) : start <+: middle := by
  induction start generalizing middle with
  | nil => exact nil_prefix
  | cons head start ih =>
    cases middle with
    | nil => exact absurd (List.nil_lt_cons head start) (List.not_lt.mpr hle)
    | cons first middle =>
      rw [cons_append] at hmiddle
      rw [cons_le_cons_iff] at hle hmiddle
      rcases hle with hlt | ⟨rfl, hle⟩
      · grind
      · grind

theorem pairwise_of_isChain {family : List (List α)} (hsorted : family.Pairwise (· ≤ ·))
    (hchain : family.IsChain fun left right => ¬ left <+: right) :
    family.Pairwise fun left right => ¬ left <+: right ∧ ¬ right <+: left := by
  induction family with
  | nil => exact List.Pairwise.nil
  | cons first family ih =>
    obtain ⟨hfirst, hsorted⟩ := pairwise_cons.mp hsorted
    refine pairwise_cons.mpr ⟨?_, ih hsorted hchain.tail⟩
    have hforward : ∀ list ∈ family, ¬ first <+: list := by
      intro list hlist hextends
      cases family with
      | nil => cases hlist
      | cons second family =>
        have hnext : ¬ first <+: second := (isChain_cons_cons.mp hchain).1
        obtain ⟨rest, rfl⟩ := hextends
        rcases mem_cons.mp hlist with rfl | hlater
        · exact hnext (prefix_append first rest)
        · -- the successor lies between the list and its extension
          have hbetween := (pairwise_cons.mp hsorted).1 _ hlater
          exact hnext (prefix_of_le_append (hfirst second mem_cons_self) hbetween)
    intro list hlist
    refine ⟨hforward list hlist, ?_⟩
    intro hextends
    have hsame : list = first := List.le_antisymm hextends.le (hfirst list hlist)
    exact hforward list hlist (hsame ▸ List.prefix_refl list)

end PrefixFree
