import BriskDB.Security.CatalogInvariant

/-! # Lineage of catalogs

A catalog may replace another one when it does not take back what was said about an identity: the
next identity does not decrease, an identity keeps its name, its credential generation does not
decrease, and a generation keeps its verifier. The relation is transitive along well-formed
catalogs, so a reader may skip any number of them; and credentials that one of them no longer has
never come back.
-/

namespace BriskDB.Security

namespace SecurityCatalog

variable {catalog middle successor : SecurityCatalog}

/-- What may follow a catalog, for one user. -/
def Continues (catalog : SecurityCatalog) (name : SecurityName) (next : User) : Prop :=
  (∃ previous, catalog.users.lookup name = some previous ∧ previous.id = next.id ∧
    previous.credentialGeneration ≤ next.credentialGeneration ∧
    (previous.credentialGeneration = next.credentialGeneration →
      previous.verifier = next.verifier)) ∨
  ((∀ previous, catalog.users.lookup name = some previous → previous.id ≠ next.id) ∧
    catalog.nextUserId ≤ next.id)

/-- What may replace a catalog. -/
structure Precedes (catalog successor : SecurityCatalog) : Prop where
  next_le : catalog.nextUserId ≤ successor.nextUserId
  user : ∀ {name next}, successor.users.lookup name = some next → catalog.Continues name next

theorem validateSuccessorUser_eq_ok {name : SecurityName} {next : User} :
    catalog.validateSuccessorUser name next = .ok () ↔ catalog.Continues name next := by
  unfold validateSuccessorUser Continues
  cases hlookup : catalog.users.lookup name with
  | none => simp
  | some previous =>
    by_cases hid : previous.id = next.id
    · have hfilter : (some previous).filter (fun user => decide (user.id = next.id)) =
          some previous := by
        simp [Option.filter, hid]
      rw [hfilter]
      simp only [Option.some.injEq, exists_eq_left', hid, true_and, forall_eq', ne_eq,
        not_true_eq_false, false_and, or_false]
      split
      next hrewind => exact ⟨nofun, fun h => absurd hrewind (Nat.not_lt.mpr h.1)⟩
      next hkept =>
        split
        next hchanged =>
          grind
        next hsame =>
          refine ⟨fun _ => ⟨Nat.not_lt.mp hkept, fun hequal => ?_⟩, fun _ => rfl⟩
          by_contra hne
          exact hsame ⟨hequal.symm, fun h => hne (ScramSha256Verifier.toRecord_injective h)⟩
    · simp [*, Option.filter]

theorem validateSuccessor_eq_ok :
    catalog.validateSuccessor successor = .ok () ↔ catalog.Precedes successor := by
  unfold validateSuccessor
  rw [Result.ite_throw_eq_ok, Result.forM_eq_ok]
  simp only [validateSuccessorUser_eq_ok, Dictionary.mem_toList, Nat.not_lt, Prod.forall]
  exact ⟨fun h => ⟨h.1, fun {name next} => h.2 name next⟩,
    fun h => ⟨h.next_le, fun name next => h.user⟩⟩

namespace Precedes

theorem refl (catalog : SecurityCatalog) : catalog.Precedes catalog where
  next_le := le_rfl
  user := fun {_ next} huser => .inl ⟨next, huser, rfl, le_rfl, fun _ => rfl⟩

/-- An identity of the first catalog is below every identity that is new after it. -/
theorem trans (hcatalog : WellFormed catalog) (hfirst : catalog.Precedes middle)
    (hsecond : middle.Precedes successor) : catalog.Precedes successor where
  next_le := hfirst.next_le.trans hsecond.next_le
  user := by
    intro name next hnext
    rcases hsecond.user hnext with ⟨between, hbetween, hid, hgeneration, hverifier⟩ | ⟨hother, hnew⟩
    · -- The user was there in between, so what holds of it there is carried on.
      rcases hfirst.user hbetween with ⟨previous, hprevious, hid', hgeneration', hverifier'⟩ |
        ⟨hother, hnew⟩
      · refine .inl ⟨previous, hprevious, hid'.trans hid, hgeneration'.trans hgeneration, ?_⟩
        grind
      · exact .inr ⟨fun previous hprevious => hid ▸ hother previous hprevious, hid ▸ hnew⟩
    · have hbeyond : catalog.nextUserId ≤ next.id := hfirst.next_le.trans hnew
      refine .inr ⟨fun previous hprevious => ?_, hbeyond⟩
      exact ((hcatalog.user hprevious).id_lt.trans_le hbeyond).ne

end Precedes

/-- The catalog has the user with this identity and this credential generation. -/
def HasCredentials (catalog : SecurityCatalog) (name : SecurityName) (id generation : Nat) : Prop :=
  ∃ user, catalog.users.lookup name = some user ∧ user.id = id ∧
    user.credentialGeneration = generation

/-- The identity was given before, and if it is there its credentials are newer. -/
def Superseded (catalog : SecurityCatalog) (name : SecurityName) (id generation : Nat) : Prop :=
  id < catalog.nextUserId ∧ ∀ user, catalog.users.lookup name = some user → user.id = id →
    generation < user.credentialGeneration

variable {name : SecurityName} {id generation : Nat}

theorem Superseded.not_hasCredentials (h : catalog.Superseded name id generation) :
    ¬ catalog.HasCredentials name id generation := by
  rintro ⟨user, huser, hid, hgeneration⟩
  exact (h.2 user huser hid).ne hgeneration.symm

theorem Superseded.precedes (h : catalog.Superseded name id generation)
    (hprecedes : catalog.Precedes successor) : successor.Superseded name id generation := by
  refine ⟨h.1.trans_le hprecedes.next_le, fun user huser hid => ?_⟩
  rcases hprecedes.user huser with ⟨previous, hprevious, hsame, hle, -⟩ | ⟨-, hnew⟩
  · exact (h.2 previous hprevious (hsame.trans hid)).trans_le hle
  · exact absurd h.1 (Nat.not_lt.mpr (hid ▸ hnew))

theorem superseded_of_lost (hcatalog : WellFormed catalog) (hprecedes : catalog.Precedes successor)
    (hhad : catalog.HasCredentials name id generation)
    (hlost : ¬ successor.HasCredentials name id generation) :
    successor.Superseded name id generation := by
  obtain ⟨user, huser, rfl, rfl⟩ := hhad
  refine ⟨(hcatalog.user huser).id_lt.trans_le hprecedes.next_le, fun next hnext hid => ?_⟩
  rcases hprecedes.user hnext with ⟨previous, hprevious, -, hle, -⟩ | ⟨hother, -⟩
  · cases huser.symm.trans hprevious
    refine lt_of_le_of_ne hle fun hequal => hlost ⟨next, hnext, hid, hequal.symm⟩
  · exact absurd hid.symm (hother user huser)

end SecurityCatalog

end BriskDB.Security
