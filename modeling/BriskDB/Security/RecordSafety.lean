import BriskDB.Security.Commands

/-! # Records keep catalogs whole

A reachable catalog is read back from its record, and whatever record is accepted, the catalog of
it meets the invariant of reachable catalogs. The source looks up the policies of roles in three
places and stops where one is missing; in a reachable catalog none of them is.
-/

namespace BriskDB.Security

namespace SecurityCatalog

open Result Dictionary

variable {catalog : SecurityCatalog} {resolve : SecurityName → Option Policy}
  {names : Finset SecurityName}

theorem combine_ne (policies : List Policy) : Policy.combine policies ≠ .error roleInvariant := by
  have hfold : ∀ state, policies.foldlM Policy.combineStep state ≠ .error roleInvariant := by
    induction policies with
    | nil => nofun
    | cons policy policies ih =>
      intro state h
      obtain hstep | ⟨next, -, hrest⟩ := bind_eq_error.mp h
      · unfold Policy.combineStep at hstep
        split at hstep
        next => cases hstep
        next => split at hstep <;> cases hstep
      · exact ih next hrest
  intro h
  unfold Policy.combine at h
  generalize hstate : policies.foldlM Policy.combineStep _ = state at h
  cases state with
  | ok => cases h
  | error error =>
    cases h
    exact hfold _ hstate

theorem resolvePolicy_ne (h : ∀ role ∈ names, ∃ policy, resolve role = some policy) :
    resolvePolicy resolve names ≠ .error roleInvariant := by
  intro hresolve
  obtain ⟨policies, hpolicies⟩ := @forall₂_of_known resolve (names.sort (· ≤ ·))
    fun role hrole => h role ((Finset.mem_sort _).mp hrole)
  simp only [← expectRole_eq_ok] at hpolicies
  obtain hmissing | ⟨found, -, hcombine⟩ := bind_eq_error.mp hresolve
  · cases hmissing.symm.trans (mapM_eq_ok.mpr hpolicies)
  · exact combine_ne found hcombine

theorem validateRoles_ne (roles : List SecurityName) :
    catalog.validateRoles roles ≠ .error roleInvariant := by
  intro h
  obtain hcheck | ⟨⟨⟩, hcheck, h⟩ := bind_eq_error.mp h
  · obtain ⟨entry, -, hentry⟩ := exists_of_forM_eq_error hcheck
    obtain ⟨-, hlimit⟩ | ⟨-, hknown⟩ := ite_throw_eq_error.mp hentry
    · cases hlimit
    · split at hknown <;> cases hknown
  · obtain hresolve | ⟨policy, -, h⟩ := bind_eq_error.mp h
    · refine resolvePolicy_ne (fun role hrole => ?_) hresolve
      obtain ⟨index, hindex⟩ := List.mem_iff_getElem?.mp (List.mem_toFinset.mp hrole)
      have hentry := forM_eq_ok.mp hcheck (role, index) (List.mem_zipIdx_iff_getElem?.mpr hindex)
      have hknown := (ite_throw_eq_ok.mp hentry).2
      split at hknown
      next => cases hknown
      next hmem => exact Finmap.mem_iff.mp (not_not.mp hmem)
    · cases h

theorem replaceRole_ne (h : WellFormed catalog) (name : SecurityName) (policy : Policy) :
    catalog.replaceRole name policy ≠ .error roleInvariant := by
  intro hreplace
  obtain ⟨-, hmissing⟩ | ⟨-, hmembers⟩ := ite_throw_eq_error.mp hreplace
  · cases hmissing
  obtain hmembers | ⟨⟨⟩, -, hdone⟩ := bind_eq_error.mp hmembers
  · obtain ⟨user, huser, hfails⟩ := exists_of_forM_eq_error hmembers
    obtain hresolve | ⟨policy, -, hdone⟩ := bind_eq_error.mp hfails
    · obtain ⟨owner, howner⟩ := mem_values.mp (List.mem_filter.mp huser).1
      refine resolvePolicy_ne (fun role hrole => ?_) hresolve
      split
      next => exact ⟨_, rfl⟩
      next => exact (h.user howner).resolvable.known role hrole
    · cases hdone
  · cases hdone

/-- Every role that the source expects in the catalog is there. -/
structure FindsRoles (catalog : SecurityCatalog) : Prop where
  current : ∀ principal user, catalog.currentUser principal = .ok user →
    ∃ policy, catalog.currentPolicy principal = .ok policy
  requested : ∀ roles, catalog.validateRoles roles ≠ .error roleInvariant
  members : ∀ name policy, catalog.replaceRole name policy ≠ .error roleInvariant

theorem WellFormed.findsRoles (h : WellFormed catalog) : FindsRoles catalog where
  current := by
    intro principal user huser
    obtain ⟨hlookup, -⟩ := currentUser_spec huser
    obtain ⟨policy, hpolicy⟩ := resolvable_iff.mp (h.user hlookup).resolvable
    exact ⟨policy, bind_eq_ok.mpr ⟨user, huser, hpolicy⟩⟩
  requested := validateRoles_ne
  members := replaceRole_ne h

/-- A reachable catalog has a record unless it is too large, and is read back from it in a new
incarnation. -/
theorem records_keep_catalogs {blake3 : List UInt8 → Blake3.Digest} :
    (∀ catalog, Reachable blake3 catalog →
      (∀ error, catalog.toRecord blake3 = .error error → error = limitExceeded) ∧
      (∀ identity bytes, catalog.toRecord blake3 = .ok bytes →
        fromRecord blake3 identity bytes = .ok { catalog with identity := identity }) ∧
      FindsRoles catalog) ∧
    ∀ identity bytes catalog, fromRecord blake3 identity bytes = .ok catalog →
      Reachable blake3 catalog ∧ WellFormed catalog ∧
        ∀ name policy, catalog.roles.lookup name = some policy →
          ∀ grant ∈ policy.privileges, grant.scope.accepts grant.action.resourceKind = true := by
  refine ⟨fun catalog h => ⟨fun error herror => ?_, fun identity bytes hrecord => ?_, ?_⟩, ?_⟩
  · have hroles : ∀ user ∈ catalog.users.values, ∀ role ∈ user.roles, role ∈ catalog.roleNames := by
      intro user huser role hrole
      obtain ⟨owner, howner⟩ := mem_values.mp huser
      have hknown := (h.wellFormed.user howner).resolvable.known role hrole
      exact RecordReader.mem_roleNames.mpr (Finmap.mem_iff.mpr hknown)
    rw [toRecord, encode, if_pos hroles] at herror
    obtain ⟨-, hlimit⟩ | ⟨-, herror⟩ := ite_throw_eq_error.mp herror
    · exact hlimit.symm
    · cases herror
  · exact fromRecord_toRecord h.wellFormed identity hrecord
  · exact h.wellFormed.findsRoles
  · intro identity bytes catalog h
    exact ⟨.restored h, wellFormed_of_fromRecord h, fun _ policy _ grant _ => grant.accepted⟩

/-- The role of the staff may read every collection of a database that is not the system's, which
takes a record of version 2. -/
def Staffed.reading : SecurityCatalog :=
  Staffed.edited Staffed.staff (.replaceRole Staffed.admin
    ⟨{⟨.readData, ⟨.nonSystemDocumentCollections "app", rfl⟩, rfl⟩}, by decide⟩)

theorem records_keep_catalogs_staffed :
    (∃ bytes, Staffed.staff.toRecord Blake3.hash = .ok bytes ∧ bytes.take 8 = magic ∧
      fromRecord Blake3.hash 1 bytes = .ok { Staffed.staff with identity := 1 }) ∧
    ∃ bytes, Staffed.reading.toRecord Blake3.hash = .ok bytes ∧ bytes.take 8 = magicV2 ∧
      fromRecord Blake3.hash 1 bytes = .ok { Staffed.reading with identity := 1 } := by
  have hkeeps : ∀ catalog first, Reachable Blake3.hash catalog →
      (catalog.toRecord Blake3.hash).toOption.map (·.take 8) = some first →
      ∃ bytes, catalog.toRecord Blake3.hash = .ok bytes ∧ bytes.take 8 = first ∧
        fromRecord Blake3.hash 1 bytes = .ok { catalog with identity := 1 } := by
    intro catalog first hcatalog hfirst
    obtain ⟨bytes, hbytes, hfirst⟩ := Option.map_eq_some_iff.mp hfirst
    obtain ⟨_, hrecord⟩ := exists_of_toOption (Option.isSome_of_mem hbytes)
    rw [hrecord] at hbytes
    cases hbytes
    exact ⟨bytes, hrecord, hfirst, (records_keep_catalogs.1 catalog hcatalog).2.1 1 bytes hrecord⟩
  exact ⟨hkeeps _ _ (Staffed.reachable _) (by decide +kernel),
    hkeeps _ _ (Staffed.reachable_edited (Staffed.reachable _) _) (by decide +kernel)⟩

end SecurityCatalog

end BriskDB.Security
