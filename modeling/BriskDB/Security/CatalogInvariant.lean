import BriskDB.Security.DocumentRoles

/-! # What catalog edits keep

A catalog is well formed when every user has resolvable roles: existing ones, not too many, with
a union that fits a policy. Identities are distinct and below the next one. Every edit keeps this,
so a resolution of a user's roles never fails in a catalog that edits made.
-/

namespace BriskDB.Security

open Result Dictionary List Finset

namespace SecurityCatalog

variable {resolve resolve' : SecurityName → Option Policy} {names : Finset SecurityName}
  {catalog next : SecurityCatalog} {name : SecurityName}

def carried (resolve : SecurityName → Option Policy) (role : SecurityName) : Finset Privilege :=
  ((resolve role).map Policy.privileges).getD ∅

/-- Roles that a user may have together. -/
structure Resolvable (resolve : SecurityName → Option Policy) (names : Finset SecurityName) :
    Prop where
  card_le : names.card ≤ maxPolicyRoles
  known : ∀ role ∈ names, ∃ policy, resolve role = some policy
  union_le : (names.biUnion (carried resolve)).card ≤ maxPolicyPrivileges

variable {policy : Policy} {policies : List Policy} {verifier : ScramSha256Verifier}

theorem expectRole_eq_ok {found : Option Policy} :
    expectRole found = .ok policy ↔ found = some policy := by
  cases found <;> simp [expectRole]

variable {roles : List SecurityName}

theorem known_of_forall₂
    (h : List.Forall₂ (fun role policy => resolve role = some policy) roles policies)
    {role : SecurityName} (hrole : role ∈ roles) : ∃ policy, resolve role = some policy := by
  induction h with
  | nil => cases hrole
  | cons hhead _ ih =>
    grind

theorem forall₂_of_known (h : ∀ role ∈ roles, ∃ policy, resolve role = some policy) :
    ∃ policies, List.Forall₂ (fun role policy => resolve role = some policy) roles policies := by
  induction roles with
  | nil => exact ⟨[], .nil⟩
  | cons role roles ih =>
    obtain ⟨policy, hpolicy⟩ := h role mem_cons_self
    obtain ⟨policies, hpolicies⟩ := ih (forall_mem_cons.mp h).2
    exact ⟨policy :: policies, .cons hpolicy hpolicies⟩

theorem union_eq_biUnion
    (h : List.Forall₂ (fun role policy => resolve role = some policy) roles policies) :
    Policy.union policies = roles.toFinset.biUnion (carried resolve) := by
  induction h with
  | nil => rfl
  | cons hhead _ ih =>
    rw [toFinset_cons, biUnion_insert, ← ih, carried, hhead]
    rfl

/-- Roles resolve to the union of their privileges, exactly when they may be had together. -/
theorem resolvePolicy_eq_ok :
    resolvePolicy resolve names = .ok policy ↔
      names.card ≤ maxPolicyRoles ∧ (∀ role ∈ names, ∃ policy, resolve role = some policy) ∧
        policy.privileges = names.biUnion (carried resolve) := by
  unfold resolvePolicy
  rw [bind_eq_ok]
  simp only [mapM_eq_ok, expectRole_eq_ok, Policy.combine_eq_ok]
  constructor
  · rintro ⟨policies, hfound, hlength, hunion⟩
    rw [← hfound.length_eq, length_sort] at hlength
    rw [union_eq_biUnion hfound, sort_toFinset] at hunion
    refine ⟨hlength, fun role hrole => ?_, hunion⟩
    exact known_of_forall₂ hfound ((mem_sort _).mpr hrole)
  · rintro ⟨hcard, hknown, hunion⟩
    obtain ⟨policies, hfound⟩ := @forall₂_of_known resolve (names.sort (· ≤ ·))
      fun role hrole => hknown role ((mem_sort _).mp hrole)
    refine ⟨policies, hfound, ?_, ?_⟩
    · rw [← hfound.length_eq, length_sort]
      exact hcard
    · rw [union_eq_biUnion hfound, sort_toFinset]
      exact hunion

theorem resolvable_iff :
    Resolvable resolve names ↔ ∃ policy, resolvePolicy resolve names = .ok policy := by
  constructor
  · intro h
    exact ⟨⟨_, h.union_le⟩, resolvePolicy_eq_ok.mpr ⟨h.card_le, h.known, rfl⟩⟩
  · rintro ⟨policy, hpolicy⟩
    obtain ⟨hcard, hknown, hunion⟩ := resolvePolicy_eq_ok.mp hpolicy
    exact ⟨hcard, hknown, hunion ▸ policy.card_le⟩

namespace Resolvable

theorem congr (h : Resolvable resolve names)
    (hsame : ∀ role ∈ names, resolve' role = resolve role) : Resolvable resolve' names where
  card_le := h.card_le
  known := fun role hrole => (hsame role hrole).symm ▸ h.known role hrole
  union_le := by
    have hunion : names.biUnion (carried resolve') = names.biUnion (carried resolve) := by
      apply biUnion_congr rfl
      intro role hrole
      rw [carried, carried, hsame role hrole]
    rw [hunion]
    exact h.union_le

theorem subset (h : Resolvable resolve names) {fewer : Finset SecurityName}
    (hsubset : fewer ⊆ names) : Resolvable resolve fewer where
  card_le := (card_le_card hsubset).trans h.card_le
  known := fun role hrole => h.known role (hsubset hrole)
  union_le := (card_le_card (biUnion_subset_biUnion_of_subset_left _ hsubset)).trans
    h.union_le

end Resolvable

theorem validateRoles_spec (h : catalog.validateRoles roles = .ok names) :
    names = roles.toFinset ∧ Resolvable catalog.roles.lookup names := by
  unfold validateRoles at h
  obtain ⟨⟨⟩, -, h⟩ := bind_eq_ok.mp h
  obtain ⟨policy, hpolicy, h⟩ := bind_eq_ok.mp h
  cases h
  exact ⟨rfl, resolvable_iff.mpr ⟨policy, hpolicy⟩⟩

theorem validateRoles_of_resolvable (h : Resolvable catalog.roles.lookup names) :
    catalog.validateRoles (names.sort (· ≤ ·)) = .ok names := by
  unfold validateRoles
  refine bind_eq_ok.mpr ⟨⟨⟩, forM_eq_ok.mpr ?_, ?_⟩
  · rintro ⟨role, index⟩ hentry
    have hitem := mem_zipIdx_iff_getElem?.mp hentry
    obtain ⟨hindex, -⟩ := List.getElem?_eq_some_iff.mp hitem
    rw [length_sort] at hindex
    have hknown := h.known role ((mem_sort _).mp (List.mem_of_getElem? hitem))
    refine ite_throw_eq_ok.mpr ⟨Nat.not_le.mpr (hindex.trans_le h.card_le), ?_⟩
    rw [if_neg (not_not.mpr (Finmap.mem_iff.mpr hknown))]
    rfl
  · obtain ⟨policy, hpolicy⟩ := resolvable_iff.mp h
    simp [*]

theorem currentUser_spec {principal : Principal} {user : User}
    (h : catalog.currentUser principal = .ok user) :
    catalog.users.lookup principal.user = some user ∧ user.id = principal.userId ∧
      user.credentialGeneration = principal.credentialGeneration := by
  unfold currentUser at h
  split at h
  next => cases h
  next =>
    split at h
    next => cases h
    next found hfound =>
      grind

theorem createRole_spec (h : catalog.createRole name policy = .ok next) :
    name ∉ catalog.roles ∧ catalog.roles.size ≠ maxSecurityRoles ∧
      next = { catalog with roles := catalog.roles.insert name policy } := by
  unfold createRole at h
  rw [ite_throw_eq_ok, ite_throw_eq_ok] at h
  obtain ⟨hfresh, hroom, h⟩ := h
  cases h
  exact ⟨hfresh, hroom, rfl⟩

theorem replaceRole_spec (h : catalog.replaceRole name policy = .ok next) :
    name ∈ catalog.roles ∧
      (∀ owner user, catalog.users.lookup owner = some user → name ∈ user.roles →
        Resolvable (catalog.roles.insert name policy).lookup user.roles) ∧
      next = { catalog with roles := catalog.roles.insert name policy } := by
  unfold replaceRole at h
  rw [ite_throw_eq_ok] at h
  obtain ⟨hknown, h⟩ := h
  obtain ⟨⟨⟩, hmembers, h⟩ := bind_eq_ok.mp h
  cases h
  refine ⟨not_not.mp hknown, fun owner user huser hmember => ?_, rfl⟩
  have hchecked := forM_eq_ok.mp hmembers user
    (mem_filter.mpr ⟨mem_values.mpr ⟨owner, huser⟩, decide_eq_true hmember⟩)
  obtain ⟨resolved, hresolved, -⟩ := bind_eq_ok.mp hchecked
  refine (resolvable_iff.mpr ⟨resolved, hresolved⟩).congr fun role _ => ?_
  exact lookup_insert_eq catalog.roles name role policy

theorem dropRole_spec (h : catalog.dropRole name = .ok next) :
    name ∈ catalog.roles ∧
      next = { catalog with
        roles := catalog.roles.erase name
        users := catalog.users.mapValues
          fun user => { user with roles := user.roles.erase name } } := by
  unfold dropRole at h
  rw [ite_throw_eq_ok] at h
  obtain ⟨hknown, h⟩ := h
  cases h
  exact ⟨not_not.mp hknown, rfl⟩

theorem createUser_spec (h : catalog.createUser name verifier roles = .ok next) :
    name ∉ catalog.users ∧ catalog.users.size ≠ maxSecurityUsers ∧
      Resolvable catalog.roles.lookup roles.toFinset ∧ catalog.nextUserId + 1 < 2 ^ 64 ∧
      next = { catalog with
        users := catalog.users.insert name ⟨catalog.nextUserId, 1, verifier, roles.toFinset⟩
        nextUserId := catalog.nextUserId + 1 } := by
  unfold createUser at h
  rw [ite_throw_eq_ok, ite_throw_eq_ok] at h
  obtain ⟨hfresh, hroom, h⟩ := h
  obtain ⟨validated, hvalidated, h⟩ := bind_eq_ok.mp h
  obtain ⟨rfl, hresolvable⟩ := validateRoles_spec hvalidated
  rw [ite_throw_eq_ok] at h
  obtain ⟨hid, h⟩ := h
  cases h
  exact ⟨hfresh, hroom, hresolvable, Nat.not_le.mp hid, rfl⟩

theorem editUser_spec {change : User → EngineResult User}
    (h : catalog.editUser name change = .ok next) :
    ∃ user changed, catalog.users.lookup name = some user ∧ change user = .ok changed ∧
      next = { catalog with users := catalog.users.insert name changed } := by
  unfold editUser at h
  split at h
  next => cases h
  next user huser =>
    obtain ⟨changed, hchanged, h⟩ := bind_eq_ok.mp h
    cases h
    exact ⟨user, changed, huser, hchanged, rfl⟩

theorem setUserRoles_spec (h : catalog.setUserRoles name roles = .ok next) :
    ∃ user, catalog.users.lookup name = some user ∧
      Resolvable catalog.roles.lookup roles.toFinset ∧
      next = { catalog with
        users := catalog.users.insert name { user with roles := roles.toFinset } } := by
  obtain ⟨user, changed, huser, hchanged, rfl⟩ := editUser_spec h
  obtain ⟨validated, hvalidated, hchanged⟩ := bind_eq_ok.mp hchanged
  obtain ⟨rfl, hresolvable⟩ := validateRoles_spec hvalidated
  cases hchanged
  exact ⟨user, huser, hresolvable, rfl⟩

theorem grantUserRoles_spec (h : catalog.grantUserRoles name roles = .ok next) :
    ∃ user, catalog.users.lookup name = some user ∧
      Resolvable catalog.roles.lookup (user.roles ∪ roles.toFinset) ∧
      next = { catalog with
        users := catalog.users.insert name
          { user with roles := user.roles ∪ roles.toFinset } } := by
  unfold grantUserRoles at h
  obtain ⟨additions, hadditions, h⟩ := bind_eq_ok.mp h
  obtain ⟨rfl, -⟩ := validateRoles_spec hadditions
  obtain ⟨user, changed, huser, hchanged, rfl⟩ := editUser_spec h
  obtain ⟨combined, hcombined, hchanged⟩ := bind_eq_ok.mp hchanged
  obtain ⟨hset, hresolvable⟩ := validateRoles_spec hcombined
  rw [sort_toFinset] at hset
  subst hset
  cases hchanged
  exact ⟨user, huser, hresolvable, rfl⟩

theorem revokeUserRoles_spec (h : catalog.revokeUserRoles name roles = .ok next) :
    ∃ user, catalog.users.lookup name = some user ∧
      next = { catalog with
        users := catalog.users.insert name
          { user with roles := user.roles \ roles.toFinset } } := by
  obtain ⟨user, changed, huser, hchanged, rfl⟩ := editUser_spec h
  rw [ite_throw_eq_ok] at hchanged
  cases hchanged.2
  exact ⟨user, huser, rfl⟩

theorem rotateCredentials_spec (h : catalog.rotateCredentials name verifier = .ok next) :
    ∃ user, catalog.users.lookup name = some user ∧ user.credentialGeneration + 1 < 2 ^ 64 ∧
      next = { catalog with
        users := catalog.users.insert name { user with
          verifier := verifier
          credentialGeneration := user.credentialGeneration + 1 } } := by
  obtain ⟨user, changed, huser, hchanged, rfl⟩ := editUser_spec h
  rw [ite_throw_eq_ok] at hchanged
  obtain ⟨hgeneration, hchanged⟩ := hchanged
  cases hchanged
  exact ⟨user, huser, Nat.not_le.mp hgeneration, rfl⟩

theorem dropUser_spec (h : catalog.dropUser name = .ok next) :
    name ∈ catalog.users ∧ next = { catalog with users := catalog.users.erase name } := by
  unfold dropUser at h
  rw [ite_throw_eq_ok] at h
  obtain ⟨hknown, h⟩ := h
  cases h
  exact ⟨not_not.mp hknown, rfl⟩

structure UserOk (catalog : SecurityCatalog) (user : User) : Prop where
  resolvable : Resolvable catalog.roles.lookup user.roles
  id_pos : 0 < user.id
  id_lt : user.id < catalog.nextUserId
  generation_pos : 0 < user.credentialGeneration
  generation_lt : user.credentialGeneration < 2 ^ 64

structure WellFormed (catalog : SecurityCatalog) : Prop where
  user : ∀ {name user}, catalog.users.lookup name = some user → UserOk catalog user
  id_inj : ∀ {name other user user'}, catalog.users.lookup name = some user →
    catalog.users.lookup other = some user' → user.id = user'.id → name = other
  next_pos : 0 < catalog.nextUserId
  next_lt : catalog.nextUserId < 2 ^ 64
  users_size : catalog.users.size ≤ maxSecurityUsers
  roles_size : catalog.roles.size ≤ maxSecurityRoles

theorem wellFormed_new (identity : Nat) : WellFormed (new identity) where
  user := fun h => absurd h (by simp [new])
  id_inj := fun h => absurd h (by simp [new])
  next_pos := Nat.one_pos
  next_lt := by
    unfold new
    norm_num
  users_size := Nat.zero_le _
  roles_size := Nat.zero_le _

namespace WellFormed

section

variable (h : WellFormed catalog)
include h

theorem identity (identity : Nat) : WellFormed { catalog with identity := identity } where
  user := fun huser => ⟨(h.user huser).resolvable, (h.user huser).id_pos, (h.user huser).id_lt,
    (h.user huser).generation_pos, (h.user huser).generation_lt⟩
  id_inj := h.id_inj
  next_pos := h.next_pos
  next_lt := h.next_lt
  users_size := h.users_size
  roles_size := h.roles_size

theorem setRoles {roles : Dictionary SecurityName Policy} (hsize : roles.size ≤ maxSecurityRoles)
    (husers : ∀ owner user, catalog.users.lookup owner = some user →
      Resolvable roles.lookup user.roles) : WellFormed { catalog with roles := roles } where
  user := fun huser => ⟨husers _ _ huser, (h.user huser).id_pos, (h.user huser).id_lt,
    (h.user huser).generation_pos, (h.user huser).generation_lt⟩
  id_inj := h.id_inj
  next_pos := h.next_pos
  next_lt := h.next_lt
  users_size := h.users_size
  roles_size := hsize

theorem addRole (hfresh : name ∉ catalog.roles)
    (hsize : catalog.roles.size < maxSecurityRoles) (policy : Policy) :
    WellFormed { catalog with roles := catalog.roles.insert name policy } := by
  apply h.setRoles
  · exact (size_insert_le catalog.roles name policy).trans hsize
  · intro owner user huser
    refine (h.user huser).resolvable.congr fun role hrole => ?_
    rw [lookup_insert_eq, if_neg]
    rintro rfl
    exact hfresh (Finmap.mem_iff.mpr ((h.user huser).resolvable.known role hrole))

/-- A user keeps its identity and gets other resolvable roles or credentials. -/
theorem setUser {user changed : User}
    (huser : catalog.users.lookup name = some user) (hid : changed.id = user.id)
    (hpos : 0 < changed.credentialGeneration) (hlt : changed.credentialGeneration < 2 ^ 64)
    (hroles : Resolvable catalog.roles.lookup changed.roles) :
    WellFormed { catalog with users := catalog.users.insert name changed } where
  user := by
    intro owner found hfound
    rw [lookup_insert_eq] at hfound
    split at hfound
    next =>
      cases hfound
      exact ⟨hroles, hid ▸ (h.user huser).id_pos, hid ▸ (h.user huser).id_lt, hpos, hlt⟩
    next =>
      obtain ⟨hresolvable, hidPos, hidLt, hgenPos, hgenLt⟩ := h.user hfound
      exact ⟨hresolvable, hidPos, hidLt, hgenPos, hgenLt⟩
  id_inj := by
    -- The changed user is looked up under its own name with the identity it had.
    have hold : ∀ owner found, (catalog.users.insert name changed).lookup owner = some found →
        ∃ old, catalog.users.lookup owner = some old ∧ old.id = found.id := by
      intro owner found hfound
      rw [lookup_insert_eq] at hfound
      split at hfound
      next heq =>
        cases hfound
        exact ⟨user, heq ▸ huser, hid.symm⟩
      next => exact ⟨found, hfound, rfl⟩
    intro owner other found found' hfound hfound' hids
    obtain ⟨old, hlookup, hsame⟩ := hold owner found hfound
    obtain ⟨old', hlookup', hsame'⟩ := hold other found' hfound'
    exact h.id_inj hlookup hlookup' (hsame.trans (hids.trans hsame'.symm))
  next_pos := h.next_pos
  next_lt := h.next_lt
  users_size := by
    rw [size_insert_of_mem (Finmap.mem_of_lookup_eq_some huser)]
    exact h.users_size
  roles_size := h.roles_size

theorem setUserRoles' {user : User} {roles : Finset SecurityName}
    (huser : catalog.users.lookup name = some user)
    (hroles : Resolvable catalog.roles.lookup roles) :
    WellFormed { catalog with users := catalog.users.insert name { user with roles := roles } } :=
  h.setUser huser rfl (h.user huser).generation_pos (h.user huser).generation_lt hroles

theorem createRole (hedit : catalog.createRole name policy = .ok next) : WellFormed next := by
  obtain ⟨hfresh, hroom, rfl⟩ := createRole_spec hedit
  exact h.addRole hfresh (lt_of_le_of_ne h.roles_size hroom) policy

theorem replaceRole (hedit : catalog.replaceRole name policy = .ok next) : WellFormed next := by
  obtain ⟨hknown, hmembers, rfl⟩ := replaceRole_spec hedit
  apply h.setRoles
  · rw [size_insert_of_mem hknown]
    exact h.roles_size
  · intro owner user huser
    by_cases hmember : name ∈ user.roles
    · exact hmembers owner user huser hmember
    · refine (h.user huser).resolvable.congr fun role hrole => ?_
      rw [lookup_insert_eq, if_neg]
      grind

theorem dropRole (hedit : catalog.dropRole name = .ok next) : WellFormed next := by
  obtain ⟨-, rfl⟩ := dropRole_spec hedit
  -- Every user of the result is one of the catalog that lost the role.
  have hold : ∀ owner found, (catalog.users.mapValues
      fun user => { user with roles := user.roles.erase name }).lookup owner = some found →
        ∃ user, catalog.users.lookup owner = some user ∧
          found = { user with roles := user.roles.erase name } := by
    intro owner found hfound
    rw [lookup_mapValues] at hfound
    obtain ⟨user, huser, rfl⟩ := Option.map_eq_some_iff.mp hfound
    exact ⟨user, huser, rfl⟩
  constructor
  · intro owner found hfound
    obtain ⟨user, huser, rfl⟩ := hold owner found hfound
    obtain ⟨hresolvable, hidPos, hidLt, hgenPos, hgenLt⟩ := h.user huser
    refine ⟨?_, hidPos, hidLt, hgenPos, hgenLt⟩
    refine (hresolvable.subset (erase_subset name user.roles)).congr fun role hrole => ?_
    simp only
    rw [lookup_erase_eq, if_neg (ne_of_mem_erase hrole)]
  · intro owner other found found' hfound hfound' hids
    obtain ⟨user, huser, rfl⟩ := hold owner found hfound
    obtain ⟨user', huser', rfl⟩ := hold other found' hfound'
    exact h.id_inj huser huser' hids
  · exact h.next_pos
  · exact h.next_lt
  · simp only
    rw [size, keys_mapValues]
    exact h.users_size
  · exact (size_erase_le catalog.roles name).trans h.roles_size

end

variable {roles : List SecurityName}

section

variable (h : WellFormed catalog)
include h

theorem createUser
    (hedit : catalog.createUser name verifier roles = .ok next) : WellFormed next := by
  obtain ⟨hfresh, hroom, hresolvable, hid, rfl⟩ := createUser_spec hedit
  -- A user of the result is the new one, or an old one with a smaller identity.
  have hcases : ∀ owner found,
      (catalog.users.insert name ⟨catalog.nextUserId, 1, verifier, roles.toFinset⟩).lookup owner =
        some found → (owner = name ∧ found.id = catalog.nextUserId) ∨
          catalog.users.lookup owner = some found := by
    intro owner found hfound
    rw [lookup_insert_eq] at hfound
    split at hfound
    next heq =>
      grind
    next => exact .inr hfound
  constructor
  · intro owner found hfound
    rw [lookup_insert_eq] at hfound
    split at hfound
    next =>
      cases hfound
      exact ⟨hresolvable, h.next_pos, Nat.lt_succ_self _, Nat.one_pos, by norm_num⟩
    next =>
      obtain ⟨hresolvable, hidPos, hidLt, hgenPos, hgenLt⟩ := h.user hfound
      exact ⟨hresolvable, hidPos, Nat.lt_succ_of_lt hidLt, hgenPos, hgenLt⟩
  · intro owner other found found' hfound hfound' hids
    rcases hcases owner found hfound with ⟨rfl, hnew⟩ | hlookup <;>
      rcases hcases other found' hfound' with ⟨rfl, hnew'⟩ | hlookup'
    · rfl
    · have := (h.user hlookup').id_lt
      omega
    · have := (h.user hlookup).id_lt
      omega
    · exact h.id_inj hlookup hlookup' hids
  · exact Nat.succ_pos _
  · exact hid
  · exact (size_insert_le catalog.users name _).trans
      (lt_of_le_of_ne h.users_size hroom)
  · exact h.roles_size

theorem setUserRoles (hedit : catalog.setUserRoles name roles = .ok next) : WellFormed next := by
  obtain ⟨user, huser, hresolvable, rfl⟩ := setUserRoles_spec hedit
  exact h.setUserRoles' huser hresolvable

theorem grantUserRoles
    (hedit : catalog.grantUserRoles name roles = .ok next) : WellFormed next := by
  obtain ⟨user, huser, hresolvable, rfl⟩ := grantUserRoles_spec hedit
  exact h.setUserRoles' huser hresolvable

theorem revokeUserRoles
    (hedit : catalog.revokeUserRoles name roles = .ok next) : WellFormed next := by
  obtain ⟨user, huser, rfl⟩ := revokeUserRoles_spec hedit
  exact h.setUserRoles' huser ((h.user huser).resolvable.subset sdiff_subset)

theorem rotateCredentials
    (hedit : catalog.rotateCredentials name verifier = .ok next) : WellFormed next := by
  obtain ⟨user, huser, hgeneration, rfl⟩ := rotateCredentials_spec hedit
  exact h.setUser huser rfl (Nat.succ_pos _) hgeneration (h.user huser).resolvable

theorem dropUser (hedit : catalog.dropUser name = .ok next) : WellFormed next := by
  obtain ⟨-, rfl⟩ := dropUser_spec hedit
  have hold : ∀ owner found, (catalog.users.erase name).lookup owner = some found →
      catalog.users.lookup owner = some found := by
    intro owner found hfound
    rw [lookup_erase_eq] at hfound
    split at hfound
    next => cases hfound
    next => exact hfound
  constructor
  · intro owner found hfound
    obtain ⟨hresolvable, hidPos, hidLt, hgenPos, hgenLt⟩ := h.user (hold owner found hfound)
    exact ⟨hresolvable, hidPos, hidLt, hgenPos, hgenLt⟩
  · intro owner other found found' hfound hfound' hids
    exact h.id_inj (hold owner found hfound) (hold other found' hfound') hids
  · exact h.next_pos
  · exact h.next_lt
  · exact (size_erase_le catalog.users name).trans h.users_size
  · exact h.roles_size

end

end WellFormed

theorem validateDocumentRolePolicy_eq_ok :
    validateDocumentRolePolicy name policy = .ok () ↔
      ∀ grant ∈ policy.privileges, grant.scope.confined name.realm = true := by
  simp [validateDocumentRolePolicy]

theorem updateDocumentRole_spec {policy : Option Policy}
    (h : catalog.updateDocumentRole name policy = .ok next) :
    (policy = none ∧ next = catalog) ∨
      ∃ replacement, policy = some replacement ∧
        (∀ grant ∈ replacement.privileges, grant.scope.confined name.realm = true) ∧
        catalog.replaceRole name replacement = .ok next := by
  unfold updateDocumentRole at h
  obtain ⟨⟨⟩, hvalid, h⟩ := bind_eq_ok.mp h
  rw [ite_throw_eq_ok] at h
  cases policy with
  | none =>
    cases h.2
    exact .inl ⟨rfl, rfl⟩
  | some replacement =>
    exact .inr ⟨replacement, rfl, validateDocumentRolePolicy_eq_ok.mp hvalid, h.2⟩

theorem revokeDocumentRolePrivileges_spec {removals : Policy}
    (h : catalog.revokeDocumentRolePrivileges name removals = .ok next) :
    ∃ current, catalog.roles.lookup name = some current ∧
      catalog.replaceRole name (current.without removals) = .ok next := by
  unfold revokeDocumentRolePrivileges at h
  obtain ⟨⟨⟩, -, h⟩ := bind_eq_ok.mp h
  split at h
  next => cases h
  · simp [*]

theorem grantDocumentRolePrivileges_spec {additions : Policy}
    (h : catalog.grantDocumentRolePrivileges name additions = .ok next) :
    ∃ current combined, catalog.roles.lookup name = some current ∧
      (∀ grant ∈ additions.privileges, grant.scope.confined name.realm = true) ∧
      combined.privileges = current.privileges ∪ additions.privileges ∧
      catalog.replaceRole name combined = .ok next := by
  unfold grantDocumentRolePrivileges at h
  obtain ⟨⟨⟩, hvalid, h⟩ := bind_eq_ok.mp h
  split at h
  next => cases h
  next current hcurrent =>
    obtain ⟨combined, hcombined, h⟩ := bind_eq_ok.mp h
    refine ⟨current, combined, hcurrent, validateDocumentRolePolicy_eq_ok.mp hvalid, ?_, h⟩
    rw [(Policy.combine_eq_ok.mp hcombined).2]
    simp [Policy.union]

theorem provisionMongoDataRoles_spec {database : String}
    (h : catalog.provisionMongoDataRoles database = .ok next) :
    ∃ readName readWriteName readPolicy readWritePolicy, readName ≠ readWriteName ∧
      readName ∉ catalog.roles ∧ readWriteName ∉ catalog.roles ∧
      catalog.roles.size + 2 ≤ maxSecurityRoles ∧
      next = { catalog with
        roles := (catalog.roles.insert readName readPolicy).insert readWriteName
          readWritePolicy } := by
  unfold provisionMongoDataRoles at h
  obtain ⟨readName, hreadName, h⟩ := bind_eq_ok.mp h
  obtain ⟨readPolicy, -, h⟩ := bind_eq_ok.mp h
  obtain ⟨readWriteName, hreadWriteName, h⟩ := bind_eq_ok.mp h
  obtain ⟨readWritePolicy, -, h⟩ := bind_eq_ok.mp h
  rw [ite_throw_eq_ok, ite_throw_eq_ok] at h
  obtain ⟨hfresh, hroom, h⟩ := h
  cases h
  have hname : ∀ {text : String} {made : SecurityName}, SecurityName.new database text = .ok made →
      made.name = text := by
    intro text made hmade
    unfold SecurityName.new at hmade
    split at hmade
    next =>
      grind
    next => cases hmade
  refine ⟨readName, readWriteName, readPolicy, readWritePolicy, ?_, fun hmem => hfresh (.inl hmem),
    fun hmem => hfresh (.inr hmem), Nat.not_lt.mp hroom, rfl⟩
  rintro rfl
  have hsame := (hname hreadName).symm.trans (hname hreadWriteName)
  exact absurd hsame (by decide)

/-- Everything that a trusted caller can do to a catalog. -/
inductive Edit
  | createRole (name : SecurityName) (policy : Policy)
  | replaceRole (name : SecurityName) (policy : Policy)
  | dropRole (name : SecurityName)
  | createUser (name : SecurityName) (verifier : ScramSha256Verifier) (roles : List SecurityName)
  | setUserRoles (name : SecurityName) (roles : List SecurityName)
  | grantUserRoles (name : SecurityName) (roles : List SecurityName)
  | revokeUserRoles (name : SecurityName) (roles : List SecurityName)
  | rotateCredentials (name : SecurityName) (verifier : ScramSha256Verifier)
  | dropUser (name : SecurityName)
  | updateDocumentRole (name : SecurityName) (policy : Option Policy)
  | revokeDocumentRolePrivileges (name : SecurityName) (removals : Policy)
  | grantDocumentRolePrivileges (name : SecurityName) (additions : Policy)
  | provisionMongoDataRoles (database : String)

def Edit.apply (edit : Edit) (catalog : SecurityCatalog) : EngineResult SecurityCatalog :=
  match edit with
  | .createRole name policy => catalog.createRole name policy
  | .replaceRole name policy => catalog.replaceRole name policy
  | .dropRole name => catalog.dropRole name
  | .createUser name verifier roles => catalog.createUser name verifier roles
  | .setUserRoles name roles => catalog.setUserRoles name roles
  | .grantUserRoles name roles => catalog.grantUserRoles name roles
  | .revokeUserRoles name roles => catalog.revokeUserRoles name roles
  | .rotateCredentials name verifier => catalog.rotateCredentials name verifier
  | .dropUser name => catalog.dropUser name
  | .updateDocumentRole name policy => catalog.updateDocumentRole name policy
  | .revokeDocumentRolePrivileges name removals =>
    catalog.revokeDocumentRolePrivileges name removals
  | .grantDocumentRolePrivileges name additions =>
    catalog.grantDocumentRolePrivileges name additions
  | .provisionMongoDataRoles database => catalog.provisionMongoDataRoles database

theorem WellFormed.edit (h : WellFormed catalog) {edit : Edit}
    (hedit : edit.apply catalog = .ok next) : WellFormed next := by
  cases edit with
  | createRole name policy => exact h.createRole hedit
  | replaceRole name policy => exact h.replaceRole hedit
  | dropRole name => exact h.dropRole hedit
  | createUser name verifier roles => exact h.createUser hedit
  | setUserRoles name roles => exact h.setUserRoles hedit
  | grantUserRoles name roles => exact h.grantUserRoles hedit
  | revokeUserRoles name roles => exact h.revokeUserRoles hedit
  | rotateCredentials name verifier => exact h.rotateCredentials hedit
  | dropUser name => exact h.dropUser hedit
  | updateDocumentRole name policy =>
    rcases updateDocumentRole_spec hedit with ⟨-, rfl⟩ | ⟨replacement, -, -, hreplace⟩
    · exact h
    · exact h.replaceRole hreplace
  | revokeDocumentRolePrivileges name removals =>
    obtain ⟨current, -, hreplace⟩ := revokeDocumentRolePrivileges_spec hedit
    exact h.replaceRole hreplace
  | grantDocumentRolePrivileges name additions =>
    obtain ⟨current, combined, -, -, -, hreplace⟩ := grantDocumentRolePrivileges_spec hedit
    exact h.replaceRole hreplace
  | provisionMongoDataRoles database =>
    obtain ⟨readName, readWriteName, readPolicy, readWritePolicy, hne, hread, hreadWrite, hroom,
      rfl⟩ := provisionMongoDataRoles_spec hedit
    have hfirst := h.addRole hread (by omega) readPolicy
    refine hfirst.addRole ?_ ?_ readWritePolicy
    · rw [Finmap.mem_insert, not_or]
      exact ⟨hne.symm, hreadWrite⟩
    · grind [size_insert_le]

end SecurityCatalog

end BriskDB.Security
