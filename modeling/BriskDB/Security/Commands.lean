import BriskDB.Security.RecordLaws

/-! # Typed security commands

A command that arrives for a principal is checked against the requirements that are derived from
it, and its edit is published with the revision that the check read. Users gain privileges in two
ways: by a role that they are given, and by a privilege that is added to a role of theirs. Every
command that can do either requires the right to grant roles in the realm of that role.
-/

namespace BriskDB.Security

open Result List Finset

def SecurityName.realmResource (name : SecurityName) : Resource :=
  ⟨.realm name.realm, name.realm_valid⟩

theorem securityRealm_realm (name : SecurityName) :
    Resource.securityRealm name.realm = .ok name.realmResource :=
  dif_pos name.realm_valid

/-- Role names of a command, a bounded number of them. -/
structure BoundedRoles (nonempty : Bool) where
  names : List SecurityName
  length_le : names.length ≤ maxPolicyRoles
  ne_nil : nonempty = true → names ≠ []

/-- A user command. -/
inductive UserManagementCommand
  | create (name : SecurityName) (password : EngineResult ScramSha256Verifier)
      (roles : BoundedRoles false)
  | changePassword (name : SecurityName) (password : EngineResult ScramSha256Verifier)
  | drop (name : SecurityName)
  | grantRoles (name : SecurityName) (roles : BoundedRoles true)
  | revokeRoles (name : SecurityName) (roles : BoundedRoles true)

namespace UserManagementCommand

def realm (name : SecurityName) : EngineResult Resource := Resource.securityRealm name.realm

def requireOnRealm (action : Action) (name : SecurityName) : EngineResult (Action × Resource) := do
  let resource ← realm name
  return (action, resource)

def requirements : UserManagementCommand → EngineResult (List (Action × Resource))
  | .create name _ roles => do
    let first ← requireOnRealm .createUser name
    let rest ← roles.names.mapM (requireOnRealm .grantRole)
    return first :: rest
  | .changePassword name _ => do return [← requireOnRealm .rotateCredentials name]
  | .drop name => do return [← requireOnRealm .dropUser name]
  | .grantRoles _ roles => roles.names.mapM (requireOnRealm .grantRole)
  | .revokeRoles _ roles => roles.names.mapM (requireOnRealm .revokeRole)

def apply (command : UserManagementCommand) (catalog : SecurityCatalog) :
    EngineResult SecurityCatalog :=
  match command with
  | .create name password roles => do
    let verifier ← password
    catalog.createUser name verifier roles.names
  | .changePassword name password => do
    let verifier ← password
    catalog.rotateCredentials name verifier
  | .drop name => catalog.dropUser name
  | .grantRoles name roles => catalog.grantUserRoles name roles.names
  | .revokeRoles name roles => catalog.revokeUserRoles name roles.names

end UserManagementCommand

/-- The commands of a session on users and document roles. -/
inductive SecurityCommand
  | executeUserManagement (command : UserManagementCommand)
  | createDocumentRole (name : SecurityName) (policy : Policy)
  | grantDocumentRolePrivileges (name : SecurityName) (additions : Policy)
  | updateDocumentRole (name : SecurityName) (replacement : Option Policy)
  | revokeDocumentRolePrivileges (name : SecurityName) (removals : Policy)
  | dropRole (name : SecurityName)

namespace SecurityCatalog

variable {catalog next : SecurityCatalog} {principal : Principal}

variable (catalog)

/-- An edit of a detached copy is published under the catalog's own identity. -/
def updateCurrent (detached : Nat)
    (edit : SecurityCatalog → EngineResult SecurityCatalog) : EngineResult SecurityCatalog := do
  let candidate ← edit { catalog with identity := detached }
  catalog.validateSuccessor candidate
  return { candidate with identity := catalog.identity }

def updateAuthorized (detached : Nat) (principal : Principal)
    (requirements : List (Action × Resource))
    (edit : SecurityCatalog → EngineResult SecurityCatalog) : EngineResult SecurityCatalog := do
  catalog.authorizeAll principal requirements
  catalog.updateCurrent detached edit

/-- A replacement can take away what the host provisioned, so it needs to revoke in all realms. -/
def authorizeDocumentRoleUpdate (principal : Principal)
    (name : SecurityName) (replacement : Option Policy) : EngineResult Unit := do
  let policy ← catalog.currentPolicy principal
  if ¬ ∃ grant ∈ policy.privileges,
      grant.action = .revokeRole ∧ grant.scope = Scope.allSecurityRealms then
    throw denied
  if replacement.isSome then
    let realm ← Resource.securityRealm name.realm
    policy.authorize .grantRole realm

def updateDocumentRoleAuthorized (detached : Nat)
    (principal : Principal) (name : SecurityName) (replacement : Option Policy) :
    EngineResult SecurityCatalog := do
  catalog.authorizeDocumentRoleUpdate principal name replacement
  catalog.updateCurrent detached fun candidate => candidate.updateDocumentRole name replacement

/-- A command of a principal at one revision of the catalog. -/
def execute (detached : Nat) (principal : Principal) :
    SecurityCommand → EngineResult SecurityCatalog
  | .executeUserManagement command => do
    let requirements ← command.requirements
    catalog.updateAuthorized detached principal requirements command.apply
  | .createDocumentRole name policy => do
    validateDocumentRolePolicy name policy
    let realm ← Resource.securityRealm name.realm
    catalog.updateAuthorized detached principal [(.createRole, realm), (.grantRole, realm)]
      fun candidate => candidate.createRole name policy
  | .grantDocumentRolePrivileges name additions => do
    validateDocumentRolePolicy name additions
    let realm ← Resource.securityRealm name.realm
    catalog.updateAuthorized detached principal [(.grantRole, realm)]
      fun candidate => candidate.grantDocumentRolePrivileges name additions
  | .updateDocumentRole name replacement => do
    replacement.forM (validateDocumentRolePolicy name)
    catalog.updateDocumentRoleAuthorized detached principal name replacement
  | .revokeDocumentRolePrivileges name removals => do
    validateDocumentRoleRevocations name removals
    let realm ← Resource.securityRealm name.realm
    catalog.updateAuthorized detached principal [(.revokeRole, realm)]
      fun candidate => candidate.revokeDocumentRolePrivileges name removals
  | .dropRole name => do
    let realm ← Resource.securityRealm name.realm
    catalog.updateAuthorized detached principal [(.dropRole, realm)]
      fun candidate => candidate.dropRole name

def Member (id : Nat) (role : SecurityName) : Prop :=
  ∃ name user, catalog.users.lookup name = some user ∧ user.id = id ∧ role ∈ user.roles

def MemberNamed (name role : SecurityName) : Prop :=
  ∃ user, catalog.users.lookup name = some user ∧ role ∈ user.roles

def Carries (role : SecurityName) (grant : Privilege) : Prop :=
  ∃ policy, catalog.roles.lookup role = some policy ∧ grant ∈ policy.privileges

def Holds (id : Nat) (grant : Privilege) : Prop :=
  ∃ role, catalog.Member id role ∧ catalog.Carries role grant

def MayGrant (principal : Principal) (role : SecurityName) : Prop :=
  catalog.authorize principal .grantRole role.realmResource = .ok ()

variable {catalog}

/-- The privilege covers nothing outside of the document database of the realm. -/
def ConfinedTo (realm : String) (grant : Privilege) : Prop :=
  ∀ resource, grant.scope.covers resource = true →
    resource.domain = some .document ∧ resource.databaseName = some realm

variable {requirements : List (Action × Resource)} {detached : Nat}
    {edit : SecurityCatalog → EngineResult SecurityCatalog}

theorem authorize_of_authorizeAll
    (h : catalog.authorizeAll principal requirements = .ok ()) {action : Action}
    {resource : Resource} (hmem : (action, resource) ∈ requirements) :
    catalog.authorize principal action resource = .ok () := by
  obtain ⟨policy, hpolicy, h⟩ := bind_eq_ok.mp h
  refine bind_eq_ok.mpr ⟨policy, hpolicy, Policy.authorize_eq_ok.mpr ?_⟩
  exact (Policy.authorizeAll_spec h).2 (action, resource) hmem

theorem updateCurrent_spec (h : catalog.updateCurrent detached edit = .ok next) :
    ∃ candidate, edit { catalog with identity := detached } = .ok candidate ∧
      catalog.validateSuccessor candidate = .ok () ∧
      next = { candidate with identity := catalog.identity } := by
  obtain ⟨candidate, hedit, h⟩ := bind_eq_ok.mp h
  obtain ⟨⟨⟩, hsuccessor, h⟩ := bind_eq_ok.mp h
  cases h
  exact ⟨candidate, hedit, hsuccessor, rfl⟩

theorem updateAuthorized_spec
    (h : catalog.updateAuthorized detached principal requirements edit = .ok next) :
    (∀ action resource, (action, resource) ∈ requirements →
      catalog.authorize principal action resource = .ok ()) ∧
    ∃ candidate, edit { catalog with identity := detached } = .ok candidate ∧
      next = { candidate with identity := catalog.identity } := by
  obtain ⟨⟨⟩, hauthorized, h⟩ := bind_eq_ok.mp h
  obtain ⟨candidate, hedit, -, rfl⟩ := updateCurrent_spec h
  exact ⟨fun action resource => authorize_of_authorizeAll hauthorized, candidate, hedit, rfl⟩

theorem updateDocumentRoleAuthorized_spec {name : SecurityName} {replacement : Option Policy}
    (h : catalog.updateDocumentRoleAuthorized detached principal name replacement = .ok next) :
    (replacement.isSome → catalog.MayGrant principal name) ∧
    ∃ candidate, updateDocumentRole { catalog with identity := detached } name replacement =
        .ok candidate ∧
      next = { candidate with identity := catalog.identity } := by
  obtain ⟨⟨⟩, hallowed, h⟩ := bind_eq_ok.mp h
  obtain ⟨candidate, hedit, -, rfl⟩ := updateCurrent_spec h
  refine ⟨fun hsome => ?_, candidate, hedit, rfl⟩
  obtain ⟨policy, hpolicy, hallowed⟩ := bind_eq_ok.mp hallowed
  rw [ite_throw_eq_ok, if_pos hsome, securityRealm_realm] at hallowed
  exact bind_eq_ok.mpr ⟨policy, hpolicy, hallowed.2⟩

theorem requireOnRealm_eq (action : Action) (name : SecurityName) :
    UserManagementCommand.requireOnRealm action name = .ok (action, name.realmResource) := by
  unfold UserManagementCommand.requireOnRealm UserManagementCommand.realm
  rw [securityRealm_realm]
  rfl

/-- Every membership and privilege was there before, or was assigned or added as allowed. -/
structure GrowsOnly (catalog next : SecurityCatalog) (assigned : SecurityName → SecurityName → Prop)
    (added : SecurityName → Privilege → Prop) : Prop where
  member : ∀ name user role, next.users.lookup name = some user → role ∈ user.roles →
    (∃ old, catalog.users.lookup name = some old ∧ old.id = user.id ∧ role ∈ old.roles) ∨
      assigned name role
  carries : ∀ role grant, next.Carries role grant → catalog.Carries role grant ∨ added role grant

namespace GrowsOnly

variable {assigned : SecurityName → SecurityName → Prop} {added : SecurityName → Privilege → Prop}
  {name : SecurityName}

theorem refl (catalog : SecurityCatalog) : GrowsOnly catalog catalog assigned added where
  member := fun _ user _ huser hrole => .inl ⟨user, huser, rfl, hrole⟩
  carries := fun _ _ h => .inl h

theorem of_insertUser {changed : User} (husers : next.users = catalog.users.insert name changed)
    (hroles : next.roles = catalog.roles) (hnew : ∀ role ∈ changed.roles,
      (∃ old, catalog.users.lookup name = some old ∧ old.id = changed.id ∧ role ∈ old.roles) ∨
        assigned name role) : GrowsOnly catalog next assigned added where
  member := by
    intro owner user role huser hrole
    rw [husers, Dictionary.lookup_insert_eq] at huser
    split at huser
    next heq =>
      grind
    · simp [*]
  carries := by
    grind [Carries]

theorem of_insertRole {policy : Policy} (husers : next.users = catalog.users)
    (hroles : next.roles = catalog.roles.insert name policy)
    (hnew : ∀ grant ∈ policy.privileges, catalog.Carries name grant ∨ added name grant) :
    GrowsOnly catalog next assigned added where
  member := by
    grind
  carries := by
    rintro role grant ⟨found, hfound, hgrant⟩
    rw [hroles, Dictionary.lookup_insert_eq] at hfound
    split at hfound
    next heq =>
      grind
    next => exact .inl ⟨found, hfound, hgrant⟩

theorem of_dropUser (h : catalog.dropUser name = .ok next) :
    GrowsOnly catalog next assigned added := by
  obtain ⟨-, rfl⟩ := dropUser_spec h
  refine ⟨fun owner user role huser hrole => ?_, fun _ _ hcarries => .inl hcarries⟩
  simp only [Dictionary.lookup_erase_eq] at huser
  grind

theorem of_dropRole (h : catalog.dropRole name = .ok next) :
    GrowsOnly catalog next assigned added := by
  obtain ⟨-, rfl⟩ := dropRole_spec h
  constructor
  · intro owner user role huser hrole
    simp only [Dictionary.lookup_mapValues] at huser
    obtain ⟨old, hold, rfl⟩ := Option.map_eq_some_iff.mp huser
    exact .inl ⟨old, hold, rfl, mem_of_mem_erase hrole⟩
  · rintro role grant ⟨policy, hpolicy, hgrant⟩
    simp only [Dictionary.lookup_erase_eq] at hpolicy
    split at hpolicy
    next => cases hpolicy
    next => exact .inl ⟨policy, hpolicy, hgrant⟩

theorem of_replaceRole {policy : Policy} (h : catalog.replaceRole name policy = .ok next)
    (hnew : ∀ grant ∈ policy.privileges, catalog.Carries name grant ∨ added name grant) :
    GrowsOnly catalog next assigned added := by
  obtain ⟨-, -, rfl⟩ := replaceRole_spec h
  exact of_insertRole rfl rfl hnew

theorem publish {identity : Nat}
    (h : GrowsOnly { catalog with identity := detached } next assigned added) :
    GrowsOnly catalog { next with identity := identity } assigned added :=
  ⟨h.member, h.carries⟩

end GrowsOnly

end SecurityCatalog

def SecurityCommand.Assigns (name role : SecurityName) : SecurityCommand → Prop
  | .executeUserManagement (.create user _ roles) => user = name ∧ role ∈ roles.names
  | .executeUserManagement (.grantRoles user roles) => user = name ∧ role ∈ roles.names
  | _ => False

namespace SecurityCatalog

variable {catalog next : SecurityCatalog} {principal : Principal} {detached : Nat}

def AllowedAssignment (catalog : SecurityCatalog) (principal : Principal)
    (command : SecurityCommand) (name role : SecurityName) : Prop :=
  command.Assigns name role ∧ catalog.MayGrant principal role

def AllowedAddition (catalog : SecurityCatalog) (principal : Principal) (role : SecurityName)
    (grant : Privilege) : Prop :=
  ConfinedTo role.realm grant ∧ catalog.MayGrant principal role

variable {name role : SecurityName}

theorem confinedTo_of_confined {policy : Policy}
    (h : ∀ grant ∈ policy.privileges, grant.scope.confined name.realm = true) {grant : Privilege}
    (hgrant : grant ∈ policy.privileges) : ConfinedTo name.realm grant :=
  fun _ hcovers => Scope.covers_of_confined (h grant hgrant) hcovers

theorem growsOnly_userManagement {command : UserManagementCommand}
    (h : catalog.execute detached principal (.executeUserManagement command) = .ok next) :
    GrowsOnly catalog next
      (catalog.AllowedAssignment principal (.executeUserManagement command))
      (catalog.AllowedAddition principal) := by
  obtain ⟨requirements, hrequirements, h⟩ := bind_eq_ok.mp h
  obtain ⟨hauthorized, candidate, hedit, rfl⟩ := updateAuthorized_spec h
  refine .publish (?_ : GrowsOnly { catalog with identity := detached } candidate _ _)
  cases command with
  | create name password roles =>
    obtain ⟨verifier, -, hedit⟩ := bind_eq_ok.mp hedit
    obtain ⟨-, -, -, -, rfl⟩ := createUser_spec hedit
    refine .of_insertUser rfl rfl fun role hrole => .inr ⟨⟨rfl, mem_toFinset.mp hrole⟩, ?_⟩
    obtain ⟨first, -, hrequirements⟩ := bind_eq_ok.mp hrequirements
    obtain ⟨rest, hrest, hrequirements⟩ := bind_eq_ok.mp hrequirements
    cases hrequirements
    refine hauthorized _ _ (mem_cons_of_mem _ ?_)
    exact mem_of_mapM_eq_ok hrest (mem_toFinset.mp hrole) (requireOnRealm_eq _ role)
  | changePassword name password =>
    obtain ⟨verifier, -, hedit⟩ := bind_eq_ok.mp hedit
    obtain ⟨user, huser, -, rfl⟩ := rotateCredentials_spec hedit
    exact .of_insertUser rfl rfl fun role hrole => .inl ⟨user, huser, rfl, hrole⟩
  | drop name => exact .of_dropUser hedit
  | grantRoles name roles =>
    obtain ⟨user, huser, -, rfl⟩ := grantUserRoles_spec hedit
    refine .of_insertUser rfl rfl fun role hrole => ?_
    rcases mem_union.mp hrole with hrole | hrole
    · exact .inl ⟨user, huser, rfl, hrole⟩
    · refine .inr ⟨⟨rfl, mem_toFinset.mp hrole⟩, hauthorized _ _ ?_⟩
      exact mem_of_mapM_eq_ok hrequirements (mem_toFinset.mp hrole)
        (requireOnRealm_eq _ role)
  | revokeRoles name roles =>
    obtain ⟨user, huser, rfl⟩ := revokeUserRoles_spec hedit
    refine .of_insertUser rfl rfl fun role hrole => ?_
    exact .inl ⟨user, huser, rfl, (mem_sdiff.mp hrole).1⟩

variable {command : SecurityCommand}

/-- What a committed command adds is added by someone who may grant the role. -/
theorem growsOnly_execute (h : catalog.execute detached principal command = .ok next) :
    GrowsOnly catalog next (catalog.AllowedAssignment principal command)
      (catalog.AllowedAddition principal) := by
  cases command with
  | executeUserManagement command => exact growsOnly_userManagement h
  | createDocumentRole name policy =>
    obtain ⟨⟨⟩, hconfined, h⟩ := bind_eq_ok.mp h
    rw [securityRealm_realm, ok_bind] at h
    obtain ⟨hauthorized, candidate, hedit, rfl⟩ := updateAuthorized_spec h
    obtain ⟨-, -, rfl⟩ := createRole_spec hedit
    refine .of_insertRole rfl rfl fun grant hgrant => .inr ⟨?_, hauthorized _ _ (by simp)⟩
    exact confinedTo_of_confined (validateDocumentRolePolicy_eq_ok.mp hconfined) hgrant
  | grantDocumentRolePrivileges name additions =>
    obtain ⟨⟨⟩, -, h⟩ := bind_eq_ok.mp h
    rw [securityRealm_realm, ok_bind] at h
    obtain ⟨hauthorized, candidate, hedit, rfl⟩ := updateAuthorized_spec h
    obtain ⟨current, combined, hcurrent, hconfined, hunion, hreplace⟩ :=
      grantDocumentRolePrivileges_spec hedit
    refine (GrowsOnly.of_replaceRole hreplace fun grant hgrant => ?_).publish
    rw [hunion] at hgrant
    rcases mem_union.mp hgrant with hgrant | hgrant
    · exact .inl ⟨current, hcurrent, hgrant⟩
    · exact .inr ⟨confinedTo_of_confined hconfined hgrant, hauthorized _ _ (by simp)⟩
  | updateDocumentRole name replacement =>
    obtain ⟨⟨⟩, -, h⟩ := bind_eq_ok.mp h
    obtain ⟨hmayGrant, candidate, hedit, rfl⟩ := updateDocumentRoleAuthorized_spec h
    rcases updateDocumentRole_spec hedit with ⟨-, rfl⟩ | ⟨policy, rfl, hconfined, hreplace⟩
    · exact (GrowsOnly.refl _).publish
    · refine (GrowsOnly.of_replaceRole hreplace fun grant hgrant => .inr ⟨?_, ?_⟩).publish
      · exact confinedTo_of_confined hconfined hgrant
      · exact hmayGrant rfl
  | revokeDocumentRolePrivileges name removals =>
    obtain ⟨⟨⟩, -, h⟩ := bind_eq_ok.mp h
    rw [securityRealm_realm, ok_bind] at h
    obtain ⟨-, candidate, hedit, rfl⟩ := updateAuthorized_spec h
    obtain ⟨current, hcurrent, hreplace⟩ := revokeDocumentRolePrivileges_spec hedit
    refine (GrowsOnly.of_replaceRole hreplace fun grant hgrant => .inl ?_).publish
    exact ⟨current, hcurrent, (mem_sdiff.mp hgrant).1⟩
  | dropRole name =>
    rw [execute, securityRealm_realm, ok_bind] at h
    obtain ⟨-, candidate, hedit, rfl⟩ := updateAuthorized_spec h
    exact (GrowsOnly.of_dropRole hedit).publish

/-- A command of a principal, with the identity that the edited copy gets. -/
structure Request where
  principal : Principal
  command : SecurityCommand
  detached : Nat

variable (catalog)

def commit (request : Request) : EngineResult SecurityCatalog :=
  catalog.execute request.detached request.principal request.command

/-- A command that fails leaves the catalog as it was. -/
def settle (request : Request) : SecurityCatalog :=
  match catalog.commit request with
  | .ok next => next
  | .error _ => catalog

def run (requests : List Request) : SecurityCatalog :=
  requests.foldl settle catalog

/-- Some command of a run was committed from one catalog to another. -/
def CommittedIn (start : SecurityCatalog) (requests : List Request) (catalog : SecurityCatalog)
    (request : Request) (next : SecurityCatalog) : Prop :=
  ∃ before after, requests = before ++ request :: after ∧ catalog = start.run before ∧
    catalog.commit request = .ok next

theorem settle_cases (request : Request) :
    catalog.settle request = catalog ∨ catalog.commit request = .ok (catalog.settle request) := by
  unfold settle
  cases h : catalog.commit request with
  | ok next => exact .inr rfl
  | error error => exact .inl rfl

variable {catalog}

/-- What holds after a run but not before it was brought about by one of its commands. -/
theorem exists_committed {P : SecurityCatalog → Prop} {requests : List Request}
    (hstart : ¬ P catalog) (hend : P (catalog.run requests)) :
    ∃ before request after, CommittedIn catalog requests before request after ∧ ¬ P before ∧
      P after := by
  induction requests generalizing catalog with
  | nil => exact absurd hend hstart
  | cons request requests ih =>
    by_cases hsettled : P (catalog.settle request)
    · rcases settle_cases catalog request with hsame | hcommit
      · exact absurd (hsame ▸ hsettled) hstart
      · exact ⟨catalog, request, _, ⟨[], requests, rfl, rfl, hcommit⟩, hstart, hsettled⟩
    · obtain ⟨before, step, after, ⟨first, rest, rfl, hbefore, hcommit⟩, hnot, hholds⟩ :=
        ih hsettled hend
      exact ⟨before, step, after, ⟨request :: first, rest, rfl, hbefore, hcommit⟩, hnot, hholds⟩

/-- Every committed command is one edit of the detached copy. -/
theorem execute_edit (h : catalog.execute detached principal command = .ok next) :
    ∃ (edit : Edit) (candidate : SecurityCatalog),
      edit.apply { catalog with identity := detached } = .ok candidate ∧
        next = { candidate with identity := catalog.identity } := by
  cases command with
  | executeUserManagement command =>
    obtain ⟨requirements, -, h⟩ := bind_eq_ok.mp h
    obtain ⟨-, candidate, hedit, rfl⟩ := updateAuthorized_spec h
    cases command with
    | create name password roles =>
      obtain ⟨verifier, -, hedit⟩ := bind_eq_ok.mp hedit
      exact ⟨.createUser name verifier roles.names, candidate, hedit, rfl⟩
    | changePassword name password =>
      obtain ⟨verifier, -, hedit⟩ := bind_eq_ok.mp hedit
      exact ⟨.rotateCredentials name verifier, candidate, hedit, rfl⟩
    | drop name => exact ⟨.dropUser name, candidate, hedit, rfl⟩
    | grantRoles name roles => exact ⟨.grantUserRoles name roles.names, candidate, hedit, rfl⟩
    | revokeRoles name roles => exact ⟨.revokeUserRoles name roles.names, candidate, hedit, rfl⟩
  | createDocumentRole name policy =>
    obtain ⟨⟨⟩, -, h⟩ := bind_eq_ok.mp h
    obtain ⟨realm, -, h⟩ := bind_eq_ok.mp h
    obtain ⟨-, candidate, hedit, rfl⟩ := updateAuthorized_spec h
    exact ⟨.createRole name policy, candidate, hedit, rfl⟩
  | grantDocumentRolePrivileges name additions =>
    obtain ⟨⟨⟩, -, h⟩ := bind_eq_ok.mp h
    obtain ⟨realm, -, h⟩ := bind_eq_ok.mp h
    obtain ⟨-, candidate, hedit, rfl⟩ := updateAuthorized_spec h
    exact ⟨.grantDocumentRolePrivileges name additions, candidate, hedit, rfl⟩
  | updateDocumentRole name replacement =>
    obtain ⟨⟨⟩, -, h⟩ := bind_eq_ok.mp h
    obtain ⟨-, candidate, hedit, rfl⟩ := updateDocumentRoleAuthorized_spec h
    exact ⟨.updateDocumentRole name replacement, candidate, hedit, rfl⟩
  | revokeDocumentRolePrivileges name removals =>
    obtain ⟨⟨⟩, -, h⟩ := bind_eq_ok.mp h
    obtain ⟨realm, -, h⟩ := bind_eq_ok.mp h
    obtain ⟨-, candidate, hedit, rfl⟩ := updateAuthorized_spec h
    exact ⟨.revokeDocumentRolePrivileges name removals, candidate, hedit, rfl⟩
  | dropRole name =>
    obtain ⟨realm, -, h⟩ := bind_eq_ok.mp h
    obtain ⟨-, candidate, hedit, rfl⟩ := updateAuthorized_spec h
    exact ⟨.dropRole name, candidate, hedit, rfl⟩

theorem WellFormed.execute (h : WellFormed catalog)
    (hexecute : catalog.execute detached principal command = .ok next) : WellFormed next := by
  obtain ⟨edit, candidate, hcandidate, rfl⟩ := execute_edit hexecute
  exact ((h.identity detached).edit hcandidate).identity catalog.identity

theorem WellFormed.run (h : WellFormed catalog) (requests : List Request) :
    WellFormed (catalog.run requests) := by
  induction requests generalizing catalog with
  | nil => exact h
  | cons request requests ih =>
    apply ih
    rcases settle_cases catalog request with hsame | hcommit
    · exact hsame.symm ▸ h
    · exact h.execute hcommit

/-- The catalogs that edits make, from an empty one or from a record. -/
inductive Reachable (blake3 : List UInt8 → Blake3.Digest) : SecurityCatalog → Prop
  | new (identity : Nat) : Reachable blake3 (new identity)
  | restored {identity : Nat} {bytes : List UInt8} {catalog : SecurityCatalog} :
      fromRecord blake3 identity bytes = .ok catalog → Reachable blake3 catalog
  | edited {catalog next : SecurityCatalog} (edit : Edit) :
      Reachable blake3 catalog → edit.apply catalog = .ok next → Reachable blake3 next
  | published {catalog : SecurityCatalog} (identity : Nat) :
      Reachable blake3 catalog → Reachable blake3 { catalog with identity := identity }

theorem Reachable.wellFormed {blake3 : List UInt8 → Blake3.Digest}
    (h : Reachable blake3 catalog) : WellFormed catalog := by
  induction h with
  | new identity => exact wellFormed_new identity
  | restored hrecord => exact wellFormed_of_fromRecord hrecord
  | edited edit _ hedit ih => exact ih.edit hedit
  | published identity _ ih => exact ih.identity identity

theorem memberNamed_of_execute (h : catalog.execute detached principal command = .ok next)
    (hmember : next.MemberNamed name role) (hnot : ¬ catalog.MemberNamed name role) :
    command.Assigns name role ∧ catalog.MayGrant principal role := by
  obtain ⟨user, huser, hrole⟩ := hmember
  rcases (growsOnly_execute h).member name user role huser hrole with ⟨old, hold, -, hhad⟩ |
    hallowed
  · exact absurd ⟨old, hold, hhad⟩ hnot
  · exact hallowed

/-- A membership that a run brings about was assigned by someone who may grant the role. -/
theorem assigned_of_run {requests : List Request} (hstart : ¬ catalog.MemberNamed name role)
    (hend : (catalog.run requests).MemberNamed name role) :
    ∃ before request after, CommittedIn catalog requests before request after ∧
      request.command.Assigns name role ∧ before.MayGrant request.principal role := by
  obtain ⟨before, request, after, hcommitted, hnot, hmember⟩ :=
    @exists_committed _ (fun catalog => catalog.MemberNamed name role) _ hstart hend
  refine ⟨before, request, after, hcommitted, ?_⟩
  obtain ⟨_, _, _, _, hcommit⟩ := hcommitted
  exact memberNamed_of_execute hcommit hmember hnot

theorem dropped_role (h : catalog.execute detached principal (.dropRole name) = .ok next) :
    (∀ owner, ¬ next.MemberNamed owner name) ∧ ∀ grant, ¬ next.Carries name grant := by
  obtain ⟨realm, -, h⟩ := bind_eq_ok.mp h
  obtain ⟨-, candidate, hedit, rfl⟩ := updateAuthorized_spec h
  obtain ⟨-, rfl⟩ := dropRole_spec hedit
  constructor
  · rintro owner ⟨user, huser, hrole⟩
    simp only [Dictionary.lookup_mapValues] at huser
    obtain ⟨old, -, rfl⟩ := Option.map_eq_some_iff.mp huser
    exact notMem_erase name old.roles hrole
  · rintro grant ⟨policy, hpolicy, -⟩
    grind [Finmap.lookup_erase]

theorem dropped_user
    (h : catalog.execute detached principal (.executeUserManagement (.drop name)) = .ok next)
    (role : SecurityName) : ¬ next.MemberNamed name role := by
  obtain ⟨requirements, -, h⟩ := bind_eq_ok.mp h
  obtain ⟨-, candidate, hedit, rfl⟩ := updateAuthorized_spec h
  obtain ⟨-, rfl⟩ := dropUser_spec hedit
  rintro ⟨user, huser, -⟩
  grind [Finmap.lookup_erase]

theorem authority_grows_only_through_grantRole (blake3 : List UInt8 → Blake3.Digest)
    (hreachable : Reachable blake3 catalog) (requests : List Request) :
    (∀ name user, (catalog.run requests).users.lookup name = some user →
      user.roles.card ≤ maxPolicyRoles ∧
        (∀ role ∈ user.roles, role ∈ (catalog.run requests).roles) ∧
        (user.roles.biUnion (carried (catalog.run requests).roles.lookup)).card ≤
          maxPolicyPrivileges) ∧
    ∀ request next, (catalog.run requests).commit request = .ok next →
      (∀ id grant, next.Holds id grant → ¬ (catalog.run requests).Holds id grant →
        ∃ role, next.Member id role ∧ next.Carries role grant ∧
          (catalog.run requests).MayGrant request.principal role) ∧
      (∀ role grant, next.Carries role grant → ¬ (catalog.run requests).Carries role grant →
        ConfinedTo role.realm grant) ∧
      (∀ role, request.command = .dropRole role → ∀ later,
        (∀ name, (next.run later).MemberNamed name role →
          ∃ before assignment after, CommittedIn next later before assignment after ∧
            assignment.command.Assigns name role ∧ before.MayGrant assignment.principal role) ∧
        (∀ grant, (next.run later).Carries role grant →
          ∃ before addition after, CommittedIn next later before addition after ∧
            ¬ before.Carries role grant ∧ after.Carries role grant ∧
            ConfinedTo role.realm grant ∧ before.MayGrant addition.principal role)) ∧
      (∀ name, request.command = .executeUserManagement (.drop name) → ∀ later role,
        (next.run later).MemberNamed name role →
          ∃ before assignment after, CommittedIn next later before assignment after ∧
            assignment.command.Assigns name role ∧ before.MayGrant assignment.principal role) := by
  have hwellFormed : WellFormed (catalog.run requests) := hreachable.wellFormed.run requests
  constructor
  · intro name user huser
    obtain ⟨hcard, hknown, hunion⟩ := (hwellFormed.user huser).resolvable
    exact ⟨hcard, fun role hrole => Finmap.mem_iff.mpr (hknown role hrole), hunion⟩
  · intro request next hcommit
    have hgrows := growsOnly_execute hcommit
    refine ⟨?_, ?_, ?_, ?_⟩
    · rintro id grant ⟨role, ⟨name, user, huser, rfl, hrole⟩, hcarries⟩ hnot
      refine ⟨role, ⟨name, user, huser, rfl, hrole⟩, hcarries, ?_⟩
      -- Either the membership is new, or it was there and the privilege of the role is new.
      rcases hgrows.member name user role huser hrole with ⟨old, hold, hid, hhad⟩ | hassigned
      · rcases hgrows.carries role grant hcarries with hcarried | hadded
        · exact absurd ⟨role, ⟨name, old, hold, hid, hhad⟩, hcarried⟩ hnot
        · exact hadded.2
      · exact hassigned.2
    · intro role grant hcarries hnot
      rcases hgrows.carries role grant hcarries with hcarried | hadded
      · exact absurd hcarried hnot
      · exact hadded.1
    · intro role hcommand later
      rw [commit, hcommand] at hcommit
      obtain ⟨hmembers, hgrants⟩ := dropped_role hcommit
      refine ⟨fun name => assigned_of_run (hmembers name), fun grant hcarries => ?_⟩
      obtain ⟨before, addition, after, hin, hnot, hnow⟩ :=
        @exists_committed _ (fun catalog => catalog.Carries role grant) _ (hgrants grant) hcarries
      refine ⟨before, addition, after, hin, hnot, hnow, ?_⟩
      obtain ⟨_, _, _, _, hadds⟩ := hin
      exact ((growsOnly_execute hadds).carries role grant hnow).resolve_left hnot
    · intro name hcommand later role
      rw [commit, hcommand] at hcommit
      exact assigned_of_run (dropped_user hcommit role)

namespace Staffed

def admin : SecurityName := ⟨"app", "admin", by decide, by decide⟩

def verifier : ScramSha256Verifier :=
  ⟨4096, List.replicate 16 0, List.replicate 32 0, List.replicate 32 0, by decide, by decide,
    by decide, by decide⟩

def grantRoles : Privilege := ⟨.grantRole, Scope.allSecurityRealms, rfl⟩

def readUsers : Privilege :=
  ⟨.readData, Scope.exact ⟨.object .document "app" "users", by decide, by decide⟩, rfl⟩

def edited (catalog : SecurityCatalog) (edit : Edit) : SecurityCatalog :=
  match edit.apply catalog with
  | .ok next => next
  | .error _ => catalog

/-- One administrator, whose role may grant roles and nothing else. -/
def staff : SecurityCatalog :=
  [.createRole admin ⟨{grantRoles}, by decide⟩,
    .createUser admin verifier [admin]].foldl edited (new 0)

theorem reachable_edited {blake3 : List UInt8 → Blake3.Digest} (h : Reachable blake3 catalog)
    (edit : Edit) : Reachable blake3 (edited catalog edit) := by
  unfold edited
  split
  next next hedit => exact h.edited edit hedit
  next => exact h

theorem reachable (blake3 : List UInt8 → Blake3.Digest) : Reachable blake3 staff :=
  reachable_edited (reachable_edited (.new 0) _) _

def grantReading : Request :=
  ⟨⟨0, admin, 1, 1⟩, .grantDocumentRolePrivileges admin ⟨{readUsers}, by decide⟩, 1⟩

def granted : SecurityCatalog :=
  { staff with roles := staff.roles.insert admin ⟨{grantRoles, readUsers}, by decide⟩ }

theorem commit_grantReading : (staff.run []).commit grantReading = .ok granted := by
  have hcommit : ((staff.run []).commit grantReading).toOption = some granted := by decide +kernel
  obtain ⟨next, hnext⟩ := exists_of_toOption (Option.isSome_of_mem hcommit)
  rw [hnext] at hcommit ⊢
  exact congrArg Except.ok (Option.some.inj hcommit)

end Staffed

/-- The administrator gains the right to read through the role that it may grant. -/
theorem authority_grows_only_through_grantRole_reading :
    Staffed.granted.Holds 1 Staffed.readUsers ∧ ¬ Staffed.staff.Holds 1 Staffed.readUsers ∧
      ∃ role, Staffed.granted.Member 1 role ∧ Staffed.granted.Carries role Staffed.readUsers ∧
        Staffed.staff.MayGrant Staffed.grantReading.principal role := by
  have huser : Staffed.staff.users.lookup Staffed.admin =
      some ⟨1, 1, Staffed.verifier, {Staffed.admin}⟩ := by
    decide +kernel
  have hpolicy : Staffed.granted.roles.lookup Staffed.admin =
      some ⟨{Staffed.grantRoles, Staffed.readUsers}, by decide⟩ := by
    decide +kernel
  have hholds : Staffed.granted.Holds 1 Staffed.readUsers :=
    ⟨Staffed.admin, ⟨Staffed.admin, _, huser, rfl, by simp⟩, _, hpolicy, by simp⟩
  have hnot : ¬ Staffed.staff.Holds 1 Staffed.readUsers := by
    rintro ⟨role, -, policy, hrole, hgrant⟩
    have hall : ∀ role ∈ Staffed.staff.roles.keys, ∀ policy ∈ Staffed.staff.roles.lookup role,
        Staffed.readUsers ∉ policy.privileges := by
      decide +kernel
    exact hall role (Finmap.mem_keys.mpr (Finmap.mem_of_lookup_eq_some hrole)) policy hrole hgrant
  refine ⟨hholds, hnot, ?_⟩
  exact ((authority_grows_only_through_grantRole Blake3.hash (Staffed.reachable Blake3.hash) []).2
    _ _ Staffed.commit_grantReading).1 1 Staffed.readUsers hholds hnot

end SecurityCatalog

end BriskDB.Security
