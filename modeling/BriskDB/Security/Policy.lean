import BriskDB.Core.Error
import BriskDB.Lib.Result

/-! # Permission decisions

A privilege is an action with a scope that can hold resources of the action's kind. A policy is
a bounded set of privileges, and denies what none of them covers. The policies of several roles
are combined by union, within the same bound.
-/

namespace BriskDB.Security

open Result List Finset

inductive DataDomain
  | relational
  | document
  deriving DecidableEq

inductive ResourceKind
  | server
  | securityRealm
  | dataDomain
  | database
  | object
  deriving DecidableEq

inductive Action
  | connectDatabase
  | listDatabases
  | listObjects
  | createDatabase
  | dropDatabase
  | readData
  | insertData
  | updateData
  | deleteData
  | createObject
  | dropObject
  | listIndexes
  | createIndex
  | dropIndex
  | viewUsers
  | createUser
  | dropUser
  | rotateCredentials
  | grantRole
  | revokeRole
  | viewRoles
  | createRole
  | updateRole
  | dropRole
  | readDiagnostics
  | manageServer
  deriving DecidableEq

def Action.all : List Action :=
  [.connectDatabase, .listDatabases, .listObjects, .createDatabase, .dropDatabase, .readData,
    .insertData, .updateData, .deleteData, .createObject, .dropObject, .listIndexes, .createIndex,
    .dropIndex, .viewUsers, .createUser, .dropUser, .rotateCredentials, .grantRole, .revokeRole,
    .viewRoles, .createRole, .updateRole, .dropRole, .readDiagnostics, .manageServer]

theorem Action.mem_all (action : Action) : action ∈ all := by
  cases action <;> decide

def Action.resourceKind : Action → ResourceKind
  | .connectDatabase | .listObjects | .createDatabase | .dropDatabase => .database
  | .listDatabases => .dataDomain
  | .readData | .insertData | .updateData | .deleteData | .createObject | .dropObject
  | .listIndexes | .createIndex | .dropIndex => .object
  | .viewUsers | .createUser | .dropUser | .rotateCredentials | .grantRole | .revokeRole
  | .viewRoles | .createRole | .updateRole | .dropRole => .securityRealm
  | .readDiagnostics | .manageServer => .server

def invalid (message : String) : EngineError := .new .invalidArgument message

def limit (message : String) : EngineError := .new .limitExceeded message

def denied : EngineError := .new .permissionDenied "operation is not authorized"

/-- Names of databases and realms: bounded text without NUL. -/
def ValidDatabaseName (name : String) : Prop :=
  name ≠ "" ∧ name.utf8ByteSize ≤ 63 ∧ '\x00' ∉ name.toList

instance (name : String) : Decidable (ValidDatabaseName name) :=
  inferInstanceAs (Decidable (_ ∧ _))

/-- A canonical identifier of the relational catalog. -/
def validateCatalogIdentifier (identifier : String) : Bool :=
  let text := identifier.toList
  let lower := fun letter : Char => 'a' ≤ letter ∧ letter ≤ 'z' ∨ letter = '_'
  0 < text.length ∧ text.length ≤ 63 ∧ (text.head?.any fun letter => lower letter) ∧
    (text.all fun letter => lower letter ∨ '0' ≤ letter ∧ letter ≤ '9') ∧
    identifier ≠ "briskdb" ∧ ¬ "briskdb_".toList.isPrefixOf text ∧
    ¬ "sqlite_".toList.isPrefixOf text

def dataDatabaseFault (domain : DataDomain) (name : String) : Option EngineError :=
  if ¬ ValidDatabaseName name then
    some (invalid "authorization database or realm name is invalid")
  else if domain = .relational ∧ validateCatalogIdentifier name = false then
    some (invalid "relational authorization database name is not canonical")
  else none

/-- What is wrong with the name of an object in a database, if anything. -/
def objectFault (domain : DataDomain) (database object : String) : Option EngineError :=
  if object = "" ∨ database.utf8ByteSize + 1 + object.utf8ByteSize > 255 ∨
      '\x00' ∈ object.toList ∨
      domain = .relational ∧ validateCatalogIdentifier object = false then
    some (invalid "authorization object name is invalid")
  else none

inductive ResourceValue
  | server
  | realm (name : String)
  | domain (domain : DataDomain)
  | database (domain : DataDomain) (name : String)
  | object (domain : DataDomain) (database object : String)
  deriving DecidableEq

/-- The names of a resource are valid for its domain. -/
def ResourceValue.Valid : ResourceValue → Prop
  | .server | .domain _ => True
  | .realm name => ValidDatabaseName name
  | .database data name => dataDatabaseFault data name = none
  | .object data name collection =>
    dataDatabaseFault data name = none ∧ objectFault data name collection = none

structure Resource where
  value : ResourceValue
  valid : value.Valid
  deriving DecidableEq

namespace Resource

def server : Resource := ⟨.server, trivial⟩

def securityRealm (name : String) : EngineResult Resource :=
  if h : ValidDatabaseName name then .ok ⟨.realm name, h⟩
  else .error (invalid "authorization database or realm name is invalid")

def dataDomain (data : DataDomain) : Resource := ⟨.domain data, trivial⟩

def database (data : DataDomain) (name : String) : EngineResult Resource :=
  match h : dataDatabaseFault data name with
  | none => .ok ⟨.database data name, h⟩
  | some fault => .error fault

def object (data : DataDomain) (name collection : String) : EngineResult Resource :=
  match h : dataDatabaseFault data name with
  | some fault => .error fault
  | none =>
    match h' : objectFault data name collection with
    | none => .ok ⟨.object data name collection, h, h'⟩
    | some fault => .error fault

variable (resource : Resource)

def kind : ResourceKind :=
  match resource.value with
  | .server => .server
  | .realm _ => .securityRealm
  | .domain _ => .dataDomain
  | .database _ _ => .database
  | .object _ _ _ => .object

def domain : Option DataDomain :=
  match resource.value with
  | .domain data | .database data _ | .object data _ _ => some data
  | _ => none

def databaseName : Option String :=
  match resource.value with
  | .database _ name | .object _ name _ => some name
  | _ => none

def objectName : Option String :=
  match resource.value with
  | .object _ _ name => some name
  | _ => none

end Resource

inductive ScopeValue
  | exact (resource : Resource)
  | database (domain : DataDomain) (database : String)
  | allDatabases (domain : DataDomain)
  | allSecurityRealms
  | nonSystemDocumentCollections (database : String)
  deriving DecidableEq

def ScopeValue.Valid : ScopeValue → Prop
  | .database domain name => dataDatabaseFault domain name = none
  | .nonSystemDocumentCollections name => dataDatabaseFault .document name = none
  | _ => True

structure Scope where
  value : ScopeValue
  valid : value.Valid
  deriving DecidableEq

namespace Scope

def exact (resource : Resource) : Scope := ⟨.exact resource, trivial⟩

def database (domain : DataDomain) (name : String) : EngineResult Scope :=
  match h : dataDatabaseFault domain name with
  | none => .ok ⟨.database domain name, h⟩
  | some fault => .error fault

def allDatabases (domain : DataDomain) : Scope := ⟨.allDatabases domain, trivial⟩

def allSecurityRealms : Scope := ⟨.allSecurityRealms, trivial⟩

def nonSystemDocumentCollections (name : String) : EngineResult Scope :=
  match h : dataDatabaseFault .document name with
  | none => .ok ⟨.nonSystemDocumentCollections name, h⟩
  | some fault => .error fault

def accepts (scope : Scope) (kind : ResourceKind) : Bool :=
  match scope.value with
  | .exact resource => resource.kind = kind
  | .database _ _ => kind = .database ∨ kind = .object
  | .allDatabases _ => kind = .dataDomain ∨ kind = .database ∨ kind = .object
  | .allSecurityRealms => kind = .securityRealm
  | .nonSystemDocumentCollections _ => kind = .object

def covers (scope : Scope) (resource : Resource) : Bool :=
  match scope.value with
  | .exact identity => identity = resource
  | .database domain name => resource.domain = some domain ∧ resource.databaseName = some name
  | .allDatabases domain => resource.domain = some domain
  | .allSecurityRealms => resource.kind = .securityRealm
  | .nonSystemDocumentCollections name =>
    resource.domain = some .document ∧ resource.databaseName = some name ∧
      resource.objectName.any fun collection =>
        !("system.".toList.isPrefixOf collection.toList ||
          name = "local" && "replset.".toList.isPrefixOf collection.toList)

end Scope

/-- A validated action and scope. -/
structure Privilege where
  action : Action
  scope : Scope
  accepted : scope.accepts action.resourceKind = true

def Privilege.new (action : Action) (scope : Scope) : EngineResult Privilege :=
  if h : scope.accepts action.resourceKind = true then .ok ⟨action, scope, h⟩
  else .error (invalid "authorization action does not apply to its scope")

def DataDomain.index : DataDomain → Nat
  | .relational => 0
  | .document => 1

theorem DataDomain.index_injective : Function.Injective index := by
  intro left right h
  cases left <;> cases right <;> first | rfl | cases h

/-- Variant, domain and names. -/
abbrev ScopeKey := Nat ×ₗ Nat ×ₗ Nat ×ₗ String ×ₗ String

def scopeKey (scope resource domain : Nat) (database object : String) : ScopeKey :=
  toLex (scope, toLex (resource, toLex (domain, toLex (database, object))))

theorem scopeKey_inj {s s' r r' d d' : Nat} {b b' o o' : String} :
    scopeKey s r d b o = scopeKey s' r' d' b' o' ↔
      s = s' ∧ r = r' ∧ d = d' ∧ b = b' ∧ o = o' := by
  simp [scopeKey]

def ScopeValue.key : ScopeValue → ScopeKey
  | .exact resource =>
    match resource.value with
    | .server => scopeKey 0 0 0 "" ""
    | .realm name => scopeKey 0 1 0 name ""
    | .domain data => scopeKey 0 2 data.index "" ""
    | .database data name => scopeKey 0 3 data.index name ""
    | .object data name object => scopeKey 0 4 data.index name object
  | .database data name => scopeKey 1 0 data.index name ""
  | .allDatabases data => scopeKey 2 0 data.index "" ""
  | .allSecurityRealms => scopeKey 3 0 0 "" ""
  | .nonSystemDocumentCollections name => scopeKey 4 0 0 name ""

theorem ScopeValue.key_injective : Function.Injective key := by
  intro left right h
  rcases left with ⟨⟨_ | _ | _ | _ | _, _⟩⟩ | _ | _ | _ | _ <;>
    rcases right with ⟨⟨_ | _ | _ | _ | _, _⟩⟩ | _ | _ | _ | _ <;>
    simp_all [key, scopeKey_inj, DataDomain.index_injective.eq_iff]

def Privilege.key (privilege : Privilege) : Nat ×ₗ ScopeKey :=
  toLex (Action.all.idxOf privilege.action, privilege.scope.value.key)

theorem Privilege.key_injective : Function.Injective key := by
  rintro ⟨action, ⟨scope, hscope⟩, haccepted⟩ ⟨action', ⟨scope', hscope'⟩, haccepted'⟩ h
  obtain ⟨hindex, hkey⟩ := Prod.mk.inj (toLex.injective h)
  grind [idxOf_inj, Action.mem_all, ScopeValue.key_injective]

instance : LinearOrder Privilege := LinearOrder.lift' Privilege.key Privilege.key_injective

def maxPolicyPrivileges : Nat := 256
def maxPolicyRoles : Nat := 64
def maxAuthorizationRequirements : Nat := 256

structure Policy where
  privileges : Finset Privilege
  card_le : privileges.card ≤ maxPolicyPrivileges
  deriving DecidableEq

namespace Policy

def empty : Policy := ⟨∅, Nat.zero_le _⟩

/-- The input is bounded before duplicates are dropped. -/
def new (privileges : List Privilege) : EngineResult Policy :=
  if h : privileges.length ≤ maxPolicyPrivileges then
    .ok ⟨privileges.toFinset, (toFinset_card_le privileges).trans h⟩
  else .error (limit "authorization policy input exceeds its limit")

def combineStep (state : Nat × Policy) (role : Policy) : EngineResult (Nat × Policy) :=
  if state.1 ≥ maxPolicyRoles then .error (limit "authorization role count exceeds its limit")
  else if h : (state.2.privileges ∪ role.privileges).card ≤ maxPolicyPrivileges then
    .ok (state.1 + 1, ⟨_, h⟩)
  else .error (limit "resolved authorization policy exceeds its limit")

def combine (roles : List Policy) : EngineResult Policy :=
  Prod.snd <$> roles.foldlM combineStep (0, empty)

def allows (policy : Policy) (action : Action) (resource : Resource) : Prop :=
  action.resourceKind = resource.kind ∧
    ∃ grant ∈ policy.privileges, grant.action = action ∧ grant.scope.covers resource = true

instance (policy : Policy) (action : Action) (resource : Resource) :
    Decidable (policy.allows action resource) :=
  inferInstanceAs (Decidable (_ ∧ _))

def authorize (policy : Policy) (action : Action) (resource : Resource) : EngineResult Unit :=
  if policy.allows action resource then .ok () else .error denied

def authorizeAll (policy : Policy) (requirements : List (Action × Resource)) :
    EngineResult Unit := do
  requirements.zipIdx.forM fun requirement => do
    if requirement.2 ≥ maxAuthorizationRequirements then
      throw (limit "authorization requirement count exceeds its limit")
    policy.authorize requirement.1.1 requirement.1.2
  if requirements = [] then throw denied

def union (roles : List Policy) : Finset Privilege :=
  roles.foldr (fun role rest => role.privileges ∪ rest) ∅

variable {state : Nat × Policy} {roles : List Policy} {policy : Policy}

theorem combineStep_eq_ok {next : Nat × Policy} {role : Policy} :
    combineStep state role = .ok next ↔
      state.1 < maxPolicyRoles ∧ next.1 = state.1 + 1 ∧
        next.2.privileges = state.2.privileges ∪ role.privileges := by
  unfold combineStep
  split
  next hfull => exact ⟨nofun, fun h => absurd hfull (Nat.not_le.mpr h.1)⟩
  next hroom =>
    split
    next hcard =>
      constructor
      · grind
      · rintro ⟨-, hcount, hunion⟩
        obtain ⟨count, privileges, hle⟩ := next
        cases hcount
        cases hunion
        rfl
    next hcard =>
      refine ⟨nofun, fun h => absurd ?_ hcard⟩
      exact h.2.2 ▸ next.2.card_le

theorem foldlM_combineStep {result : Nat × Policy} (hcount : state.1 ≤ maxPolicyRoles) :
    roles.foldlM combineStep state = .ok result ↔
      state.1 + roles.length ≤ maxPolicyRoles ∧ result.1 = state.1 + roles.length ∧
        result.2.privileges = state.2.privileges ∪ union roles := by
  induction roles generalizing state with
  | nil =>
    obtain ⟨count, privileges, hle⟩ := result
    obtain ⟨count', privileges', hle'⟩ := state
    simp only [foldlM_nil, length_nil, Nat.add_zero, union, foldr_nil,
      union_empty, pure_eq, Except.ok.injEq, Prod.mk.injEq, Policy.mk.injEq]
    exact ⟨fun h => ⟨hcount, h.1.symm, h.2.symm⟩, fun h => ⟨h.2.1.symm, h.2.2.symm⟩⟩
  | cons role roles ih =>
    have hunion : union (role :: roles) = role.privileges ∪ union roles := rfl
    rw [foldlM_cons, bind_eq_ok, length_cons, hunion]
    constructor
    · rintro ⟨next, hnext, hrest⟩
      obtain ⟨hroom, hnextCount, hnextUnion⟩ := combineStep_eq_ok.mp hnext
      grind
    · rintro ⟨hle, hlength, hprivileges⟩
      -- The intermediate union is part of the final one, so it fits as well.
      have hfits : (state.2.privileges ∪ role.privileges).card ≤ maxPolicyPrivileges := by
        refine (card_le_card ?_).trans result.2.card_le
        rw [hprivileges, ← union_assoc]
        exact subset_union_left
      refine ⟨(state.1 + 1, ⟨_, hfits⟩), combineStep_eq_ok.mpr ⟨by omega, rfl, rfl⟩, ?_⟩
      grind

/-- Policies combine to their union when they are not too many and the union fits. -/
theorem combine_eq_ok :
    combine roles = .ok policy ↔
      roles.length ≤ maxPolicyRoles ∧ policy.privileges = union roles := by
  unfold combine
  rw [map_eq_ok]
  simp [foldlM_combineStep, empty]

theorem authorize_eq_ok {action : Action} {resource : Resource} :
    policy.authorize action resource = .ok () ↔ policy.allows action resource := by
  simp [authorize]

theorem authorizeAll_spec {requirements : List (Action × Resource)}
    (h : policy.authorizeAll requirements = .ok ()) :
    requirements ≠ [] ∧ ∀ requirement ∈ requirements,
      policy.allows requirement.1 requirement.2 := by
  unfold authorizeAll at h
  obtain ⟨⟨⟩, hall, h⟩ := bind_eq_ok.mp h
  have hne : requirements ≠ [] := by
    intro hempty
    rw [if_pos hempty] at h
    cases h
  refine ⟨hne, fun requirement hmem => ?_⟩
  obtain ⟨index, hindex⟩ := mem_iff_getElem?.mp hmem
  have hchecked := forM_eq_ok.mp hall (requirement, index)
    (mem_zipIdx_iff_getElem?.mpr hindex)
  rw [ite_throw_eq_ok] at hchecked
  exact authorize_eq_ok.mp hchecked.2

end Policy

end BriskDB.Security
