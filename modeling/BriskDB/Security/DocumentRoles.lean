import BriskDB.Security.Catalog

/-! # Document roles

The roles that a wire command may edit hold privileges of their own document database only. The
host may also provision the two data roles of a database.
-/

namespace BriskDB.Security

/-- A scope that a document role of the realm may hold. -/
def Scope.confined (realm : String) (scope : Scope) : Bool :=
  match scope.value with
  | .exact resource => resource.domain = some .document ∧ resource.databaseName = some realm
  | .nonSystemDocumentCollections name => name = realm
  | _ => false

/-- A confined scope covers nothing outside of the realm's document database. -/
theorem Scope.covers_of_confined {realm : String} {scope : Scope} {resource : Resource}
    (hconfined : scope.confined realm = true) (hcovers : scope.covers resource = true) :
    resource.domain = some .document ∧ resource.databaseName = some realm := by
  unfold confined at hconfined
  unfold covers at hcovers
  split at hconfined
  next identity hvalue =>
    grind
  next name hvalue =>
    simp only [hvalue, decide_eq_true_eq] at hcovers hconfined
    simp [*]
  next => cases hconfined

def validateDocumentRolePolicy (name : SecurityName) (policy : Policy) : EngineResult Unit :=
  if ∀ grant ∈ policy.privileges, grant.scope.confined name.realm = true then .ok ()
  else .error (invalid "document role privileges must be confined to their own database")

def validateDocumentRoleRevocations (name : SecurityName) (policy : Policy) :
    EngineResult Unit := do
  validateDocumentRolePolicy name policy
  if ∃ grant ∈ policy.privileges,
      grant.action = .connectDatabase ∨ grant.action = .createDatabase then
    throw (invalid "document role revocation cannot target internal database admission grants")

/-- The grants that are not removed, which are never too many. -/
def Policy.without (current removals : Policy) : Policy where
  privileges := current.privileges \ removals.privileges
  card_le := (Finset.card_le_card Finset.sdiff_subset).trans current.card_le

inductive MongoDataRole
  | read
  | readWrite
  deriving DecidableEq

namespace MongoDataRole

def name : MongoDataRole → String
  | .read => "read"
  | .readWrite => "readWrite"

/-- Grants on the non-system collections of a database and on its `system.js`. -/
def policy (role : MongoDataRole) (database : String) : EngineResult Policy := do
  let db ← Resource.database .document database
  let collections ← Scope.nonSystemDocumentCollections database
  let javascript ← Resource.object .document database "system.js"
  let databaseActions : List Action := [.connectDatabase, .listObjects] ++
    (if role = .readWrite then [.createDatabase] else [])
  let objectActions : List Action := [.readData, .listIndexes] ++
    (if role = .readWrite then [.insertData, .updateData, .deleteData, .createObject, .dropObject,
      .createIndex, .dropIndex] else [])
  let databaseGrants ← databaseActions.mapM fun action => Privilege.new action (.exact db)
  let objectGrants ← objectActions.mapM fun action => do
    let collectionGrant ← Privilege.new action collections
    let scriptGrant ← Privilege.new action (.exact javascript)
    return [collectionGrant, scriptGrant]
  Policy.new (databaseGrants ++ objectGrants.flatten)

end MongoDataRole

namespace SecurityCatalog

variable (catalog : SecurityCatalog) (name : SecurityName)

/-- Without a policy only the existence of the role is checked. -/
def updateDocumentRole (policy : Option Policy) :
    EngineResult SecurityCatalog := do
  policy.forM (validateDocumentRolePolicy name)
  if name ∉ catalog.roles then throw roleNotFound
  match policy with
  | some policy => catalog.replaceRole name policy
  | none => return catalog

def revokeDocumentRolePrivileges (removals : Policy) : EngineResult SecurityCatalog := do
  validateDocumentRoleRevocations name removals
  match catalog.roles.lookup name with
  | none => throw roleNotFound
  | some current => catalog.replaceRole name (current.without removals)

def grantDocumentRolePrivileges (additions : Policy) : EngineResult SecurityCatalog := do
  validateDocumentRolePolicy name additions
  match catalog.roles.lookup name with
  | none => throw roleNotFound
  | some current =>
    let combined ← Policy.combine [current, additions]
    catalog.replaceRole name combined

/-- Both data roles of a database, or neither. -/
def provisionMongoDataRoles (database : String) :
    EngineResult SecurityCatalog := do
  let readName ← SecurityName.new database MongoDataRole.read.name
  let readPolicy ← MongoDataRole.read.policy database
  let readWriteName ← SecurityName.new database MongoDataRole.readWrite.name
  let readWritePolicy ← MongoDataRole.readWrite.policy database
  if readName ∈ catalog.roles ∨ readWriteName ∈ catalog.roles then throw alreadyExists
  if catalog.roles.size + 2 > maxSecurityRoles then throw limitExceeded
  return { catalog with
    roles := (catalog.roles.insert readName readPolicy).insert readWriteName readWritePolicy }

end SecurityCatalog

end BriskDB.Security
