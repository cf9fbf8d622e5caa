import BriskDB.Lib.Blake3
import BriskDB.Lib.ByteReader
import BriskDB.Security.CatalogInvariant

/-!
# Catalog records

A catalog is stored as a versioned text with a checksum. Roles come first, each with its name and
its privileges; users follow and refer to roles by their position. The second version is used
exactly when a policy has a scope that the first one does not know.
-/

namespace BriskDB.Security

def Action.code : Action → String
  | .connectDatabase => "connect_database"
  | .listDatabases => "list_databases"
  | .listObjects => "list_objects"
  | .createDatabase => "create_database"
  | .dropDatabase => "drop_database"
  | .readData => "read_data"
  | .insertData => "insert_data"
  | .updateData => "update_data"
  | .deleteData => "delete_data"
  | .createObject => "create_object"
  | .dropObject => "drop_object"
  | .listIndexes => "list_indexes"
  | .createIndex => "create_index"
  | .dropIndex => "drop_index"
  | .viewUsers => "view_users"
  | .createUser => "create_user"
  | .dropUser => "drop_user"
  | .rotateCredentials => "rotate_credentials"
  | .grantRole => "grant_role"
  | .revokeRole => "revoke_role"
  | .viewRoles => "view_roles"
  | .createRole => "create_role"
  | .updateRole => "update_role"
  | .dropRole => "drop_role"
  | .readDiagnostics => "read_diagnostics"
  | .manageServer => "manage_server"

def Action.fromCode (code : String) : EngineResult Action :=
  match all.find? fun action => action.code = code with
  | some action => .ok action
  | none => .error (invalid "authorization action is not recognized")

theorem Action.fromCode_code (action : Action) : fromCode action.code = .ok action := by
  cases action <;> rfl

namespace ScramSha256Verifier

def recordBytes : Nat := 92

def fromRecord (bytes : List UInt8) : EngineResult ScramSha256Verifier :=
  if h : bytes.length = recordBytes ∧ bytes.take 8 = recordMagic then
    let iterations := Bytes.toBe ((bytes.drop 8).take 4)
    if hbounds : 4096 ≤ iterations ∧ iterations ≤ 1000000 then
      .ok {
        iterations := iterations
        salt := (bytes.drop 12).take 16
        storedKey := (bytes.drop 28).take 32
        serverKey := bytes.drop 60
        iterations_bounds := hbounds
        salt_length := by simp [h.1, recordBytes]
        storedKey_length := by simp [h.1, recordBytes]
        serverKey_length := by simp [h.1, recordBytes] }
    else .error (invalid "SCRAM iteration count is outside the supported bounds")
  else .error (invalid "SCRAM verifier record encoding is invalid")

end ScramSha256Verifier

namespace SecurityCatalog

def maxRecordBytes : Nat := 128 * 1024 * 1024
def checksumBytes : Nat := 32
def minRecordBytes : Nat := 8 + 8 + 2 + 2 + checksumBytes

def magic : List UInt8 := Utf8.bytes "BRKSEC01"
def magicV2 : List UInt8 := Utf8.bytes "BRKSEC02"
def checksumDomain : List UInt8 := Utf8.bytes "briskdb.security-catalog.record.v1" ++ [0]
def checksumDomainV2 : List UInt8 := Utf8.bytes "briskdb.security-catalog.record.v2" ++ [0]

def invalidRecord : EngineError := .new .invalidArgument "security catalog record is invalid"

variable (blake3 : List UInt8 → Blake3.Digest)

def checksum (payload : List UInt8) : List UInt8 :=
  (blake3 ((if magicV2.isPrefixOf payload then checksumDomainV2 else checksumDomain) ++
    payload)).val

def encodeShort (value : Nat) : List UInt8 := Bytes.ofBe 2 value
def encodeLong (value : Nat) : List UInt8 := Bytes.ofBe 8 value

def encodeText (text : String) : List UInt8 :=
  encodeShort (Utf8.bytes text).length ++ Utf8.bytes text

def encodeName (name : SecurityName) : List UInt8 := encodeText name.realm ++ encodeText name.name

def encodeDomain : DataDomain → List UInt8
  | .relational => [1]
  | .document => [2]

def encodeResource (resource : Resource) : List UInt8 :=
  match resource.value with
  | .server => [1]
  | .realm name => [2] ++ encodeText name
  | .domain data => [3] ++ encodeDomain data
  | .database data name => [4] ++ (encodeDomain data ++ encodeText name)
  | .object data name object => [5] ++ (encodeDomain data ++ (encodeText name ++ encodeText object))

def encodeScope (scope : Scope) : List UInt8 :=
  match scope.value with
  | .exact resource => [1] ++ encodeResource resource
  | .database data name => [2] ++ (encodeDomain data ++ encodeText name)
  | .allDatabases data => [3] ++ encodeDomain data
  | .allSecurityRealms => [4]
  | .nonSystemDocumentCollections name => [5] ++ encodeText name

def encodePrivilege (privilege : Privilege) : List UInt8 :=
  encodeText privilege.action.code ++ encodeScope privilege.scope

def encodePolicy (policy : Policy) : List UInt8 :=
  encodeShort policy.privileges.card ++
    (policy.privileges.sort (· ≤ ·)).flatMap encodePrivilege

def encodeRole (role : SecurityName × Policy) : List UInt8 :=
  encodeName role.1 ++ encodePolicy role.2

def encodeUser (roleNames : List SecurityName) (user : SecurityName × User) : List UInt8 :=
  encodeName user.1 ++ (encodeLong user.2.id ++ (encodeLong user.2.credentialGeneration ++
    (user.2.verifier.toRecord ++ (encodeShort user.2.roles.card ++
      (user.2.roles.sort (· ≤ ·)).flatMap fun role => encodeShort (roleNames.idxOf role)))))

def extendedScope (scope : Scope) : Bool :=
  match scope.value with
  | .nonSystemDocumentCollections _ => true
  | _ => false

def usesExtendedScopes (catalog : SecurityCatalog) : Bool :=
  catalog.roles.values.any fun policy =>
    decide (∃ grant ∈ policy.privileges, extendedScope grant.scope = true)

def roleNames (catalog : SecurityCatalog) : List SecurityName := catalog.roles.toList.map Prod.fst

def encode (catalog : SecurityCatalog) : EngineResult (List UInt8) :=
  if ∀ user ∈ catalog.users.values, ∀ role ∈ user.roles, role ∈ catalog.roleNames then
    .ok ((if catalog.usesExtendedScopes then magicV2 else magic) ++
      (encodeLong catalog.nextUserId ++ (encodeShort catalog.roles.size ++
        (catalog.roles.toList.flatMap encodeRole ++ (encodeShort catalog.users.size ++
          catalog.users.toList.flatMap (encodeUser catalog.roleNames))))))
  else .error invalidRecord

/-- The length of the record is known before it is written. -/
def toRecord (catalog : SecurityCatalog) :
    EngineResult (List UInt8) := do
  let payload ← catalog.encode
  if payload.length + checksumBytes > maxRecordBytes then throw limitExceeded
  return payload ++ checksum blake3 payload

abbrev RecordReader (α : Type) := ByteReader EngineError α

namespace RecordReader

def take (count : Nat) : RecordReader (List UInt8) := ByteReader.take invalidRecord count

def byte : RecordReader UInt8 := do
  let bytes ← take 1
  return bytes.headD 0

def short : RecordReader Nat := do
  let bytes ← take 2
  return Bytes.toBe bytes

def count (maximum : Nat) : RecordReader Nat := do
  let count ← short
  if count > maximum then throw invalidRecord
  return count

def long : RecordReader Nat := do
  let bytes ← take 8
  return Bytes.toBe bytes

def decodeText (bytes : List UInt8) : EngineResult String :=
  match Utf8.decode bytes with
  | some text => .ok text
  | none => .error invalidRecord

def text (maximum : Nat) : RecordReader String := do
  let length ← count maximum
  let bytes ← take length
  decodeText bytes

def name : RecordReader SecurityName := do
  let realm ← text 63
  let name ← text maxSecurityNameBytes
  SecurityName.new realm name

def domain : RecordReader DataDomain := do
  let tag ← byte
  if tag = 1 then return .relational
  else if tag = 2 then return .document
  else throw invalidRecord

def resource : RecordReader Resource := do
  let tag ← byte
  if tag = 1 then return Resource.server
  else if tag = 2 then
    let name ← text 63
    Resource.securityRealm name
  else if tag = 3 then
    let data ← domain
    return Resource.dataDomain data
  else if tag = 4 then
    let data ← domain
    let name ← text 63
    Resource.database data name
  else if tag = 5 then
    let data ← domain
    let name ← text 63
    let object ← text 253
    Resource.object data name object
  else throw invalidRecord

def scope (version : Nat) : RecordReader Scope := do
  let tag ← byte
  if tag = 1 then
    let resource ← resource
    return Scope.exact resource
  else if tag = 2 then
    let data ← domain
    let name ← text 63
    Scope.database data name
  else if tag = 3 then
    let data ← domain
    return Scope.allDatabases data
  else if tag = 4 then return Scope.allSecurityRealms
  else if tag = 5 ∧ version = 2 then
    let name ← text 63
    Scope.nonSystemDocumentCollections name
  else throw invalidRecord

def privilege (version : Nat) : RecordReader Privilege := do
  let code ← text 64
  let action ← (Action.fromCode code : EngineResult Action)
  let scope ← scope version
  Privilege.new action scope

/-- One more privilege that is not there yet. -/
def grant (version : Nat) (grants : Finset Privilege) : RecordReader (Finset Privilege) := do
  let grant ← privilege version
  if grant ∈ grants then throw invalidRecord
  return insert grant grants

def policy (version : Nat) : RecordReader Policy := do
  let count ← count maxPolicyPrivileges
  let grants ← ByteReader.loop (grant version) count ∅
  Policy.new (grants.sort (· ≤ ·))

def role (version : Nat) (state : SecurityCatalog × List SecurityName) :
    RecordReader (SecurityCatalog × List SecurityName) := do
  let name ← name
  let policy ← policy version
  let catalog ← (state.1.createRole name policy : EngineResult SecurityCatalog)
  return (catalog, state.2 ++ [name])

def roleIndex (roleNames : List SecurityName) (roles : Finset SecurityName) :
    RecordReader (Finset SecurityName) := do
  let index ← short
  match roleNames[index]? with
  | none => throw invalidRecord
  | some role => do
    if role ∈ roles then throw invalidRecord
    return insert role roles

/-- One more user with an identity that is neither taken nor to be given. -/
def user (roleNames : List SecurityName) (state : SecurityCatalog × Finset Nat) :
    RecordReader (SecurityCatalog × Finset Nat) := do
  let name ← name
  let id ← long
  let credentialGeneration ← long
  if id = 0 ∨ id ≥ state.1.nextUserId ∨ credentialGeneration = 0 ∨ id ∈ state.2 ∨
      name ∈ state.1.users then
    throw invalidRecord
  let bytes ← take ScramSha256Verifier.recordBytes
  let verifier ← (ScramSha256Verifier.fromRecord bytes : EngineResult ScramSha256Verifier)
  let count ← count maxPolicyRoles
  let roles ← ByteReader.loop (roleIndex roleNames) count ∅
  let roles ← (state.1.validateRoles (roles.sort (· ≤ ·)) : EngineResult (Finset SecurityName))
  return ({ state.1 with
    users := state.1.users.insert name ⟨id, credentialGeneration, verifier, roles⟩ },
    insert id state.2)

def version : RecordReader Nat := do
  let tag ← take 8
  if tag = magic then return 1
  else if tag = magicV2 then return 2
  else throw invalidRecord

/-- The version and the catalog of a payload. -/
def catalog (identity : Nat) : RecordReader (Nat × SecurityCatalog) := do
  let version ← version
  let nextUserId ← long
  if nextUserId = 0 then throw invalidRecord
  let roleCount ← count maxSecurityRoles
  let withRoles ← ByteReader.loop (role version) roleCount
    ({ new identity with nextUserId := nextUserId }, [])
  let userCount ← count maxSecurityUsers
  let withUsers ← ByteReader.loop (user withRoles.2) userCount (withRoles.1, ∅)
  return (version, withUsers.1)

end RecordReader

def decode (identity : Nat) (payload : List UInt8) : EngineResult SecurityCatalog := do
  let read ← RecordReader.catalog identity payload
  if read.2 ≠ [] ∨ decide (read.1.1 = 2) ≠ read.1.2.usesExtendedScopes then throw invalidRecord
  return read.1.2

/-- Whatever is wrong with a record, it is reported as invalid. -/
def fromRecord (identity : Nat) (bytes : List UInt8) : EngineResult SecurityCatalog :=
  let payload := bytes.take (bytes.length - checksumBytes)
  if bytes.length < minRecordBytes ∨ bytes.length > maxRecordBytes then .error invalidRecord
  else if ¬ (magic.isPrefixOf payload ∨ magicV2.isPrefixOf payload) ∨
      checksum blake3 payload ≠ bytes.drop (bytes.length - checksumBytes) then
    .error invalidRecord
  else (decode identity payload).mapError fun _ => invalidRecord

end SecurityCatalog

end BriskDB.Security
