import BriskDB.Lib.Bytes
import BriskDB.Lib.Dictionary
import BriskDB.Lib.Utf8
import BriskDB.Security.Policy

/-!
# The security catalog

Users and roles of every realm. A role has a flat policy; a user has an identity that is never
reused, a credential generation, and a set of existing roles whose policies combine. The methods
are trusted edits: they check the catalog's own limits, not the caller.
-/

namespace BriskDB.Security

def maxSecurityUsers : Nat := 1024
def maxSecurityRoles : Nat := 1024
def maxSecurityNameBytes : Nat := 128

structure SecurityName where
  realm : String
  name : String
  realm_valid : ValidDatabaseName realm
  name_valid : name ≠ "" ∧ name.utf8ByteSize ≤ maxSecurityNameBytes ∧ '\x00' ∉ name.toList

namespace SecurityName

/-- Names are ordered by realm first. -/
def key (name : SecurityName) : String ×ₗ String := toLex (name.realm, name.name)

theorem key_injective : Function.Injective key := by
  rintro ⟨realm, name, hrealm, hname⟩ ⟨realm', name', hrealm', hname'⟩ h
  obtain ⟨rfl, rfl⟩ := Prod.mk.inj (toLex.injective h)
  rfl

instance : LinearOrder SecurityName := LinearOrder.lift' key key_injective

instance isTrans_le : IsTrans SecurityName (· ≤ ·) := inferInstance

instance antisymm_le : Std.Antisymm (α := SecurityName) (· ≤ ·) := inferInstance

def new (realm name : String) : EngineResult SecurityName :=
  if hname : name ≠ "" ∧ name.utf8ByteSize ≤ maxSecurityNameBytes ∧ '\x00' ∉ name.toList then
    if hrealm : ValidDatabaseName realm then .ok ⟨realm, name, hrealm, hname⟩
    else .error (invalid "authorization database or realm name is invalid")
  else .error (invalid "security name is invalid")

end SecurityName

/-- What is stored for a password. -/
@[ext]
structure ScramSha256Verifier where
  iterations : Nat
  salt : List UInt8
  storedKey : List UInt8
  serverKey : List UInt8
  iterations_bounds : 4096 ≤ iterations ∧ iterations ≤ 1000000
  salt_length : salt.length = 16
  storedKey_length : storedKey.length = 32
  serverKey_length : serverKey.length = 32

instance : DecidableEq ScramSha256Verifier := fun _ _ =>
  decidable_of_iff _ ScramSha256Verifier.ext_iff.symm

namespace ScramSha256Verifier

def recordMagic : List UInt8 := Utf8.bytes "BRKSCR01"

def toRecord (verifier : ScramSha256Verifier) : List UInt8 :=
  recordMagic ++ (Bytes.ofBe 4 verifier.iterations ++
    (verifier.salt ++ (verifier.storedKey ++ verifier.serverKey)))

theorem toRecord_injective : Function.Injective toRecord := by
  intro left right h
  unfold toRecord at h
  have h := List.append_cancel_left h
  obtain ⟨hiterations, h⟩ := List.append_inj h (by simp)
  obtain ⟨hsalt, h⟩ := List.append_inj h (left.salt_length.trans right.salt_length.symm)
  obtain ⟨hstored, hserver⟩ :=
    List.append_inj h (left.storedKey_length.trans right.storedKey_length.symm)
  have hbound : ∀ verifier : ScramSha256Verifier, verifier.iterations < 256 ^ 4 :=
    fun verifier => verifier.iterations_bounds.2.trans_lt (by decide)
  have hequal := congrArg Bytes.toBe hiterations
  rw [Bytes.toBe_ofBe_of_lt (hbound left), Bytes.toBe_ofBe_of_lt (hbound right)] at hequal
  cases left
  cases right
  grind

end ScramSha256Verifier

structure User where
  id : Nat
  credentialGeneration : Nat
  verifier : ScramSha256Verifier
  roles : Finset SecurityName
  deriving DecidableEq

/-- An admitted identity. -/
structure Principal where
  catalog : Nat
  user : SecurityName
  userId : Nat
  credentialGeneration : Nat

/-- A user between the two messages of an authentication. -/
structure ScramAttempt where
  principal : Principal
  verifier : ScramSha256Verifier

structure ScramAuthentication where
  principal : Principal
  serverSignature : List UInt8

structure SecurityCatalog where
  identity : Nat
  nextUserId : Nat
  users : Dictionary SecurityName User
  roles : Dictionary SecurityName Policy
  deriving DecidableEq

namespace SecurityCatalog

def alreadyExists : EngineError := .new .uniqueViolation "security entry already exists"
def notFound : EngineError := .new .failedPrecondition "security entry does not exist"
def roleNotFound : EngineError := .new .failedPrecondition "security role does not exist"
def limitExceeded : EngineError := .new .limitExceeded "security catalog limit exceeded"
def authenticationFailed : EngineError := .new .permissionDenied "authentication failed"
/-- The source stops here; a catalog that its methods made never does. -/
def roleInvariant : EngineError := .new .internal "catalog role invariant"

def rewindsHistory : EngineError :=
  .new .failedPrecondition "security catalog replacement rewinds identity or credential history"

def expectRole : Option Policy → EngineResult Policy
  | some policy => .ok policy
  | none => .error roleInvariant

/-- The combined policy of a set of roles, in the order of their names. -/
def resolvePolicy (resolve : SecurityName → Option Policy) (names : Finset SecurityName) :
    EngineResult Policy := do
  let policies ← (names.sort (· ≤ ·)).mapM fun name => expectRole (resolve name)
  Policy.combine policies

variable (catalog : SecurityCatalog)

/-- Names that exist, not too many of them, as a set. -/
def validateRoles (roles : List SecurityName) :
    EngineResult (Finset SecurityName) := do
  roles.zipIdx.forM fun entry => do
    if entry.2 ≥ maxPolicyRoles then throw limitExceeded
    if entry.1 ∉ catalog.roles then throw notFound
  let _ ← resolvePolicy catalog.roles.lookup roles.toFinset
  return roles.toFinset

def new (identity : Nat) : SecurityCatalog := ⟨identity, 1, ∅, ∅⟩

variable (name : SecurityName)

def createRole (policy : Policy) :
    EngineResult SecurityCatalog := do
  if name ∈ catalog.roles then throw alreadyExists
  if catalog.roles.size = maxSecurityRoles then throw limitExceeded
  return { catalog with roles := catalog.roles.insert name policy }

/-- The new policy must combine with the other roles of every member. -/
def replaceRole (policy : Policy) :
    EngineResult SecurityCatalog := do
  if name ∉ catalog.roles then throw notFound
  (catalog.users.values.filter fun user => name ∈ user.roles).forM fun user => do
    let _ ← resolvePolicy
      (fun role => if role = name then some policy else catalog.roles.lookup role) user.roles
  return { catalog with roles := catalog.roles.insert name policy }

def dropRole : EngineResult SecurityCatalog := do
  if name ∉ catalog.roles then throw roleNotFound
  return { catalog with
    roles := catalog.roles.erase name
    users := catalog.users.mapValues fun user => { user with roles := user.roles.erase name } }

variable (verifier : ScramSha256Verifier)

def createUser (roles : List SecurityName) : EngineResult SecurityCatalog := do
  if name ∈ catalog.users then throw alreadyExists
  if catalog.users.size = maxSecurityUsers then throw limitExceeded
  let roles ← catalog.validateRoles roles
  if catalog.nextUserId + 1 ≥ 2 ^ 64 then throw limitExceeded
  return { catalog with
    users := catalog.users.insert name ⟨catalog.nextUserId, 1, verifier, roles⟩
    nextUserId := catalog.nextUserId + 1 }

def editUser (change : User → EngineResult User) : EngineResult SecurityCatalog :=
  match catalog.users.lookup name with
  | none => .error notFound
  | some user => do
    let user ← change user
    return { catalog with users := catalog.users.insert name user }

variable (roles : List SecurityName)

def setUserRoles : EngineResult SecurityCatalog :=
  catalog.editUser name fun user => do
    let roles ← catalog.validateRoles roles
    return { user with roles := roles }

/-- The additions are validated before the user is looked up. -/
def grantUserRoles :
    EngineResult SecurityCatalog := do
  let additions ← catalog.validateRoles roles
  catalog.editUser name fun user => do
    let combined ← catalog.validateRoles ((user.roles ∪ additions).sort (· ≤ ·))
    return { user with roles := combined }

def revokeUserRoles : EngineResult SecurityCatalog :=
  catalog.editUser name fun user => do
    if roles.length > maxPolicyRoles then throw limitExceeded
    return { user with roles := user.roles \ roles.toFinset }

def rotateCredentials : EngineResult SecurityCatalog :=
  catalog.editUser name fun user => do
    if user.credentialGeneration + 1 ≥ 2 ^ 64 then throw limitExceeded
    return { user with
      verifier := verifier
      credentialGeneration := user.credentialGeneration + 1 }

def dropUser : EngineResult SecurityCatalog := do
  if name ∉ catalog.users then throw notFound
  return { catalog with users := catalog.users.erase name }

def beginScram : EngineResult ScramAttempt :=
  match catalog.users.lookup name with
  | none => .error authenticationFailed
  | some user => .ok ⟨⟨catalog.identity, name, user.id, user.credentialGeneration⟩, user.verifier⟩

variable (principal : Principal)

def currentUser : EngineResult User :=
  if catalog.identity ≠ principal.catalog then .error denied
  else
    match catalog.users.lookup principal.user with
    | none => .error denied
    | some user =>
      if user.id ≠ principal.userId ∨
          user.credentialGeneration ≠ principal.credentialGeneration then .error denied
      else .ok user

def completeScram
    (verifyClientProof : ScramSha256Verifier → List UInt8 → List UInt8 → EngineResult (List UInt8))
    (catalog : SecurityCatalog) (attempt : ScramAttempt) (authMessage clientProof : List UInt8) :
    EngineResult ScramAuthentication := do
  let _ ← (catalog.currentUser attempt.principal).mapError fun _ => authenticationFailed
  let signature ← (verifyClientProof attempt.verifier authMessage clientProof).mapError
    fun _ => authenticationFailed
  return ⟨attempt.principal, signature⟩

def currentPolicy : EngineResult Policy := do
  let user ← catalog.currentUser principal
  resolvePolicy catalog.roles.lookup user.roles

def authorize (action : Action) (resource : Resource) : EngineResult Unit := do
  let policy ← catalog.currentPolicy principal
  policy.authorize action resource

def authorizeAll (requirements : List (Action × Resource)) : EngineResult Unit := do
  let policy ← catalog.currentPolicy principal
  policy.authorizeAll requirements

/-- What a later entry may not do to an identity that the catalog knows. -/
def validateSuccessorUser (next : User) : EngineResult Unit :=
  match (catalog.users.lookup name).filter fun previous => previous.id = next.id with
  | some previous =>
    if next.credentialGeneration < previous.credentialGeneration then .error rewindsHistory
    else if next.credentialGeneration = previous.credentialGeneration ∧
        previous.verifier.toRecord ≠ next.verifier.toRecord then .error rewindsHistory
    else .ok ()
  | none => if next.id < catalog.nextUserId then .error rewindsHistory else .ok ()

def validateSuccessor (catalog successor : SecurityCatalog) : EngineResult Unit := do
  if successor.nextUserId < catalog.nextUserId then throw rewindsHistory
  successor.users.toList.forM fun entry => catalog.validateSuccessorUser entry.1 entry.2

end SecurityCatalog

end BriskDB.Security
