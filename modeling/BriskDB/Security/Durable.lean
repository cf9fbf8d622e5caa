import BriskDB.Lib.Transition
import BriskDB.Security.Commands
import BriskDB.Security.Lineage

/-!
# Durable security catalogs

Any number of authorities share one store, whose single row holds a revision and a record. Every
decision of an authority starts with a refresh from the row; an update edits a copy and replaces
the row if its revision is still the one that was read. What cannot be told for certain fences
the authority.
-/

namespace BriskDB.Security

structure SecurityRow where
  revision : Nat
  record : List UInt8

structure SecurityCatalogStore where
  observedRevision : Nat
  fenced : Bool

namespace SecurityCatalogStore

def reopenRequired : EngineError :=
  .new .failedPrecondition "security store requires explicit reopen"

def corrupt : EngineError := .new .dataCorruption "security catalog store validation failed"

def revisionConflict : EngineError := .new .failedPrecondition "security store revision conflict"

def revisionExhausted : EngineError :=
  .new .limitExceeded "security store revision is invalid or exhausted"

inductive WriteOutcome
  | committed
  /-- The transaction could not read the row. -/
  | failedBefore (error : EngineError)
  /-- The write or its commit failed, which may have taken effect. -/
  | failedAfter (error : EngineError) (tookEffect : Bool)

section

variable (blake3 : List UInt8 → Blake3.Digest)

def readSnapshot (identity : Nat) (row : SecurityRow) (observed : Nat) :
    EngineResult SecurityCatalog :=
  if row.revision = 0 ∨ row.revision < observed then .error corrupt
  else (SecurityCatalog.fromRecord blake3 identity row.record).mapError fun _ => corrupt

def load (failure : Option EngineError) (identity : Nat) (row : SecurityRow)
    (store : SecurityCatalogStore) : EngineResult SecurityCatalog := do
  if store.fenced then throw reopenRequired
  match failure with
  | some error => throw error
  | none => readSnapshot blake3 identity row store.observedRevision

structure Replaced where
  row : SecurityRow
  store : SecurityCatalogStore
  result : EngineResult Nat

/-- Compare the revision and write the candidate. -/
def replace (outcome : WriteOutcome) (identity : Nat) (row : SecurityRow)
    (store : SecurityCatalogStore) (expected : Nat) (candidate : SecurityCatalog) : Replaced :=
  if store.fenced then ⟨row, store, .error reopenRequired⟩
  else if expected = 0 ∨ expected ≥ 2 ^ 63 - 1 then ⟨row, store, .error revisionExhausted⟩
  else
    match candidate.toRecord blake3, outcome with
    | .error error, _ => ⟨row, store, .error error⟩
    | .ok _, .failedBefore error => ⟨row, store, .error error⟩
    | .ok record, outcome =>
      match readSnapshot blake3 identity row store.observedRevision with
      | .error error => ⟨row, store, .error error⟩
      | .ok current =>
        if row.revision ≠ expected then
          ⟨row, ⟨row.revision, false⟩, .error revisionConflict⟩
        else
          match current.validateSuccessor candidate, outcome with
          | .error error, _ => ⟨row, ⟨row.revision, false⟩, .error error⟩
          | .ok (), .failedAfter error tookEffect =>
            ⟨if tookEffect then ⟨expected + 1, record⟩ else row, ⟨row.revision, true⟩,
              .error error⟩
          | .ok (), _ => ⟨⟨expected + 1, record⟩, ⟨expected + 1, false⟩, .ok (expected + 1)⟩

end

end SecurityCatalogStore

/-- Trusted code that works on a catalog through its methods. -/
structure CatalogEdit where
  apply : SecurityCatalog → EngineResult SecurityCatalog
  wellFormed : ∀ {catalog next}, catalog.WellFormed → apply catalog = .ok next → next.WellFormed

inductive Update
  | trusted (edit : CatalogEdit)
  | authorized (principal : Principal) (requirements : List (Action × Resource))
      (edit : CatalogEdit)
  | documentRole (principal : Principal) (name : SecurityName) (replacement : Option Policy)

namespace Update

def edit : Update → SecurityCatalog → EngineResult SecurityCatalog
  | .trusted edit | .authorized _ _ edit => edit.apply
  | .documentRole _ name replacement => fun catalog => catalog.updateDocumentRole name replacement

def authorize (catalog : SecurityCatalog) : Update → EngineResult Unit
  | .trusted _ => .ok ()
  | .authorized principal requirements _ => catalog.authorizeAll principal requirements
  | .documentRole principal name replacement =>
    catalog.authorizeDocumentRoleUpdate principal name replacement

/-- Who must be authorized for what. -/
def demand : Update → Option (Principal × List (Action × Resource))
  | .authorized principal requirements _ => some (principal, requirements)
  | _ => none

end Update

/-- An edited copy between its checks and the write. -/
structure Candidate where
  catalog : SecurityCatalog
  fingerprint : List UInt8
  update : Update

structure DurableSecurityCatalog where
  store : SecurityCatalogStore
  catalog : SecurityCatalog
  revision : Nat
  fingerprint : List UInt8
  fenced : Bool
  /-- The update in progress; no other call is possible meanwhile. -/
  candidate : Option Candidate

inductive Call
  | validatePrincipal (principal : Principal)
  | authorize (principal : Principal) (action : Action) (resource : Resource)
  | authorizeAll (principal : Principal) (requirements : List (Action × Resource))
  | beginScram (name : SecurityName)
  | completeScram (attempt : ScramAttempt) (authMessage clientProof : List UInt8)

inductive Reply
  | done
  | attempt (attempt : ScramAttempt)
  | authentication (authentication : ScramAuthentication)

namespace DurableSecurityCatalog

def reopenRequired : EngineError :=
  .new .failedPrecondition "security authority requires explicit reopen"

def corrupt : EngineError := .new .dataCorruption "security authority history is inconsistent"

section

variable (blake3 : List UInt8 → Blake3.Digest)
  (verifyClientProof : ScramSha256Verifier → List UInt8 → List UInt8 → EngineResult (List UInt8))

def fingerprintOf (catalog : SecurityCatalog) : EngineResult (List UInt8) := do
  let record ← catalog.toRecord blake3
  return (blake3 record).val

variable (failure : Option EngineError)

def fromStore (identity : Nat) (row : SecurityRow) :
    EngineResult DurableSecurityCatalog := do
  let catalog ← SecurityCatalogStore.load blake3 failure identity row ⟨0, false⟩
  let fingerprint ← fingerprintOf blake3 catalog
  return ⟨⟨row.revision, false⟩, catalog, row.revision, fingerprint, false, none⟩

variable (authority : DurableSecurityCatalog)

def publish (revision : Nat) (candidate : SecurityCatalog)
    (fingerprint : List UInt8) : DurableSecurityCatalog :=
  { authority with
    catalog := { candidate with identity := authority.catalog.identity }
    fingerprint := fingerprint
    revision := revision }

/-- What was loaded must be the known revision unchanged, or a later one that follows it. -/
def accept (revision : Nat) (candidate : SecurityCatalog) :
    EngineResult DurableSecurityCatalog := do
  let fingerprint ← fingerprintOf blake3 candidate
  if revision = authority.revision then
    if authority.fingerprint ≠ fingerprint then throw corrupt
    return authority
  else if revision < authority.revision then throw corrupt
  else
    (authority.catalog.validateSuccessor candidate).mapError fun _ => corrupt
    return authority.publish revision candidate fingerprint

/-- A refresh that fails fences the authority. -/
def refresh (identity : Nat) (row : SecurityRow)
    (authority : DurableSecurityCatalog) : DurableSecurityCatalog × EngineResult Unit :=
  if authority.fenced then (authority, .error reopenRequired)
  else
    match SecurityCatalogStore.load blake3 failure identity row authority.store with
    | .error error => ({ authority with fenced := true }, .error error)
    | .ok candidate =>
      let loaded := { authority with
        store := { authority.store with observedRevision := row.revision } }
      match accept blake3 loaded row.revision candidate with
      | .error error => ({ loaded with fenced := true }, .error error)
      | .ok refreshed => (refreshed, .ok ())

def decide (catalog : SecurityCatalog) : Call → EngineResult Reply
  | .validatePrincipal principal => do
    let _ ← catalog.currentUser principal
    return .done
  | .authorize principal action resource => do
    catalog.authorize principal action resource
    return .done
  | .authorizeAll principal requirements => do
    catalog.authorizeAll principal requirements
    return .done
  | .beginScram name => do return .attempt (← catalog.beginScram name)
  | .completeScram attempt authMessage clientProof => do
    let authentication ← catalog.completeScram verifyClientProof attempt authMessage clientProof
    return .authentication authentication

def call (failure : Option EngineError) (identity : Nat) (row : SecurityRow)
    (authority : DurableSecurityCatalog) (call : Call) :
    DurableSecurityCatalog × EngineResult Reply :=
  match refresh blake3 failure identity row authority with
  | (refreshed, .error error) => (refreshed, .error error)
  | (refreshed, .ok ()) => (refreshed, decide verifyClientProof refreshed.catalog call)

/-- The checked and edited copy of the catalog. -/
def prepare (detached : Nat) (update : Update) :
    EngineResult Candidate := do
  update.authorize authority.catalog
  let record ← authority.catalog.toRecord blake3
  let copy ← SecurityCatalog.fromRecord blake3 detached record
  let candidate ← update.edit copy
  authority.catalog.validateSuccessor candidate
  let fingerprint ← fingerprintOf blake3 candidate
  return ⟨candidate, fingerprint, update⟩

/-- An update up to its write. -/
def beginUpdate (identity detached : Nat) (row : SecurityRow)
    (authority : DurableSecurityCatalog) (update : Update) :
    DurableSecurityCatalog × EngineResult Unit :=
  match refresh blake3 failure identity row authority with
  | (refreshed, .error error) => (refreshed, .error error)
  | (refreshed, .ok ()) =>
    match prepare blake3 refreshed detached update with
    | .error error => (refreshed, .error error)
    | .ok candidate => ({ refreshed with candidate := some candidate }, .ok ())

/-- The write of an update. -/
def finishUpdate (outcome : SecurityCatalogStore.WriteOutcome) (identity : Nat) (row : SecurityRow)
    (authority : DurableSecurityCatalog) (candidate : Candidate) :
    SecurityRow × DurableSecurityCatalog × EngineResult Unit :=
  let replaced := SecurityCatalogStore.replace blake3 outcome identity row authority.store
    authority.revision candidate.catalog
  let written := { authority with store := replaced.store, candidate := none }
  match replaced.result with
  | .ok revision =>
    (replaced.row, written.publish revision candidate.catalog candidate.fingerprint, .ok ())
  | .error error =>
    let conflict := error.kind = .failedPrecondition ∧ replaced.store.fenced = false ∧
      replaced.store.observedRevision > authority.revision
    (replaced.row, { written with fenced := !conflict }, .error error)

end

end DurableSecurityCatalog

/-- A committed catalog, with the update that made it. -/
structure Commit where
  number : Nat
  catalog : SecurityCatalog
  update : Option Update

/-- The store and its authorities. -/
structure SecuritySystem where
  row : SecurityRow
  authorities : Nat → Option DurableSecurityCatalog
  nextIdentity : Nat
  history : List Commit

inductive SecurityAction
  | openStore (authority : Nat) (failure : Option EngineError)
  | call (authority : Nat) (failure : Option EngineError) (call : Call)
  | beginUpdate (authority : Nat) (failure : Option EngineError) (update : Update)
  | finishUpdate (authority : Nat) (outcome : SecurityCatalogStore.WriteOutcome)

namespace SecuritySystem

def create (catalog : SecurityCatalog) (record : List UInt8) : SecuritySystem where
  row := ⟨1, record⟩
  authorities := fun _ => none
  nextIdentity := 0
  history := [⟨1, catalog, none⟩]

def setAuthority (system : SecuritySystem) (index : Nat)
    (authority : Option DurableSecurityCatalog) : SecuritySystem :=
  { system with authorities := Function.update system.authorities index authority }

section

variable (blake3 : List UInt8 → Blake3.Digest)
  (verifyClientProof : ScramSha256Verifier → List UInt8 → List UInt8 → EngineResult (List UInt8))

/-- What an action does and replies; a call is possible between updates only. -/
def perform (system : SecuritySystem) : SecurityAction →
    Option (SecuritySystem × EngineResult Reply)
  | .openStore index failure =>
    match DurableSecurityCatalog.fromStore blake3 failure system.nextIdentity system.row with
    | .error error => some (system.setAuthority index none, .error error)
    | .ok authority =>
      some ({ system.setAuthority index (some authority) with
        nextIdentity := system.nextIdentity + 1 }, .ok .done)
  | .call index failure call =>
    match system.authorities index with
    | none => none
    | some authority =>
      match authority.candidate with
      | some _ => none
      | none =>
        let called := authority.call blake3 verifyClientProof failure system.nextIdentity
          system.row call
        some ({ system.setAuthority index (some called.1) with
          nextIdentity := system.nextIdentity + 1 }, called.2)
  | .beginUpdate index failure update =>
    match system.authorities index with
    | none => none
    | some authority =>
      match authority.candidate with
      | some _ => none
      | none =>
        let begun := authority.beginUpdate blake3 failure system.nextIdentity
          (system.nextIdentity + 1) system.row update
        some ({ system.setAuthority index (some begun.1) with
          nextIdentity := system.nextIdentity + 2 }, begun.2.map fun _ => .done)
  | .finishUpdate index outcome =>
    match system.authorities index with
    | none => none
    | some authority =>
      match authority.candidate with
      | none => none
      | some candidate =>
        let finished := authority.finishUpdate blake3 outcome system.nextIdentity system.row
          candidate
        let committed := if finished.1.revision = system.row.revision then []
          else [⟨finished.1.revision, candidate.catalog, some candidate.update⟩]
        some ({ system.setAuthority index (some finished.2.1) with
          row := finished.1
          nextIdentity := system.nextIdentity + 1
          history := system.history ++ committed }, finished.2.2.map fun _ => .done)

def step (system : SecuritySystem) (action : SecurityAction) : Option SecuritySystem :=
  (system.perform blake3 verifyClientProof action).map Prod.fst

end

end SecuritySystem

end BriskDB.Security
