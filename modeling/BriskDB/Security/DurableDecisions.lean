import BriskDB.Security.DurableHistory

/-! # Decisions of durable security catalogs

What an authority accepts, it accepts on the catalog that was committed last when it refreshed.
Credentials that a later commit does not have are superseded from then on, so a principal or an
attempt with them is refused by every authority, whatever is created afterwards. A write whose
outcome is not known leaves an authority that refuses everything until it is opened again.
-/

namespace BriskDB.Security

open SecurityCatalog Result Transition DurableSecurityCatalog SecuritySystem List

variable {blake3 : List UInt8 → Blake3.Digest}
  {verifyClientProof : ScramSha256Verifier → List UInt8 → List UInt8 → EngineResult (List UInt8)}
  {system next final : SecuritySystem} {principal : Principal}

def Call.presented : Call → Option Principal
  | .validatePrincipal principal | .authorize principal _ _ | .authorizeAll principal _ =>
    some principal
  | .completeScram attempt _ _ => some attempt.principal
  | .beginScram _ => none

def SecurityAction.presented : SecurityAction → Option Principal
  | .call _ _ request => request.presented
  | .beginUpdate _ _ (.authorized principal _ _)
  | .beginUpdate _ _ (.documentRole principal _ _) => some principal
  | _ => none

def Reply.issued : Reply → Option Principal
  | .done => none
  | .attempt begun => some begun.principal
  | .authentication completed => some completed.principal

def Call.requirements : Call → Option (Principal × List (Action × Resource))
  | .authorize principal action resource => some (principal, [(action, resource)])
  | .authorizeAll principal requirements => some (principal, requirements)
  | _ => none

def Grants (catalog : SecurityCatalog) (user : User) (action : Action) (resource : Resource) :
    Prop :=
  ∃ role ∈ user.roles, ∃ grant, catalog.Carries role grant ∧ grant.action = action ∧
    grant.scope.covers resource = true

/-- The credentials of the principal are those of the user in the catalog. -/
def Current (catalog : SecurityCatalog) (principal : Principal) : Prop :=
  catalog.HasCredentials principal.user principal.userId principal.credentialGeneration

variable {catalog : SecurityCatalog} {user : User} {policy : Policy} {call : Call} {index : Nat}
    {failure : Option EngineError} {authority : DurableSecurityCatalog} {P : SecurityCatalog → Prop}

theorem current_of_currentUser
    (h : catalog.currentUser principal = .ok user) : Current catalog principal :=
  ⟨user, currentUser_spec h⟩

theorem current_of_currentPolicy
    (h : catalog.currentPolicy principal = .ok policy) : Current catalog principal := by
  obtain ⟨user, huser, -⟩ := bind_eq_ok.mp h
  exact current_of_currentUser huser

theorem grants_of_currentPolicy (h : catalog.currentPolicy principal = .ok policy) :
    ∃ user, catalog.users.lookup principal.user = some user ∧ user.id = principal.userId ∧
      user.credentialGeneration = principal.credentialGeneration ∧
      ∀ action resource, policy.allows action resource →
        Grants catalog user action resource := by
  obtain ⟨user, huser, hresolve⟩ := bind_eq_ok.mp h
  obtain ⟨hlookup, hid, hgeneration⟩ := currentUser_spec huser
  refine ⟨user, hlookup, hid, hgeneration, ?_⟩
  rintro action resource ⟨-, grant, hgrant, haction, hcovers⟩
  obtain ⟨-, -, hprivileges⟩ := resolvePolicy_eq_ok.mp hresolve
  rw [hprivileges] at hgrant
  obtain ⟨role, hrole, hgrant⟩ := Finset.mem_biUnion.mp hgrant
  refine ⟨role, hrole, grant, ?_, haction, hcovers⟩
  unfold carried at hgrant
  cases hpolicy : catalog.roles.lookup role with
  | none => simp [hpolicy] at hgrant
  | some policy =>
    simp only [hpolicy] at hgrant
    exact ⟨policy, hpolicy, hgrant⟩

variable {reply : Reply} {action : SecurityAction}

theorem current_of_decide
    (h : decide verifyClientProof catalog call = .ok reply)
    (hpresented : call.presented = some principal) : Current catalog principal := by
  cases call with
  | validatePrincipal presented =>
    cases hpresented
    obtain ⟨user, huser, -⟩ := bind_eq_ok.mp h
    exact current_of_currentUser huser
  | authorize | authorizeAll =>
    cases hpresented
    obtain ⟨⟨⟩, hauthorized, -⟩ := bind_eq_ok.mp h
    obtain ⟨policy, hpolicy, -⟩ := bind_eq_ok.mp hauthorized
    exact current_of_currentPolicy hpolicy
  | beginScram name => cases hpresented
  | completeScram attempt authMessage clientProof =>
    cases hpresented
    obtain ⟨authentication, hcomplete, -⟩ := bind_eq_ok.mp h
    obtain ⟨user, huser, -⟩ := bind_eq_ok.mp hcomplete
    exact current_of_currentUser (mapError_eq_ok.mp huser)

theorem current_of_issued
    (h : decide verifyClientProof catalog call = .ok reply)
    (hissued : reply.issued = some principal) : Current catalog principal := by
  cases call with
  | validatePrincipal presented =>
    obtain ⟨user, -, h⟩ := bind_eq_ok.mp h
    cases h
    cases hissued
  | authorize | authorizeAll =>
    obtain ⟨⟨⟩, -, h⟩ := bind_eq_ok.mp h
    cases h
    cases hissued
  | beginScram name =>
    obtain ⟨attempt, hbegin, h⟩ := bind_eq_ok.mp h
    cases h
    cases hissued
    unfold beginScram at hbegin
    split at hbegin
    next => cases hbegin
    next user huser =>
      cases hbegin
      exact ⟨user, huser, rfl, rfl⟩
  | completeScram attempt authMessage clientProof =>
    obtain ⟨authentication, hcomplete, hreply⟩ := bind_eq_ok.mp h
    cases hreply
    obtain ⟨user, huser, hcomplete⟩ := bind_eq_ok.mp hcomplete
    obtain ⟨signature, -, hcomplete⟩ := bind_eq_ok.mp hcomplete
    cases hcomplete
    cases hissued
    exact current_of_currentUser (mapError_eq_ok.mp huser)

theorem current_of_update {update : Update} (h : update.authorize catalog = .ok ())
    (hpresented : (SecurityAction.beginUpdate index failure update).presented = some principal) :
    Current catalog principal := by
  cases update with
  | trusted edit => cases hpresented
  | authorized | documentRole =>
    cases hpresented
    obtain ⟨policy, hpolicy, -⟩ := bind_eq_ok.mp h
    exact current_of_currentPolicy hpolicy

def Lately (history : List Commit) (P : SecurityCatalog → Prop) : Prop :=
  ∃ commit, history[history.length - 1]? = some commit ∧ P commit.catalog

/-- What holds of an up-to-date authority in any incarnation holds of the last commit. -/
theorem UpToDate.last {row : SecurityRow} {history : List Commit}
    (h : UpToDate row history authority)
    (hidentity : ∀ catalog identity, P { catalog with identity := identity } → P catalog)
    (hholds : P authority.catalog) : Lately history P := by
  obtain ⟨-, commit, hcommit, hcatalog⟩ := h
  rw [hcatalog] at hholds
  exact ⟨commit, hcommit, hidentity _ _ hholds⟩

section

variable (h : Consistent blake3 system)
include h

theorem last_of_accepts (hasks : action.asks = some index)
    (hperform : system.perform blake3 verifyClientProof action = some (next, .ok reply))
    (hidentity : ∀ catalog identity, P { catalog with identity := identity } → P catalog)
    (hshown : ∀ catalog, action.Accepts verifyClientProof catalog reply → P catalog) :
    Lately system.history P := by
  obtain ⟨_, acted, _, -, -, hasked⟩ := perform_ask hasks hperform
  obtain ⟨hdate, haccepts⟩ := (hasked h).accepted reply rfl
  exact hdate.last hidentity (hshown acted.catalog haccepts)

section

variable (hperform : system.perform blake3 verifyClientProof action = some (next, .ok reply))
include hperform

theorem current_of_accepted (hpresented : action.presented = some principal) :
    Lately system.history (Current · principal) := by
  cases action with
  | openStore | finishUpdate => cases hpresented
  | call =>
    exact last_of_accepts h rfl hperform (fun _ _ hcurrent => hcurrent) fun _ hdecide =>
      current_of_decide hdecide hpresented
  | beginUpdate =>
    exact last_of_accepts h rfl hperform (fun _ _ hcurrent => hcurrent) fun _ haccepts =>
      current_of_update haccepts.2 hpresented

/-- An issued principal is current in the last commit, which the call does not change. -/
theorem current_of_issuing (hissued : reply.issued = some principal) :
    next.history = system.history ∧ Lately system.history (Current · principal) := by
  cases action with
  | openStore index failure =>
    simp only [perform] at hperform
    split at hperform
    next => cases hperform
    next =>
      cases hperform
      cases hissued
  | beginUpdate =>
    obtain ⟨_, _, _, -, -, hasked⟩ := perform_ask rfl hperform
    obtain ⟨-, rfl, -⟩ := (hasked h).accepted reply rfl
    cases hissued
  | finishUpdate =>
    obtain ⟨_, _, finished, -, -, -, -, hreply⟩ := perform_finishUpdate hperform
    obtain ⟨⟨⟩, -, rfl⟩ := map_eq_ok.mp hreply.symm
    cases hissued
  | call =>
    obtain ⟨_, _, _, -, hnext, -⟩ := perform_ask rfl hperform
    refine ⟨by rw [hnext]; rfl, ?_⟩
    exact last_of_accepts h rfl hperform (fun _ _ hcurrent => hcurrent) fun _ hdecide =>
      current_of_issued hdecide hissued

end

theorem granted_of_authorized
    (hperform : system.perform blake3 verifyClientProof (.call index failure call) =
      some (next, .ok reply)) {requirements : List (Action × Resource)}
    (hrequirements : call.requirements = some (principal, requirements)) :
    Lately system.history fun catalog =>
      ∃ user, catalog.users.lookup principal.user = some user ∧ user.id = principal.userId ∧
        user.credentialGeneration = principal.credentialGeneration ∧
        ∀ requirement ∈ requirements, Grants catalog user requirement.1 requirement.2 := by
  refine last_of_accepts h rfl hperform (fun _ _ hgranted => hgranted) fun catalog hdecided => ?_
  cases call with
  | validatePrincipal | beginScram | completeScram => cases hrequirements
  | authorize presented action resource =>
    cases hrequirements
    obtain ⟨⟨⟩, hauthorized, -⟩ := bind_eq_ok.mp hdecided
    obtain ⟨policy, hpolicy, hauthorized⟩ := bind_eq_ok.mp hauthorized
    obtain ⟨user, huser, hid, hgeneration, hgrants⟩ := grants_of_currentPolicy hpolicy
    refine ⟨user, huser, hid, hgeneration, fun requirement hmem => ?_⟩
    cases mem_singleton.mp hmem
    exact hgrants action resource (Policy.authorize_eq_ok.mp hauthorized)
  | authorizeAll presented requirements =>
    cases hrequirements
    obtain ⟨⟨⟩, hauthorized, -⟩ := bind_eq_ok.mp hdecided
    obtain ⟨policy, hpolicy, hauthorized⟩ := bind_eq_ok.mp hauthorized
    grind [grants_of_currentPolicy, Policy.authorizeAll_spec]

end

theorem isPrefix_perform {reply : EngineResult Reply}
    (hperform : system.perform blake3 verifyClientProof action = some (next, reply)) :
    system.history <+: next.history := by
  cases action with
  | openStore index failure =>
    simp only [perform] at hperform
    split at hperform
    next =>
      cases hperform
      exact prefix_rfl
    next =>
      cases hperform
      exact prefix_rfl
  | call | beginUpdate =>
    obtain ⟨_, _, _, -, rfl, -⟩ := perform_ask rfl hperform
    exact prefix_rfl
  | finishUpdate index outcome =>
    obtain ⟨_, _, _, -, -, -, rfl, -⟩ := perform_finishUpdate hperform
    exact prefix_append _ _

theorem isPrefix_run {actions : List SecurityAction}
    (hrun : run (step blake3 verifyClientProof) system actions =
      some next) : system.history <+: next.history := by
  apply run_preserves (P := fun later => system.history <+: later.history) _
    prefix_rfl hrun
  intro middle action later hprefixed hstep
  obtain ⟨⟨performed, reply⟩, hperform, rfl⟩ := Option.map_eq_some_iff.mp hstep
  exact hprefixed.trans (isPrefix_perform hperform)

/-- Credentials that were current and that some later commit does not have are refused. -/
theorem refused_of_superseded (h : Consistent blake3 final) {issue drop : Nat}
    {issued dropped : Commit} (hissue : final.history[issue]? = some issued)
    (hcurrent : Current issued.catalog principal) (hle : issue ≤ drop)
    (hdrop : final.history[drop]? = some dropped) (hlost : ¬ Current dropped.catalog principal)
    {after : SecuritySystem} {result : EngineResult Reply}
    (hperform : final.perform blake3 verifyClientProof action = some (after, result))
    (hpresented : action.presented = some principal) : ∃ error, result = .error error := by
  cases result with
  | error error => exact ⟨error, rfl⟩
  | ok reply =>
    exfalso
    obtain ⟨last, hlast, haccepted⟩ := current_of_accepted h hperform hpresented
    obtain ⟨hlt, -⟩ := List.getElem?_eq_some_iff.mp hdrop
    have hsuperseded : dropped.catalog.Superseded principal.user principal.userId
        principal.credentialGeneration :=
      superseded_of_lost (h.recorded.wellFormed issued (List.mem_of_getElem? hissue))
        (h.recorded.precedes hle hissue hdrop) hcurrent hlost
    have hlater := hsuperseded.precedes (h.recorded.precedes (by omega) hdrop hlast)
    exact hlater.not_hasCredentials haccepted

def Fenced (system : SecuritySystem) (index : Nat) : Prop :=
  ∃ authority, system.authorities index = some authority ∧ authority.fenced = true ∧
    authority.candidate = none

theorem authorities_setAuthority (index other : Nat) (authority : Option DurableSecurityCatalog) :
    (system.setAuthority index authority).authorities other =
      if other = index then authority else system.authorities other := by
  simp [setAuthority, Function.update_apply]

namespace Fenced

variable {index : Nat}

theorem refuses (h : Fenced system index) (hconsistent : Consistent blake3 system) :
    (∀ failure call after result, system.perform blake3 verifyClientProof
        (.call index failure call) = some (after, result) →
      result = .error reopenRequired) ∧
    (∀ failure update after result, system.perform blake3 verifyClientProof
        (.beginUpdate index failure update) = some (after, result) →
      result = .error reopenRequired) ∧
    ∀ outcome, system.perform blake3 verifyClientProof (.finishUpdate index outcome) = none := by
  obtain ⟨fenced, hfound, hfenced, hnone⟩ := h
  have hasked : ∀ action after result, action.asks = some index →
      system.perform blake3 verifyClientProof action = some (after, result) →
        result = .error reopenRequired := by
    intro action after result hasks hperform
    obtain ⟨authority, _, _, hauthority, -, hasked⟩ := perform_ask hasks hperform
    cases hauthority.symm.trans hfound
    exact ((hasked hconsistent).fenced hfenced).2
  refine ⟨fun _ _ _ _ => hasked _ _ _ rfl, fun _ _ _ _ => hasked _ _ _ rfl, fun outcome => ?_⟩
  simp [perform, hfound, hnone]

theorem perform (h : Fenced system index) (hconsistent : Consistent blake3 system)
    {reply : EngineResult Reply}
    (hperform : system.perform blake3 verifyClientProof action = some (next, reply))
    (hother : ∀ failure, action ≠ .openStore index failure) : Fenced next index := by
  obtain ⟨fenced, hfound, hfenced, hnone⟩ := h
  cases action with
  | openStore other failure =>
    have hne : index ≠ other := by
      rintro rfl
      exact hother failure rfl
    have hkept : ∀ authority, (system.setAuthority other authority).authorities index =
        some fenced := by
      intro authority
      rw [authorities_setAuthority, if_neg hne, hfound]
    simp only [SecuritySystem.perform] at hperform
    split at hperform
    next =>
      cases hperform
      exact ⟨fenced, hkept _, hfenced, hnone⟩
    next =>
      cases hperform
      exact ⟨fenced, hkept _, hfenced, hnone⟩
  | call | beginUpdate =>
    obtain ⟨authority, acted, _, hauthority, rfl, hasked⟩ := perform_ask rfl hperform
    refine ⟨fenced, ?_, hfenced, hnone⟩
    simp only [authorities_setAuthority]
    split
    next hsame =>
      subst hsame
      cases hauthority.symm.trans hfound
      rw [((hasked hconsistent).fenced hfenced).1]
    next => exact hfound
  | finishUpdate other outcome =>
    obtain ⟨authority, candidate, finished, hauthority, hcandidate, -, rfl, -⟩ :=
      perform_finishUpdate hperform
    have hne : index ≠ other := by
      rintro rfl
      cases hauthority.symm.trans hfound
      exact absurd (hnone.symm.trans hcandidate) (by simp)
    refine ⟨fenced, ?_, hfenced, hnone⟩
    simp [*]

theorem run (h : Fenced system index) (hconsistent : Consistent blake3 system)
    {actions : List SecurityAction}
    (hother : ∀ action ∈ actions, ∀ failure, action ≠ .openStore index failure)
    (hrun : run (step blake3 verifyClientProof) system actions =
      some next) : Fenced next index := by
  induction actions generalizing system with
  | nil =>
    cases hrun
    exact h
  | cons action actions ih =>
    obtain ⟨middle, hstep, hrun⟩ := run_cons_eq_some.mp hrun
    obtain ⟨⟨performed, reply⟩, hperform, rfl⟩ := Option.map_eq_some_iff.mp hstep
    apply ih (h.perform hconsistent hperform (hother action (mem_cons_self ..)))
      (hconsistent.perform hperform) _ hrun
    grind

end Fenced

/-- A write that fails after it was compared with the row fences the authority. -/
theorem fenced_of_uncertain (h : Consistent blake3 system)
    {outcome : SecurityCatalogStore.WriteOutcome} {error : EngineError}
    (hauthority : system.authorities index = some authority)
    (hrevision : authority.revision = system.row.revision)
    (hperform : system.perform blake3 verifyClientProof (.finishUpdate index outcome) =
      some (next, .error error)) : Fenced next index := by
  obtain ⟨found, candidate, finished, hfound, hcandidate, hfinished, rfl, hreply⟩ :=
    perform_finishUpdate hperform
  cases hauthority.symm.trans hfound
  obtain ⟨hnone, hcases⟩ := finishUpdate_cases h.recorded (h.authority index authority hauthority)
    hcandidate hfinished
  refine ⟨finished.2.1, by simp, ?_, hnone⟩
  rcases hcases with ⟨-, -, -, hfenced⟩ | ⟨-, -, -, -, hok | ⟨-, hfenced⟩⟩
  · exact hfenced hrevision
  · rw [hok] at hreply
    cases hreply
  · exact hfenced

theorem decisions_follow_history (blake3 : List UInt8 → Blake3.Digest)
    (verifyClientProof : ScramSha256Verifier → List UInt8 → List UInt8 → EngineResult (List UInt8))
    {catalog : SecurityCatalog} {record : List UInt8} (hcatalog : catalog.WellFormed)
    (hrecord : catalog.toRecord blake3 = .ok record) {actions : List SecurityAction}
    (hrun : run (step blake3 verifyClientProof) (create catalog record) actions = some system) :
    (∀ index authority, system.authorities index = some authority → authority.fenced = false →
      authority.candidate = none →
        (authority.refresh blake3 none system.nextIdentity system.row).2 = .ok ()) ∧
    (∀ index failure call next reply principal requirements,
      system.perform blake3 verifyClientProof (.call index failure call) = some (next, .ok reply) →
      call.requirements = some (principal, requirements) →
      ∃ commit, system.history[system.history.length - 1]? = some commit ∧
        ∃ user, commit.catalog.users.lookup principal.user = some user ∧
          user.id = principal.userId ∧
          user.credentialGeneration = principal.credentialGeneration ∧
          ∀ requirement ∈ requirements,
            Grants commit.catalog user requirement.1 requirement.2) ∧
    (∀ action next reply principal,
      system.perform blake3 verifyClientProof action = some (next, .ok reply) →
      reply.issued = some principal → ∀ later final,
      run (step blake3 verifyClientProof) next later = some final →
      (∃ index commit, next.history.length ≤ index ∧ final.history[index]? = some commit ∧
        ¬ Current commit.catalog principal) →
      ∀ presenting after result,
        final.perform blake3 verifyClientProof presenting = some (after, result) →
        presenting.presented = some principal → ∃ error, result = .error error) ∧
    Demanded system.history ∧ (system.history.map Commit.number).Nodup ∧
    ∀ index authority outcome error next, system.authorities index = some authority →
      authority.revision = system.row.revision →
      system.perform blake3 verifyClientProof (.finishUpdate index outcome) =
        some (next, .error error) →
      ∀ later final, (∀ action ∈ later, ∀ failure, action ≠ .openStore index failure) →
        run (step blake3 verifyClientProof) next later = some final →
        (∀ failure call after result, final.perform blake3 verifyClientProof
            (.call index failure call) = some (after, result) →
          result = .error reopenRequired) ∧
        (∀ failure update after result, final.perform blake3 verifyClientProof
            (.beginUpdate index failure update) = some (after, result) →
          result = .error reopenRequired) ∧
        ∀ outcome, final.perform blake3 verifyClientProof (.finishUpdate index outcome) =
          none := by
  have h : Consistent blake3 system := (Consistent.create hcatalog hrecord).run hrun
  refine ⟨?_, ?_, ?_, h.recorded.demanded, ?_, ?_⟩
  · intro index authority hauthority hopen hidle
    rcases refresh_cases h.recorded (h.authority index authority hauthority) hidle none
      system.nextIdentity with ⟨hfenced, -⟩ | ⟨-, error, hfailure, -⟩ | ⟨-, -, _, hrefresh, -⟩
    · exact absurd (hopen.symm.trans hfenced) (by simp)
    · cases hfailure
    · rw [hrefresh]
  · intro index failure call next reply principal requirements hperform hrequirements
    exact granted_of_authorized h hperform hrequirements
  · rintro action next reply principal hperform hissued later final hlater
      ⟨drop, dropped, hafter, hdrop, hlost⟩ presenting after result hpresent hpresented
    obtain ⟨hsame, issued, hissue, hcurrent⟩ := current_of_issuing h hperform hissued
    have hkept : final.history[system.history.length - 1]? = some issued := by
      obtain ⟨more, hmore⟩ := hsame ▸ isPrefix_run hlater
      obtain ⟨hlt, -⟩ := List.getElem?_eq_some_iff.mp hissue
      rw [← hmore, List.getElem?_append_left hlt]
      exact hissue
    rw [hsame] at hafter
    exact refused_of_superseded ((h.perform hperform).run hlater) hkept hcurrent (by omega) hdrop
      hlost hpresent hpresented
  · rw [h.recorded.numbers]
    exact nodup_range'
  · intro index authority outcome error next hauthority hrevision hperform later final hother hlater
    have hnext := h.perform hperform
    have hfenced := fenced_of_uncertain h hauthority hrevision hperform
    exact (hfenced.run hnext hother hlater).refuses (hnext.run hlater)

namespace SecurityCatalog.Staffed

/-- A hash of one value and a proof that is always accepted, with which runs are evaluated. -/
def plain : List UInt8 → Blake3.Digest := fun _ => ⟨replicate 32 0, rfl⟩

def proven : ScramSha256Verifier → List UInt8 → List UInt8 → EngineResult (List UInt8) :=
  fun _ _ _ => .ok []

def rotate : CatalogEdit :=
  ⟨(Edit.rotateCredentials admin verifier).apply, fun h hedit => h.edit hedit⟩

/-- The administrator rotates its credentials, and then a trusted host does so once more. -/
def rotations : List SecurityAction :=
  [.beginUpdate 0 none (.authorized ⟨0, admin, 1, 1⟩ [(.grantRole, admin.realmResource)] rotate),
    .finishUpdate 0 .committed, .beginUpdate 0 none (.trusted rotate), .finishUpdate 0 .committed]

/-- Two authorities open the store, and one of them admits the administrator. -/
def admitted (record : List UInt8) : Option (SecuritySystem × EngineResult Reply) :=
  (Transition.run (step plain proven) (create staff record)
    [.openStore 0 none, .openStore 1 none]).bind fun opened => opened.perform plain proven (.call 0 none (.beginScram admin))

def authorizing : SecurityAction :=
  .call 1 none (.authorize ⟨1, admin, 1, 3⟩ .grantRole admin.realmResource)

end SecurityCatalog.Staffed

open SecurityCatalog.Staffed in
/-- The other authority goes from the first revision to the third; it authorizes the new
credentials, and the old ones are refused. -/
theorem decisions_follow_history_rotated :
    ∃ record issued reply principal system authority, staff.toRecord plain = .ok record ∧
      admitted record = some (issued, .ok reply) ∧ reply.issued = some principal ∧
      run (step plain proven) issued rotations = some system ∧
      system.history.map Commit.number = [1, 2, 3] ∧ Demanded system.history ∧
      system.authorities 1 = some authority ∧ authority.revision = 1 ∧
      (authority.refresh plain none system.nextIdentity system.row).2 = .ok () ∧
      (∃ next reply, system.perform plain proven authorizing = some (next, .ok reply) ∧
        ∃ commit user, system.history[2]? = some commit ∧
          commit.catalog.users.lookup admin = some user ∧ user.credentialGeneration = 3 ∧
          Grants commit.catalog user .grantRole admin.realmResource) ∧
      ∀ after result, system.perform plain proven
          (.call 0 none (.validatePrincipal principal)) = some (after, result) →
        ∃ error, result = .error error := by
  obtain ⟨record, hrecord⟩ := @exists_of_toOption _ _ (staff.toRecord plain) (by decide +kernel)
  have hshown : (staff.toRecord plain).toOption.bind (fun record =>
      (admitted record).bind fun issued =>
        (run (step plain proven) issued.1 rotations).bind fun system =>
          (system.authorities 1).bind fun authority =>
            (system.perform plain proven authorizing).map fun called => decide
              ((issued.2.toOption.bind Reply.issued).any (fun principal =>
                  principal.user = admin ∧ principal.credentialGeneration = 1) ∧
                issued.1.history.length = 1 ∧ system.history.map Commit.number = [1, 2, 3] ∧
                system.history[2]?.any (fun commit =>
                  commit.catalog.users.lookup admin = some ⟨1, 3, verifier, {admin}⟩) ∧
                authority.revision = 1 ∧ authority.fenced = false ∧
                authority.candidate.isNone ∧ called.2.toOption.isSome)) = some true := by
    decide +kernel
  rw [hrecord] at hshown
  obtain ⟨_, ⟨⟩, hshown⟩ := Option.bind_eq_some_iff.mp hshown
  obtain ⟨⟨issued, answer⟩, hissued, hshown⟩ := Option.bind_eq_some_iff.mp hshown
  obtain ⟨system, hrun, hshown⟩ := Option.bind_eq_some_iff.mp hshown
  obtain ⟨authority, hauthority, hshown⟩ := Option.bind_eq_some_iff.mp hshown
  obtain ⟨⟨next, called⟩, hcalled, hshown⟩ := Option.map_eq_some_iff.mp hshown
  obtain ⟨hprincipal, hlength, hnumbers, hlookup, hrevision, hopen, hidle, hok⟩ :=
    of_decide_eq_true hshown
  obtain ⟨principal, hprincipal, hold⟩ := (Option.any_eq_true _ _).mp hprincipal
  obtain ⟨reply, hreply, hissue⟩ := Option.bind_eq_some_iff.mp hprincipal
  obtain ⟨commit, hcommit, huser⟩ := (Option.any_eq_true _ _).mp hlookup
  cases answer with
  | error error => cases hreply
  | ok answer =>
    cases hreply
    obtain ⟨value, rfl⟩ := exists_of_toOption hok
    obtain ⟨opened, hopened, hperform⟩ := Option.bind_eq_some_iff.mp hissued
    have hcatalog := (Staffed.reachable plain).wellFormed
    have hwhole : run (step plain proven) (create staff record)
        ([.openStore 0 none, .openStore 1 none] ++ .call 0 none (.beginScram admin) :: rotations) =
          some system :=
      run_append_eq_some.mpr ⟨opened, hopened, run_cons_eq_some.mpr ⟨issued,
        Option.map_eq_some_iff.mpr ⟨_, hperform, rfl⟩, hrun⟩⟩
    obtain ⟨hrefresh, hgranted, -, hdemanded, -⟩ :=
      decisions_follow_history plain proven hcatalog hrecord hwhole
    obtain ⟨husername, hgeneration⟩ := of_decide_eq_true hold
    have huser := of_decide_eq_true huser
    have hlost : ¬ Current commit.catalog principal := by
      rintro ⟨found, hfound, -, hsame⟩
      rw [husername, huser] at hfound
      cases hfound
      rw [hgeneration] at hsame
      cases hsame
    have hrefused := (decisions_follow_history plain proven hcatalog hrecord hopened).2.2.1 _ _ _ _
      hperform hissue rotations system hrun ⟨2, commit, hlength.le.trans (by decide), hcommit, hlost⟩
    obtain ⟨last, hlast, found, hfound, -, hgrants⟩ :=
      hgranted 1 none _ next value _ _ hcalled rfl
    have hlength : system.history.length = 3 := by simpa using congrArg length hnumbers
    rw [hlength, hcommit] at hlast
    cases hlast
    cases huser.symm.trans hfound
    exact ⟨record, issued, reply, principal, system, authority, hrecord, hissued, hissue, hrun,
      hnumbers, hdemanded, hauthority, hrevision,
      hrefresh 1 authority hauthority hopen (Option.isNone_iff_eq_none.mp hidle),
      ⟨next, value, hcalled, commit, _, hcommit, huser, rfl, hgrants.2 _ mem_cons_self⟩,
      fun after result hresult => hrefused _ after result hresult rfl⟩

end BriskDB.Security
