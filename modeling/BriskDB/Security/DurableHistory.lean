import BriskDB.Security.Durable

/-! # Decisions follow the committed history

The committed catalogs form a lineage, and every authority holds one of them under its own
incarnation. So a refresh always succeeds when the store can be read, whatever it skipped; what is
decided is decided by the catalog committed last; and credentials that some commit took away are
never accepted again.
-/

namespace BriskDB.Security

open SecurityCatalog Result DurableSecurityCatalog SecurityCatalogStore SecuritySystem List

variable {blake3 : List UInt8 → Blake3.Digest}
  {verifyClientProof : ScramSha256Verifier → List UInt8 → List UInt8 → EngineResult (List UInt8)}
  {row : SecurityRow} {history : List Commit} {authority : DurableSecurityCatalog}

/-- Every commit whose update demanded rights of a principal follows a catalog that gave them. -/
def Demanded (history : List Commit) : Prop :=
  ∀ index commit, history[index + 1]? = some commit →
    ∀ principal requirements, commit.update.bind Update.demand = some (principal, requirements) →
      ∃ previous, history[index]? = some previous ∧
        authorizeAll { previous.catalog with identity := principal.catalog } principal
          requirements = .ok ()

/-- The row holds the last commit of a lineage. -/
structure Recorded (blake3 : List UInt8 → Blake3.Digest) (row : SecurityRow)
    (history : List Commit) : Prop where
  revision_eq : row.revision = history.length
  numbers : history.map Commit.number = List.range' 1 history.length
  last : ∃ commit, history[history.length - 1]? = some commit ∧
    commit.catalog.toRecord blake3 = .ok row.record
  wellFormed : ∀ commit ∈ history, commit.catalog.WellFormed
  lineage : history.Pairwise fun earlier later => earlier.catalog.Precedes later.catalog
  demanded : Demanded history

namespace Recorded

theorem pos (h : Recorded blake3 row history) : 0 < row.revision := by
  obtain ⟨commit, hcommit, -⟩ := h.last
  rw [h.revision_eq]
  grind

theorem precedes (h : Recorded blake3 row history) {i j : Nat} {earlier later : Commit}
    (hij : i ≤ j) (hearlier : history[i]? = some earlier) (hlater : history[j]? = some later) :
    earlier.catalog.Precedes later.catalog := by
  rcases hij.eq_or_lt with rfl | hlt
  · cases hearlier.symm.trans hlater
    exact .refl earlier.catalog
  · obtain ⟨hi, rfl⟩ := List.getElem?_eq_some_iff.mp hearlier
    obtain ⟨hj, rfl⟩ := List.getElem?_eq_some_iff.mp hlater
    exact pairwise_iff_getElem.mp h.lineage i j hi hj hlt

theorem readSnapshot (h : Recorded blake3 row history) {commit : Commit}
    (hcommit : history[history.length - 1]? = some commit) {observed : Nat}
    (hobserved : observed ≤ row.revision) (identity : Nat) :
    readSnapshot blake3 identity row observed =
      .ok { commit.catalog with identity := identity } := by
  obtain ⟨last, hlast, hrecord⟩ := h.last
  cases hcommit.symm.trans hlast
  have hpos := h.pos
  unfold SecurityCatalogStore.readSnapshot
  rw [if_neg (by omega), fromRecord_toRecord (h.wellFormed commit (mem_of_getElem? hcommit))
    identity hrecord]
  rfl

end Recorded

/-- An authority holds a committed catalog under its own incarnation. -/
structure AuthorityOk (blake3 : List UInt8 → Blake3.Digest) (row : SecurityRow)
    (history : List Commit) (authority : DurableSecurityCatalog) : Prop where
  revision_pos : 0 < authority.revision
  held : ∃ commit, history[authority.revision - 1]? = some commit ∧
    authority.catalog = { commit.catalog with identity := authority.catalog.identity }
  fingerprint : fingerprintOf blake3 authority.catalog =
    .ok authority.fingerprint
  observed_le : authority.store.observedRevision ≤ row.revision
  fenced : authority.store.fenced = true → authority.fenced = true
  candidate : ∀ candidate, authority.candidate = some candidate →
    candidate.catalog.WellFormed ∧ authority.catalog.Precedes candidate.catalog ∧
      fingerprintOf blake3 candidate.catalog = .ok candidate.fingerprint ∧
      ∀ principal requirements, candidate.update.demand = some (principal, requirements) →
        authority.catalog.authorizeAll principal requirements = .ok ()

namespace AuthorityOk

section

variable (h : AuthorityOk blake3 row history authority)
include h

theorem mono {row' : SecurityRow} (hrow : row.revision ≤ row'.revision) (commits : List Commit) :
    AuthorityOk blake3 row' (history ++ commits) authority where
  revision_pos := h.revision_pos
  held := by
    obtain ⟨commit, hcommit, hcatalog⟩ := h.held
    grind
  fingerprint := h.fingerprint
  observed_le := h.observed_le.trans hrow
  fenced := h.fenced
  candidate := h.candidate

theorem revision_le
    (hrecorded : Recorded blake3 row history) : authority.revision ≤ row.revision := by
  obtain ⟨commit, hcommit, -⟩ := h.held
  obtain ⟨hlt, -⟩ := List.getElem?_eq_some_iff.mp hcommit
  have hpos := h.revision_pos
  rw [hrecorded.revision_eq]
  omega

theorem fence : AuthorityOk blake3 row history { authority with fenced := true } :=
  ⟨h.revision_pos, h.held, h.fingerprint, h.observed_le, fun _ => rfl, h.candidate⟩

theorem observe :
    AuthorityOk blake3 row history
      { authority with store := { authority.store with observedRevision := row.revision } } :=
  ⟨h.revision_pos, h.held, h.fingerprint, le_rfl, h.fenced, h.candidate⟩

end

end AuthorityOk

def UpToDate (row : SecurityRow) (history : List Commit) (authority : DurableSecurityCatalog) :
    Prop :=
  authority.revision = row.revision ∧ ∃ commit, history[history.length - 1]? = some commit ∧
    authority.catalog = { commit.catalog with identity := authority.catalog.identity }

theorem fingerprintOf_identity (catalog : SecurityCatalog) (identity : Nat) :
    fingerprintOf blake3 { catalog with identity := identity } =
      fingerprintOf blake3 catalog := rfl

theorem Recorded.fingerprint (h : Recorded blake3 row history) {commit : Commit}
    (hcommit : history[history.length - 1]? = some commit) :
    fingerprintOf blake3 commit.catalog = .ok (blake3 row.record).val := by
  obtain ⟨last, hlast, hrecord⟩ := h.last
  cases hcommit.symm.trans hlast
  exact bind_eq_ok.mpr ⟨row.record, hrecord, rfl⟩

theorem accept_last (hrecorded : Recorded blake3 row history)
    (h : AuthorityOk blake3 row history authority) (hidle : authority.candidate = none)
    {commit : Commit} (hcommit : history[history.length - 1]? = some commit) (identity : Nat) :
    ∃ refreshed, accept blake3 authority row.revision
        { commit.catalog with identity := identity } = .ok refreshed ∧
      AuthorityOk blake3 row history refreshed ∧ UpToDate row history refreshed ∧
      refreshed.candidate = none ∧ refreshed.fenced = authority.fenced := by
  have hle := h.revision_le hrecorded
  have hpos := h.revision_pos
  obtain ⟨held, hheld, hcatalog⟩ := h.held
  unfold accept
  rw [fingerprintOf_identity, hrecorded.fingerprint hcommit, ok_bind]
  by_cases hsame : row.revision = authority.revision
  · rw [← hsame, hrecorded.revision_eq] at hheld
    cases hcommit.symm.trans hheld
    have hfingerprint := h.fingerprint
    rw [hcatalog, fingerprintOf_identity, hrecorded.fingerprint hcommit] at hfingerprint
    rw [if_pos hsame, if_neg (not_not.mpr (Except.ok.inj hfingerprint).symm)]
    exact ⟨authority, rfl, h, ⟨hsame.symm, commit, hcommit, hcatalog⟩, hidle, rfl⟩
  · rw [if_neg hsame, if_neg (by omega)]
    have hprecedes : held.catalog.Precedes commit.catalog :=
      hrecorded.precedes (by grind) hheld hcommit
    have hvalid : authority.catalog.validateSuccessor
        { commit.catalog with identity := identity } = .ok () := by
      rw [hcatalog]
      exact validateSuccessor_eq_ok.mpr ⟨hprecedes.next_le, hprecedes.user⟩
    rw [hvalid]
    refine ⟨_, rfl, ?_, ⟨rfl, commit, hcommit, rfl⟩, hidle, rfl⟩
    refine ⟨hrecorded.pos, ⟨commit, ?_, rfl⟩, ?_, h.observed_le, h.fenced, ?_⟩
    · simp only [publish, hrecorded.revision_eq]
      exact hcommit
    · exact hrecorded.fingerprint hcommit
    · intro candidate hcandidate
      exact absurd (hidle.symm.trans hcandidate) (by simp)

theorem refresh_cases (hrecorded : Recorded blake3 row history)
    (h : AuthorityOk blake3 row history authority) (hidle : authority.candidate = none)
    (failure : Option EngineError) (identity : Nat) :
    (authority.fenced = true ∧ authority.refresh blake3 failure identity row =
      (authority, .error DurableSecurityCatalog.reopenRequired)) ∨
    (authority.fenced = false ∧ ∃ error, failure = some error ∧
      authority.refresh blake3 failure identity row =
        ({ authority with fenced := true }, .error error)) ∨
    (authority.fenced = false ∧ failure = none ∧ ∃ refreshed,
      authority.refresh blake3 failure identity row = (refreshed, .ok ()) ∧
      AuthorityOk blake3 row history refreshed ∧ UpToDate row history refreshed ∧
      refreshed.candidate = none ∧ refreshed.fenced = false) := by
  unfold refresh
  by_cases hfenced : authority.fenced = true
  · exact .inl ⟨hfenced, if_pos hfenced⟩
  · have hstore : authority.store.fenced = false := by
      by_contra hstore
      exact hfenced (h.fenced (by simpa using hstore))
    have hopen : authority.fenced = false := by simpa using hfenced
    rw [if_neg hfenced]
    refine .inr ?_
    cases failure with
    | some error =>
      have hload : load blake3 (some error) identity row authority.store =
          .error error := by
        simp only [load, hstore]
        rfl
      simp [*]
    | none =>
      obtain ⟨commit, hcommit, -⟩ := hrecorded.last
      have hload : load blake3 none identity row authority.store =
          .ok { commit.catalog with identity := identity } := by
        simp only [load, hstore]
        exact hrecorded.readSnapshot hcommit h.observed_le identity
      obtain ⟨refreshed, haccept, hok, hdate, hnone, hsame⟩ :=
        accept_last hrecorded h.observe hidle hcommit identity
      rw [hload]
      grind

variable {outcome : SecurityCatalogStore.WriteOutcome}

/-- A replacement does nothing that shows, or writes a successor of the expected row. -/
theorem replace_cases {identity : Nat}
    {store : SecurityCatalogStore} {expected : Nat} {candidate : SecurityCatalog}
    {replaced : SecurityCatalogStore.Replaced}
    (hreplaced : replace blake3 outcome identity row store expected candidate = replaced) :
    (replaced.row = row ∧ (∃ error, replaced.result = .error error) ∧
      (replaced.store.observedRevision = store.observedRevision ∨
        replaced.store.observedRevision = row.revision)) ∨
    (row.revision = expected ∧ ∃ record current, candidate.toRecord blake3 = .ok record ∧
      readSnapshot blake3 identity row store.observedRevision = .ok current ∧
      current.validateSuccessor candidate = .ok () ∧ replaced.row = ⟨expected + 1, record⟩ ∧
      (replaced.store = ⟨expected + 1, false⟩ ∧ replaced.result = .ok (expected + 1) ∨
        replaced.store = ⟨row.revision, true⟩ ∧ ∃ error, replaced.result = .error error)) := by
  unfold SecurityCatalogStore.replace at hreplaced
  split at hreplaced
  · grind
  split at hreplaced
  · grind
  split at hreplaced
  next =>
    grind
  next =>
    grind
  next record hrecord _ =>
    split at hreplaced
    next =>
      grind
    next current hcurrent =>
      split at hreplaced
      next =>
        grind
      next hexpected =>
        split at hreplaced
        next =>
          grind
        next tookEffect hvalid _ =>
          subst hreplaced
          cases tookEffect with
          | false => exact .inl ⟨rfl, ⟨_, rfl⟩, .inr rfl⟩
          | true =>
            exact .inr ⟨not_not.mp hexpected, record, current, hrecord, hcurrent, hvalid, rfl,
              .inr ⟨rfl, _, rfl⟩⟩
        next hvalid _ _ =>
          grind

variable {update : Update} {detached identity : Nat} {candidate : Candidate}

theorem Recorded.commit (h : Recorded blake3 row history) {last : Commit}
    (hlast : history[history.length - 1]? = some last) {candidate : SecurityCatalog}
    {record : List UInt8} (hrecord : candidate.toRecord blake3 = .ok record)
    (hwellFormed : candidate.WellFormed) (hprecedes : last.catalog.Precedes candidate)
    (hdemand : ∀ principal requirements, update.demand = some (principal, requirements) →
      authorizeAll { last.catalog with identity := principal.catalog } principal requirements =
        .ok ()) :
    Recorded blake3 ⟨row.revision + 1, record⟩
      (history ++ [⟨row.revision + 1, candidate, some update⟩]) where
  revision_eq := by
    rw [length_append, h.revision_eq]
    rfl
  numbers := by
    rw [map_append, h.numbers, length_append, length_singleton, range'_concat,
      h.revision_eq]
    simp [Nat.add_comm]
  last := by
    simp [*]
  wellFormed := by
    intro commit hcommit
    rcases mem_append.mp hcommit with hcommit | hcommit
    · exact h.wellFormed commit hcommit
    · grind
  lineage := by
    refine pairwise_append.mpr ⟨h.lineage, pairwise_singleton _ _, ?_⟩
    intro earlier hearlier later hlater
    cases mem_singleton.mp hlater
    obtain ⟨index, hindex⟩ := mem_iff_getElem?.mp hearlier
    obtain ⟨hlt, -⟩ := List.getElem?_eq_some_iff.mp hindex
    have hearlierLast : earlier.catalog.Precedes last.catalog :=
      h.precedes (by omega) hindex hlast
    exact hearlierLast.trans (h.wellFormed earlier hearlier) hprecedes
  demanded := by
    intro index commit hcommit principal requirements hupdate
    rcases Nat.lt_or_ge (index + 1) history.length with hlt | hge
    · rw [getElem?_append_left hlt] at hcommit
      obtain ⟨previous, hprevious, hauthorized⟩ :=
        h.demanded index commit hcommit principal requirements hupdate
      exact ⟨previous, (getElem?_append_left (by omega)).trans hprevious, hauthorized⟩
    · rw [getElem?_append_right hge] at hcommit
      obtain ⟨hzero, hcommit⟩ : index + 1 - history.length = 0 ∧
          commit = ⟨row.revision + 1, candidate, some update⟩ := by
        rcases hposition : index + 1 - history.length with _ | more
        · grind
        · rw [hposition] at hcommit
          simp at hcommit
      subst hcommit
      have hposition : index = history.length - 1 := by omega
      obtain ⟨hlt, -⟩ := List.getElem?_eq_some_iff.mp hlast
      refine ⟨last, ?_, hdemand principal requirements hupdate⟩
      grind

/-- The row records the history, and every authority holds a part of it. -/
structure Consistent (blake3 : List UInt8 → Blake3.Digest) (system : SecuritySystem) : Prop where
  recorded : Recorded blake3 system.row system.history
  authority : ∀ index authority, system.authorities index = some authority →
    AuthorityOk blake3 system.row system.history authority

namespace Consistent

variable {system next : SecuritySystem}

theorem setAuthority (h : Consistent blake3 system) {index : Nat}
    {authority : Option DurableSecurityCatalog} (hok : ∀ found, authority = some found →
      AuthorityOk blake3 system.row system.history found) (nextIdentity : Nat) :
    Consistent blake3 { system.setAuthority index authority with nextIdentity :=
      nextIdentity } where
  recorded := h.recorded
  authority := by
    intro other found hfound
    simp only [SecuritySystem.setAuthority, Function.update_apply] at hfound
    split at hfound
    next => exact hok found hfound
    next => exact h.authority other found hfound

theorem create {catalog : SecurityCatalog} {record : List UInt8} (hcatalog : catalog.WellFormed)
    (hrecord : catalog.toRecord blake3 = .ok record) :
    Consistent blake3 (create catalog record) where
  recorded := {
    revision_eq := rfl
    numbers := rfl
    last := ⟨_, rfl, hrecord⟩
    wellFormed := by
      intro commit hcommit
      cases mem_singleton.mp hcommit
      exact hcatalog
    lineage := pairwise_singleton _ _
    demanded := by
      intro index commit hcommit
      simp [SecuritySystem.create] at hcommit }
  authority := by
    intro index authority hauthority
    cases hauthority

end Consistent

/-- A principal is authorized by its own incarnation only. -/
theorem identity_of_authorizeAll {catalog : SecurityCatalog} {principal : Principal}
    {requirements : List (Action × Resource)}
    (h : catalog.authorizeAll principal requirements = .ok ()) :
    catalog.identity = principal.catalog := by
  obtain ⟨policy, hpolicy, -⟩ := bind_eq_ok.mp h
  obtain ⟨user, huser, -⟩ := bind_eq_ok.mp hpolicy
  unfold currentUser at huser
  grind

theorem prepare_spec
    (h : authority.prepare blake3 detached update = .ok candidate) :
    candidate.update = update ∧ update.authorize authority.catalog = .ok () ∧
      candidate.catalog.WellFormed ∧ authority.catalog.Precedes candidate.catalog ∧
      fingerprintOf blake3 candidate.catalog =
        .ok candidate.fingerprint := by
  obtain ⟨⟨⟩, hauthorized, h⟩ := bind_eq_ok.mp h
  obtain ⟨record, hrecord, h⟩ := bind_eq_ok.mp h
  obtain ⟨copy, hcopy, h⟩ := bind_eq_ok.mp h
  obtain ⟨edited, hedit, h⟩ := bind_eq_ok.mp h
  obtain ⟨⟨⟩, hvalid, h⟩ := bind_eq_ok.mp h
  obtain ⟨fingerprint, hfingerprint, h⟩ := bind_eq_ok.mp h
  cases h
  refine ⟨rfl, hauthorized, ?_, validateSuccessor_eq_ok.mp hvalid, hfingerprint⟩
  have hcopied : copy.WellFormed := wellFormed_of_fromRecord hcopy
  cases update with
  | trusted edit | authorized _ _ edit => exact edit.wellFormed hcopied hedit
  | documentRole principal name replacement =>
    have happly : (Edit.updateDocumentRole name replacement).apply copy = .ok edited := hedit
    exact hcopied.edit happly

theorem finishUpdate_cases (hrecorded : Recorded blake3 row history)
    (h : AuthorityOk blake3 row history authority)
    (hcandidate : authority.candidate = some candidate)
    {finished : SecurityRow × DurableSecurityCatalog × EngineResult Unit}
    (hfinished : authority.finishUpdate blake3 outcome identity row candidate = finished) :
    finished.2.1.candidate = none ∧
      ((finished.1 = row ∧ (∃ error, finished.2.2 = .error error) ∧
          AuthorityOk blake3 row history finished.2.1 ∧
          (authority.revision = row.revision → finished.2.1.fenced = true)) ∨
        (finished.1.revision = row.revision + 1 ∧ authority.revision = row.revision ∧
          Recorded blake3 finished.1
            (history ++ [⟨row.revision + 1, candidate.catalog, some candidate.update⟩]) ∧
          AuthorityOk blake3 finished.1
            (history ++ [⟨row.revision + 1, candidate.catalog, some candidate.update⟩])
            finished.2.1 ∧
          (finished.2.2 = .ok () ∨
            (∃ error, finished.2.2 = .error error) ∧ finished.2.1.fenced = true))) := by
  unfold finishUpdate at hfinished
  obtain ⟨hwellFormed, hprecedes, hfingerprint, hdemand⟩ := h.candidate candidate hcandidate
  generalize hreplaced : replace blake3 outcome identity row authority.store authority.revision
    candidate.catalog = replaced at hfinished
  rcases replace_cases hreplaced with ⟨hrow, ⟨error, hresult⟩, hobserved⟩ |
    ⟨hrevision, record, current, hrecord, hcurrent, -, hrow, hwritten⟩
  · simp only [hresult, hrow] at hfinished
    subst hfinished
    refine ⟨rfl, .inl ⟨rfl, ⟨error, rfl⟩, ?_, ?_⟩⟩
    · refine ⟨h.revision_pos, h.held, h.fingerprint, ?_, ?_, ?_⟩
      · rcases hobserved with hobserved | hobserved
        · exact hobserved.trans_le h.observed_le
        · exact hobserved.le
      · grind
      · simp
    · intro hcurrent
      have hle : replaced.store.observedRevision ≤ authority.revision := by
        have := h.observed_le
        omega
      grind
  · obtain ⟨last, hlast, -⟩ := hrecorded.last
    obtain ⟨held, hheld, hcatalog⟩ := h.held
    -- The authority is up to date, so the candidate follows the last commit.
    have hsame : held = last := by
      rw [← hrevision, hrecorded.revision_eq] at hheld
      exact Option.some.inj (hheld.symm.trans hlast)
    subst hsame
    have hfollows : held.catalog.Precedes candidate.catalog := by
      rw [hcatalog] at hprecedes
      exact ⟨hprecedes.next_le, hprecedes.user⟩
    have hdemanded : ∀ principal requirements,
        candidate.update.demand = some (principal, requirements) →
          authorizeAll { held.catalog with identity := principal.catalog } principal
            requirements = .ok () := by
      intro principal requirements hdemanded
      have hauthorized := hdemand principal requirements hdemanded
      rw [hcatalog, identity_of_authorizeAll hauthorized] at hauthorized
      exact hauthorized
    have hnext := hrecorded.commit hlast hrecord hwellFormed hfollows hdemanded
    rw [hrevision] at hnext
    have hgrown : row.revision ≤ (⟨authority.revision + 1, record⟩ : SecurityRow).revision := by
      rw [hrevision]
      exact Nat.le_succ _
    have hkept := h.mono hgrown
      [⟨authority.revision + 1, candidate.catalog, some candidate.update⟩]
    rw [hrevision]
    rcases hwritten with ⟨hstore, hresult⟩ | ⟨hstore, error, hresult⟩
    · simp only [hresult, hrow] at hfinished
      subst hfinished
      refine ⟨rfl, .inr ⟨rfl, rfl, hnext, ?_, .inl rfl⟩⟩
      · refine ⟨Nat.succ_pos _, ⟨⟨authority.revision + 1, candidate.catalog,
          some candidate.update⟩, ?_, rfl⟩, hfingerprint, ?_, ?_, ?_⟩
        · have hlength : authority.revision = history.length :=
            hrevision.symm.trans hrecorded.revision_eq
          simp [publish, hlength]
        · simp [publish, hstore]
        · grind [publish]
        · intro other hother
          cases hother
    · simp only [hresult, hrow] at hfinished
      subst hfinished
      refine ⟨rfl, .inr ⟨rfl, rfl, hnext, ?_, .inr ⟨⟨error, rfl⟩, ?_⟩⟩⟩
      · refine ⟨hkept.revision_pos, hkept.held, hkept.fingerprint, ?_, ?_, ?_⟩
        · simp [hstore, hrevision]
        · grind
        · simp
      · simp [hstore]

theorem fromStore_last (hrecorded : Recorded blake3 row history) {commit : Commit}
    (hcommit : history[history.length - 1]? = some commit) (identity : Nat) :
    fromStore blake3 none identity row =
      .ok ⟨⟨row.revision, false⟩, { commit.catalog with identity := identity }, row.revision,
        (blake3 row.record).val, false, none⟩ := by
  have hload : load blake3 none identity row ⟨0, false⟩ =
      .ok { commit.catalog with identity := identity } :=
    hrecorded.readSnapshot hcommit (Nat.zero_le _) identity
  unfold fromStore
  rw [hload, ok_bind, fingerprintOf_identity, hrecorded.fingerprint hcommit, ok_bind]
  rfl

variable {failure : Option EngineError}

theorem fromStore_spec (hrecorded : Recorded blake3 row history)
    (h : fromStore blake3 failure identity row =
      .ok authority) : AuthorityOk blake3 row history authority := by
  obtain ⟨commit, hcommit, -⟩ := hrecorded.last
  cases failure with
  | some error => cases h
  | none =>
    cases h.symm.trans (fromStore_last hrecorded hcommit identity)
    refine ⟨hrecorded.pos, ⟨commit, ?_, rfl⟩, hrecorded.fingerprint hcommit, le_rfl, ?_, ?_⟩
    · rw [hrecorded.revision_eq]
      exact hcommit
    · simp
    · simp

/-- What an authority does with a request: it refuses, or accepts it on the last commit. -/
structure Asked (blake3 : List UInt8 → Blake3.Digest) (row : SecurityRow) (history : List Commit)
    (authority acted : DurableSecurityCatalog) {α : Type} (reply : EngineResult α)
    (accepts : SecurityCatalog → α → Prop) : Prop where
  ok : AuthorityOk blake3 row history acted
  fenced : authority.fenced = true → acted = authority ∧
    reply = .error DurableSecurityCatalog.reopenRequired
  accepted : ∀ value, reply = .ok value → UpToDate row history acted ∧ accepts acted.catalog value

section

variable (hrecorded : Recorded blake3 row history)
include hrecorded

section

variable (h : AuthorityOk blake3 row history authority)
include h

section

variable (hidle : authority.candidate = none)
include hidle

theorem asked_of_refresh
    {α : Type} (finish : DurableSecurityCatalog → DurableSecurityCatalog × EngineResult α)
    {accepts : SecurityCatalog → α → Prop}
    (hfinish : ∀ refreshed, AuthorityOk blake3 row history refreshed →
      UpToDate row history refreshed → AuthorityOk blake3 row history (finish refreshed).1 ∧
        ∀ value, (finish refreshed).2 = .ok value →
          UpToDate row history (finish refreshed).1 ∧ accepts (finish refreshed).1.catalog value)
    {asked : DurableSecurityCatalog × EngineResult α}
    (hasked : asked = match authority.refresh blake3 failure identity row with
      | (refreshed, .error error) => (refreshed, .error error)
      | (refreshed, .ok ()) => finish refreshed) :
    Asked blake3 row history authority asked.1 asked.2 accepts := by
  rcases refresh_cases hrecorded h hidle failure identity with ⟨hfenced, hrefresh⟩ |
    ⟨hopen, error, -, hrefresh⟩ | ⟨hopen, -, refreshed, hrefresh, hok, hdate, -, -⟩
  · rw [hrefresh] at hasked
    subst hasked
    exact ⟨h, fun _ => ⟨rfl, rfl⟩, nofun⟩
  · rw [hrefresh] at hasked
    subst hasked
    refine ⟨h.fence, fun hfenced => ?_, nofun⟩
    exact absurd (hopen.symm.trans hfenced) (by simp)
  · rw [hrefresh] at hasked
    subst hasked
    obtain ⟨hacted, haccepted⟩ := hfinish refreshed hok hdate
    refine ⟨hacted, fun hfenced => ?_, haccepted⟩
    exact absurd (hopen.symm.trans hfenced) (by simp)

theorem call_asked (call : Call) :
    Asked blake3 row history authority
      (authority.call blake3 verifyClientProof failure identity row call).1
      (authority.call blake3 verifyClientProof failure identity row call).2
      fun catalog reply => decide verifyClientProof catalog call = .ok reply := by
  refine asked_of_refresh hrecorded h hidle
    (fun refreshed => (refreshed, decide verifyClientProof refreshed.catalog call)) ?_ rfl
  exact fun refreshed hok hdate => ⟨hok, fun _ hreply => ⟨hdate, hreply⟩⟩

theorem beginUpdate_asked :
    Asked blake3 row history authority
      (authority.beginUpdate blake3 failure identity detached row update).1
      (authority.beginUpdate blake3 failure identity detached row update).2
      fun catalog _ => update.authorize catalog = .ok () := by
  refine asked_of_refresh hrecorded h hidle _ (fun refreshed hok hdate => ?_) rfl
  cases hprepare : refreshed.prepare blake3 detached update with
  | error error => exact ⟨hok, nofun⟩
  | ok candidate =>
    obtain ⟨hupdate, hauthorized, hcandidate, hprecedes, hfingerprint⟩ := prepare_spec hprepare
    refine ⟨⟨hok.revision_pos, hok.held, hok.fingerprint, hok.observed_le, hok.fenced, ?_⟩,
      fun _ _ => ⟨hdate, hauthorized⟩⟩
    intro other hother
    cases hother
    refine ⟨hcandidate, hprecedes, hfingerprint, fun principal requirements hdemand => ?_⟩
    -- Only an update for a principal demands anything, and it was authorized for it.
    rw [hupdate] at hdemand
    cases update with
    | trusted | documentRole => cases hdemand
    | authorized principal requirements edit =>
      cases hdemand
      exact hauthorized

end

end

end

def SecurityAction.asks : SecurityAction → Option Nat
  | .call index _ _ | .beginUpdate index _ _ => some index
  | _ => none

/-- What a reply to an action shows of the catalog that decided. -/
def SecurityAction.Accepts
    (verifyClientProof : ScramSha256Verifier → List UInt8 → List UInt8 → EngineResult (List UInt8))
    (catalog : SecurityCatalog) (reply : Reply) : SecurityAction → Prop
  | .call _ _ request => decide verifyClientProof catalog request = .ok reply
  | .beginUpdate _ _ update => reply = .done ∧ update.authorize catalog = .ok ()
  | _ => True

section

variable {system next : SecuritySystem} {reply : EngineResult Reply} {index : Nat}

theorem perform_ask {action : SecurityAction} (hasks : action.asks = some index)
    (h : system.perform blake3 verifyClientProof action = some (next, reply)) :
    ∃ authority acted nextIdentity, system.authorities index = some authority ∧
      next = { system.setAuthority index (some acted) with nextIdentity := nextIdentity } ∧
      (Consistent blake3 system → Asked blake3 system.row system.history authority acted reply
        (action.Accepts verifyClientProof)) := by
  cases action with
  | openStore | finishUpdate => cases hasks
  | call _ failure call =>
    cases hasks
    simp only [perform] at h
    split at h
    next => cases h
    next authority hauthority =>
      split at h
      next => cases h
      next hidle =>
        cases h
        refine ⟨authority, _, _, hauthority, rfl, fun hsystem => ?_⟩
        exact call_asked hsystem.recorded (hsystem.authority _ authority hauthority) hidle call
  | beginUpdate _ failure update =>
    cases hasks
    simp only [perform] at h
    split at h
    next => cases h
    next authority hauthority =>
      split at h
      next => cases h
      next hidle =>
        cases h
        refine ⟨authority, _, _, hauthority, rfl, fun hsystem => ?_⟩
        obtain ⟨hok, hfenced, haccepted⟩ := beginUpdate_asked hsystem.recorded
          (hsystem.authority _ authority hauthority) hidle
        refine ⟨hok, fun h => ⟨(hfenced h).1, by rw [(hfenced h).2]; rfl⟩, fun value hvalue => ?_⟩
        obtain ⟨⟨⟩, hbegun, rfl⟩ := map_eq_ok.mp hvalue
        exact ⟨(haccepted () hbegun).1, rfl, (haccepted () hbegun).2⟩

theorem perform_finishUpdate
    (h : system.perform blake3 verifyClientProof (.finishUpdate index outcome) =
      some (next, reply)) :
    ∃ authority candidate finished, system.authorities index = some authority ∧
      authority.candidate = some candidate ∧
      authority.finishUpdate blake3 outcome system.nextIdentity system.row candidate = finished ∧
      next = ⟨finished.1, Function.update system.authorities index (some finished.2.1),
        system.nextIdentity + 1, system.history ++
          if finished.1.revision = system.row.revision then []
          else [⟨finished.1.revision, candidate.catalog, some candidate.update⟩]⟩ ∧
      reply = finished.2.2.map fun _ => .done := by
  simp only [perform] at h
  split at h
  next => cases h
  next authority hauthority =>
    split at h
    next => cases h
    next candidate hcandidate =>
      cases h
      exact ⟨authority, candidate, _, hauthority, hcandidate, rfl, rfl, rfl⟩

end

namespace Consistent

variable {system next : SecuritySystem} {reply : EngineResult Reply}

section

variable (h : Consistent blake3 system)
include h

theorem write {index nextIdentity : Nat} {commits : List Commit}
    (hrow : system.row.revision ≤ row.revision)
    (hrecorded : Recorded blake3 row (system.history ++ commits))
    (hok : AuthorityOk blake3 row (system.history ++ commits) authority) :
    Consistent blake3 ⟨row, Function.update system.authorities index (some authority),
      nextIdentity, system.history ++ commits⟩ where
  recorded := hrecorded
  authority := by
    intro other found hfound
    simp only [Function.update_apply] at hfound
    split at hfound
    next =>
      cases hfound
      exact hok
    next => exact (h.authority other found hfound).mono hrow commits

theorem perform {action : SecurityAction}
    (hperform : system.perform blake3 verifyClientProof action = some (next, reply)) :
    Consistent blake3 next := by
  cases action with
  | openStore index failure =>
    simp only [SecuritySystem.perform] at hperform
    split at hperform
    next =>
      cases hperform
      exact h.setAuthority (fun _ hnone => (by cases hnone)) _
    next authority hopened =>
      cases hperform
      refine h.setAuthority (fun found hfound => ?_) _
      cases hfound
      exact fromStore_spec h.recorded hopened
  | call | beginUpdate =>
    obtain ⟨_, acted, _, -, rfl, hasked⟩ := perform_ask rfl hperform
    refine h.setAuthority (fun found hfound => ?_) _
    cases hfound
    exact (hasked h).ok
  | finishUpdate index outcome =>
    obtain ⟨authority, candidate, finished, hauthority, hcandidate, hfinished, rfl, -⟩ :=
      perform_finishUpdate hperform
    rcases (finishUpdate_cases h.recorded (h.authority index authority hauthority) hcandidate
      hfinished).2 with ⟨hrow, -, hok, -⟩ | ⟨hrevision, -, hrecorded, hok, -⟩
    · have hunchanged : finished.1.revision = system.row.revision := by rw [hrow]
      rw [if_pos hunchanged, hrow]
      apply h.write le_rfl
      · rw [append_nil]
        exact h.recorded
      · simp [*]
    · rw [if_neg (by omega), hrevision]
      exact h.write (by omega) hrecorded hok

theorem run {actions : List SecurityAction}
    (hrun : Transition.run (step blake3 verifyClientProof) system actions =
      some next) : Consistent blake3 next := by
  refine Transition.run_preserves (fun system action next h hstep => ?_) h hrun
  obtain ⟨⟨performed, reply⟩, hperform, rfl⟩ := Option.map_eq_some_iff.mp hstep
  exact h.perform hperform

end

end Consistent

end BriskDB.Security
