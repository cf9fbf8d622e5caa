import BriskDB.Security.Record

/-! # Records are read back

Each part of a record is read as what was written, whatever follows it; the loops over
privileges, roles and users are read item by item. Conversely, the checks of the reader are those
of a well-formed catalog.
-/

namespace BriskDB.Security

open Dictionary List

namespace SecurityCatalog

open ByteReader

namespace RecordReader

theorem length_bytes (text : String) : (Utf8.bytes text).length = text.utf8ByteSize := by
  simp [Utf8.bytes]

theorem reads_byte (value : UInt8) : Reads byte [value] value := by
  have htake : Reads (take 1) [value] [value] := .take rfl
  exact htake.bind_nil (.pure value)

variable {value maximum : Nat} {data : DataDomain} {object : String} {roleNames : List SecurityName}
    {catalog : SecurityCatalog} {payload : List UInt8}

theorem reads_short (h : value < 65536) : Reads short (encodeShort value) value := by
  refine (Reads.take (by simp [encodeShort])).bind_nil ?_
  rw [encodeShort, Bytes.toBe_ofBe_of_lt h]
  exact .pure value

theorem reads_long (h : value < 2 ^ 64) : Reads long (encodeLong value) value := by
  refine (Reads.take (by simp [encodeLong])).bind_nil ?_
  rw [encodeLong, Bytes.toBe_ofBe_of_lt (by omega)]
  exact .pure value

theorem reads_count (h : value ≤ maximum) (hmaximum : maximum < 65536) :
    Reads (count maximum) (encodeShort value) value :=
  (reads_short (by omega)).bind_nil (.guard (by omega) (.pure value))

theorem reads_text {value : String} (h : value.utf8ByteSize ≤ maximum)
    (hmaximum : maximum < 65536) : Reads (text maximum) (encodeText value) value := by
  refine (reads_count (by rwa [length_bytes]) hmaximum).bind ?_
  refine (Reads.take rfl).bind_nil (Reads.final ?_)
  rw [decodeText, Utf8.decode_bytes]

theorem reads_name (value : SecurityName) : Reads name (encodeName value) value := by
  refine (reads_text value.realm_valid.2.1 (by decide)).bind ?_
  refine (reads_text value.name_valid.2.1 (by decide)).bind_nil (.final ?_)
  rw [SecurityName.new, dif_pos value.name_valid, dif_pos value.realm_valid]

theorem reads_domain (value : DataDomain) : Reads domain (encodeDomain value) value := by
  cases value with
  | relational => exact (reads_byte 1).bind_nil (.pure _)
  | document => exact (reads_byte 2).bind_nil (.pure _)

theorem size_le_of_fault {name : String}
    (h : dataDatabaseFault data name = none) : name.utf8ByteSize ≤ 63 := by
  unfold dataDatabaseFault at h
  split at h
  next => cases h
  next hvalid => exact (not_not.mp hvalid).2.1

theorem size_le_of_objectFault {name : String}
    (hdatabase : dataDatabaseFault data name = none) (h : objectFault data name object = none) :
    object.utf8ByteSize ≤ 253 := by
  have hname : 0 < name.utf8ByteSize := by
    unfold dataDatabaseFault at hdatabase
    split at hdatabase
    next => cases hdatabase
    next hvalid =>
      apply Nat.pos_of_ne_zero
      intro hzero
      exact (not_not.mp hvalid).1 (String.utf8ByteSize_eq_zero_iff.mp hzero)
  unfold objectFault at h
  grind

theorem database_of_fault {name : String} (h : dataDatabaseFault data name = none) :
    Resource.database data name = .ok ⟨.database data name, h⟩ := by
  unfold Resource.database
  split
  next => rfl
  next hfault => exact absurd (h.symm.trans hfault) (by simp)

theorem object_of_fault {name : String}
    (hdatabase : dataDatabaseFault data name = none) (h : objectFault data name object = none) :
    Resource.object data name object = .ok ⟨.object data name object, hdatabase, h⟩ := by
  unfold Resource.object
  split
  next hfault => exact absurd (hdatabase.symm.trans hfault) (by simp)
  next =>
    split
    next => rfl
    next hfault => exact absurd (h.symm.trans hfault) (by simp)

theorem reads_resource (value : Resource) : Reads resource (encodeResource value) value := by
  obtain ⟨value, hvalid⟩ := value
  cases value with
  | server => exact (reads_byte 1).bind_nil (.pure _)
  | realm name =>
    refine (reads_byte 2).bind ?_
    refine (reads_text hvalid.2.1 (by decide)).bind_nil (.final ?_)
    exact dif_pos hvalid
  | domain data => exact (reads_byte 3).bind ((reads_domain data).bind_nil (.pure _))
  | database data name =>
    refine (reads_byte 4).bind ((reads_domain data).bind ?_)
    refine (reads_text (size_le_of_fault hvalid) (by decide)).bind_nil (.final ?_)
    exact database_of_fault hvalid
  | object data name collection =>
    refine (reads_byte 5).bind ((reads_domain data).bind ?_)
    refine (reads_text (size_le_of_fault hvalid.1) (by decide)).bind ?_
    refine (reads_text (size_le_of_objectFault hvalid.1 hvalid.2) (by decide)).bind_nil
      (.final ?_)
    exact object_of_fault hvalid.1 hvalid.2

theorem reads_scope {version : Nat} (value : Scope) (h : extendedScope value = true → version = 2) :
    Reads (scope version) (encodeScope value) value := by
  obtain ⟨value, hvalid⟩ := value
  cases value with
  | exact identity => exact (reads_byte 1).bind ((reads_resource identity).bind_nil (.pure _))
  | database data name =>
    refine (reads_byte 2).bind ((reads_domain data).bind ?_)
    refine (reads_text (size_le_of_fault hvalid) (by decide)).bind_nil (.final ?_)
    unfold Scope.database
    split
    next => rfl
    next hfault => exact absurd (hvalid.symm.trans hfault) (by simp)
  | allDatabases data => exact (reads_byte 3).bind ((reads_domain data).bind_nil (.pure _))
  | allSecurityRealms => exact (reads_byte 4).bind_nil (.pure _)
  | nonSystemDocumentCollections name =>
    cases h rfl
    refine (reads_byte 5).bind ?_
    refine (reads_text (size_le_of_fault hvalid) (by decide)).bind_nil (.final ?_)
    unfold Scope.nonSystemDocumentCollections
    split
    next => rfl
    next hfault => exact absurd (hvalid.symm.trans hfault) (by simp)

theorem size_code_le (action : Action) : action.code.utf8ByteSize ≤ 64 := by
  cases action <;> decide

theorem reads_privilege {version : Nat} (value : Privilege)
    (h : extendedScope value.scope = true → version = 2) :
    Reads (privilege version) (encodePrivilege value) value := by
  refine (reads_text (size_code_le value.action) (by decide)).bind ?_
  refine Reads.lift (Action.fromCode_code value.action) ?_
  refine (reads_scope value.scope h).bind_nil (.final ?_)
  exact dif_pos value.accepted

theorem foldl_insert_eq {α : Type} [DecidableEq α] (items : List α) (made : Finset α) :
    items.foldl (fun made item => insert item made) made = made ∪ items.toFinset := by
  induction items generalizing made with
  | nil => simp
  | cons item items ih =>
    simp [*]

theorem reads_policy {version : Nat} (value : Policy)
    (h : ∀ grant ∈ value.privileges, extendedScope grant.scope = true → version = 2) :
    Reads (policy version) (encodePolicy value) value := by
  refine (reads_count value.card_le (by decide)).bind ?_
  rw [← Finset.length_sort (· ≤ ·)]
  -- The privileges to come are distinct from each other and from those read before.
  have hloop := @Reads.loop EngineError Privilege (Finset Privilege) (grant version)
    encodePrivilege (fun made item => insert item made)
    (fun made items => items.Nodup ∧ ∀ item ∈ items, item ∉ made ∧
      (extendedScope item.scope = true → version = 2))
    (by
      rintro made item items ⟨hnodup, hitems⟩
      rw [nodup_cons] at hnodup
      obtain ⟨hfresh, hversion⟩ := hitems item mem_cons_self
      refine ⟨?_, hnodup.2, fun other hother => ?_⟩
      · exact (reads_privilege item hversion).bind_nil (.guard hfresh (.pure _))
      · obtain ⟨hfresh', hversion'⟩ := hitems other (mem_cons_of_mem _ hother)
        refine ⟨fun hmem => ?_, hversion'⟩
        rcases Finset.mem_insert.mp hmem with rfl | hmem
        · exact hnodup.1 hother
        · exact hfresh' hmem)
    ∅ (value.privileges.sort (· ≤ ·))
    ⟨Finset.sort_nodup _ _, fun item hitem => ⟨Finset.notMem_empty item,
      h item ((Finset.mem_sort _).mp hitem)⟩⟩
  refine hloop.bind_nil (.final ?_)
  rw [foldl_insert_eq, Finset.sort_toFinset, Finset.empty_union, Policy.new,
    dif_pos (by rw [Finset.length_sort]; exact value.card_le)]
  simp

def addRole (state : SecurityCatalog × List SecurityName) (role : SecurityName × Policy) :
    SecurityCatalog × List SecurityName :=
  ({ state.1 with roles := state.1.roles.insert role.1 role.2 }, state.2 ++ [role.1])

theorem foldl_addRole (roles : List (SecurityName × Policy))
    (state : SecurityCatalog × List SecurityName) :
    roles.foldl addRole state =
      ({ state.1 with
        roles := roles.foldl (fun made role => made.insert role.1 role.2) state.1.roles },
        state.2 ++ roles.map Prod.fst) := by
  induction roles generalizing state with
  | nil => simp
  | cons role roles ih =>
    rw [foldl_cons, ih]
    simp [addRole]

/-- The roles to come are new, and there is room for them. -/
def RolesToCome (version : Nat) (state : SecurityCatalog × List SecurityName)
    (roles : List (SecurityName × Policy)) : Prop :=
  (roles.map Prod.fst).Nodup ∧ state.1.roles.size + roles.length ≤ maxSecurityRoles ∧
    ∀ role ∈ roles, role.1 ∉ state.1.roles ∧
      ∀ grant ∈ role.2.privileges, extendedScope grant.scope = true → version = 2

theorem reads_role {version : Nat} {state : SecurityCatalog × List SecurityName}
    {item : SecurityName × Policy} {items : List (SecurityName × Policy)}
    (h : RolesToCome version state (item :: items)) :
    Reads (role version state) (encodeRole item) (addRole state item) ∧
      RolesToCome version (addRole state item) items := by
  obtain ⟨hnodup, hsize, hitems⟩ := h
  rw [map_cons, nodup_cons] at hnodup
  rw [length_cons] at hsize
  obtain ⟨hfresh, hversion⟩ := hitems item mem_cons_self
  constructor
  · refine (reads_name item.1).bind ((reads_policy item.2 hversion).bind_nil ?_)
    refine .lift ?_ (.pure _)
    have hroom : state.1.roles.size ≠ maxSecurityRoles := by omega
    simp [createRole, hfresh, hroom]
  · have hadded := size_insert_le state.1.roles item.1 item.2
    refine ⟨hnodup.2, by simp only [addRole]; omega, fun other hother => ?_⟩
    obtain ⟨hfresh', hversion'⟩ := hitems other (mem_cons_of_mem _ hother)
    refine ⟨?_, hversion'⟩
    simp only [addRole, Finmap.mem_insert, not_or]
    exact ⟨fun heq => hnodup.1 (heq ▸ mem_map_of_mem hother), hfresh'⟩

def addUser (state : SecurityCatalog × Finset Nat) (user : SecurityName × User) :
    SecurityCatalog × Finset Nat :=
  ({ state.1 with users := state.1.users.insert user.1 user.2 }, insert user.2.id state.2)

theorem foldl_addUser (users : List (SecurityName × User)) (state : SecurityCatalog × Finset Nat) :
    (users.foldl addUser state).1 =
      { state.1 with
        users := users.foldl (fun made user => made.insert user.1 user.2) state.1.users } := by
  induction users generalizing state with
  | nil => rfl
  | cons user users ih =>
    rw [foldl_cons, ih]
    rfl

theorem reads_roles (hlength : roleNames.length ≤ 65536)
    {roles : Finset SecurityName} (hroles : ∀ role ∈ roles, role ∈ roleNames) :
    Reads (loop (roleIndex roleNames) (roles.sort (· ≤ ·)).length ∅)
      ((roles.sort (· ≤ ·)).flatMap fun role => encodeShort (roleNames.idxOf role)) roles := by
  have hloop := @Reads.loop EngineError SecurityName (Finset SecurityName) (roleIndex roleNames)
    (fun role => encodeShort (roleNames.idxOf role)) (fun made role => insert role made)
    (fun made items => items.Nodup ∧ ∀ item ∈ items, item ∉ made ∧ item ∈ roleNames)
    (by
      rintro made item items ⟨hnodup, hitems⟩
      rw [nodup_cons] at hnodup
      obtain ⟨hfresh, hknown⟩ := hitems item mem_cons_self
      refine ⟨?_, hnodup.2, fun other hother => ?_⟩
      · have hindex := idxOf_lt_length_of_mem hknown
        refine (reads_short (by omega)).bind_nil ?_
        rw [getElem?_idxOf hknown]
        exact .guard hfresh (.pure _)
      · grind)
    ∅ (roles.sort (· ≤ ·))
    ⟨Finset.sort_nodup _ _, fun item hitem => ⟨Finset.notMem_empty item,
      hroles item ((Finset.mem_sort _).mp hitem)⟩⟩
  rwa [foldl_insert_eq, Finset.sort_toFinset, Finset.empty_union] at hloop

def UsersToCome (roleNames : List SecurityName) (state : SecurityCatalog × Finset Nat)
    (users : List (SecurityName × User)) : Prop :=
  (users.map Prod.fst).Nodup ∧ (users.map fun user => user.2.id).Nodup ∧
    ∀ user ∈ users, user.1 ∉ state.1.users ∧ user.2.id ∉ state.2 ∧ UserOk state.1 user.2 ∧
      ∀ role ∈ user.2.roles, role ∈ roleNames

theorem length_toRecord_verifier (verifier : ScramSha256Verifier) :
    verifier.toRecord.length = ScramSha256Verifier.recordBytes := by
  have hmagic : ScramSha256Verifier.recordMagic.length = 8 := by decide
  simp [ScramSha256Verifier.toRecord, hmagic, verifier.salt_length, verifier.storedKey_length,
    verifier.serverKey_length, ScramSha256Verifier.recordBytes]

theorem fromRecord_toRecord_verifier (verifier : ScramSha256Verifier) :
    ScramSha256Verifier.fromRecord verifier.toRecord = .ok verifier := by
  have hmagic : ScramSha256Verifier.recordMagic.length = 8 := by decide
  have hdrop : ∀ (count more : Nat) (bytes : List UInt8),
      bytes.drop (count + more) = (bytes.drop count).drop more :=
    fun count more bytes => drop_drop.symm
  have hafterMagic : verifier.toRecord.drop 8 = Bytes.ofBe 4 verifier.iterations ++
      (verifier.salt ++ (verifier.storedKey ++ verifier.serverKey)) :=
    drop_left' hmagic
  have hafterIterations : verifier.toRecord.drop 12 =
      verifier.salt ++ (verifier.storedKey ++ verifier.serverKey) := by
    rw [hdrop 8 4, hafterMagic, drop_left' (by simp)]
  have hafterSalt : verifier.toRecord.drop 28 = verifier.storedKey ++ verifier.serverKey := by
    rw [hdrop 12 16, hafterIterations, drop_left' verifier.salt_length]
  have hafterStored : verifier.toRecord.drop 60 = verifier.serverKey := by
    rw [hdrop 28 32, hafterSalt, drop_left' verifier.storedKey_length]
  have hiterations : Bytes.toBe ((verifier.toRecord.drop 8).take 4) = verifier.iterations := by
    rw [hafterMagic, take_left' (by simp)]
    exact Bytes.toBe_ofBe_of_lt (verifier.iterations_bounds.2.trans_lt (by decide))
  unfold ScramSha256Verifier.fromRecord
  rw [dif_pos ⟨length_toRecord_verifier verifier, take_left' hmagic⟩]
  dsimp only
  split
  next =>
    congr 1
    ext1
    · exact hiterations
    · simp only
      rw [hafterIterations, take_left' verifier.salt_length]
    · simp only
      rw [hafterSalt, take_left' verifier.storedKey_length]
    · exact hafterStored
  next hbounds => exact absurd (hiterations.symm ▸ verifier.iterations_bounds) hbounds

theorem reads_user (hlength : roleNames.length ≤ 65536)
    {state : SecurityCatalog × Finset Nat} (hnext : state.1.nextUserId < 2 ^ 64)
    {item : SecurityName × User} {items : List (SecurityName × User)}
    (h : UsersToCome roleNames state (item :: items)) :
    Reads (user roleNames state) (encodeUser roleNames item) (addUser state item) ∧
      UsersToCome roleNames (addUser state item) items := by
  obtain ⟨hnames, hids, hitems⟩ := h
  rw [map_cons, nodup_cons] at hnames hids
  obtain ⟨hfresh, hid, hok, hroles⟩ := hitems item mem_cons_self
  constructor
  · have hidLt := hok.id_lt
    have hidPos := hok.id_pos
    have hgenPos := hok.generation_pos
    refine (reads_name item.1).bind ((reads_long (by omega)).bind ?_)
    refine (reads_long hok.generation_lt).bind (.guard ?_ ?_)
    · simp only [not_or]
      exact ⟨by omega, by omega, by omega, hid, hfresh⟩
    refine (Reads.take (length_toRecord_verifier item.2.verifier)).bind ?_
    refine Reads.lift (fromRecord_toRecord_verifier item.2.verifier) ?_
    refine (reads_count hok.resolvable.card_le (by decide)).bind ?_
    rw [← Finset.length_sort (· ≤ ·)]
    refine (reads_roles hlength hroles).bind_nil ?_
    exact .lift (validateRoles_of_resolvable hok.resolvable) (.pure _)
  · refine ⟨hnames.2, hids.2, fun other hother => ?_⟩
    obtain ⟨hfresh', hid', hok', hroles'⟩ := hitems other (mem_cons_of_mem _ hother)
    refine ⟨?_, ?_, ⟨hok'.resolvable, hok'.id_pos, hok'.id_lt, hok'.generation_pos,
      hok'.generation_lt⟩, hroles'⟩
    · simp only [addUser, Finmap.mem_insert, not_or]
      exact ⟨fun heq => hnames.1 (heq ▸ mem_map_of_mem hother), hfresh'⟩
    · simp only [addUser, Finset.mem_insert, not_or]
      grind [mem_map_of_mem]

theorem reads_version (extended : Bool) :
    Reads version (if extended then magicV2 else magic) (if extended then 2 else 1) := by
  have hmagic : magic.length = 8 := by decide
  have hmagicV2 : magicV2.length = 8 := by decide
  cases extended with
  | false =>
    refine (Reads.take hmagic).bind_nil ?_
    rw [if_pos rfl]
    exact .pure 1
  | true =>
    refine (Reads.take hmagicV2).bind_nil ?_
    rw [if_neg (by decide), if_pos rfl]
    exact .pure 2

theorem mem_roleNames {role : SecurityName} : role ∈ catalog.roleNames ↔ role ∈ catalog.roles := by
  rw [roleNames, keys_toList, Finset.mem_sort, Finmap.mem_keys]

theorem rolesToCome (h : WellFormed catalog) (identity : Nat) :
    RolesToCome (if catalog.usesExtendedScopes then 2 else 1)
      ({ new identity with nextUserId := catalog.nextUserId }, []) catalog.roles.toList := by
  refine ⟨nodup_toList catalog.roles, ?_, fun role hrole => ⟨?_, ?_⟩⟩
  · rw [length_toList]
    have hempty : (∅ : Dictionary SecurityName Policy).size = 0 := rfl
    simp only [new, hempty, Nat.zero_add]
    exact h.roles_size
  · exact Finmap.notMem_empty
  · intro grant hgrant hextended
    have huses : catalog.usesExtendedScopes = true := by
      unfold usesExtendedScopes
      refine any_eq_true.mpr ⟨role.2, ?_, decide_eq_true ⟨grant, hgrant, hextended⟩⟩
      exact mem_map_of_mem hrole
    rw [if_pos huses]

theorem usersToCome (h : WellFormed catalog) (identity : Nat) :
    UsersToCome catalog.roleNames ({ catalog with identity := identity, users := ∅ }, ∅)
      catalog.users.toList := by
  refine ⟨nodup_toList catalog.users, ?_, fun user huser => ?_⟩
  · refine List.Nodup.map_on ?_ (List.Nodup.of_map _ (nodup_toList catalog.users))
    rintro ⟨name, user⟩ huser ⟨other, user'⟩ huser' hids
    have hfound := mem_toList.mp huser
    have hfound' := mem_toList.mp huser'
    simp only at hfound hfound' hids
    cases h.id_inj hfound hfound' hids
    grind
  · obtain ⟨hresolvable, hidPos, hidLt, hgenPos, hgenLt⟩ := h.user (mem_toList.mp huser)
    refine ⟨Finmap.notMem_empty, Finset.notMem_empty _, ⟨hresolvable, hidPos, hidLt, hgenPos,
      hgenLt⟩, fun role hrole => ?_⟩
    exact mem_roleNames.mpr (Finmap.mem_iff.mpr (hresolvable.known role hrole))

theorem encode_spec (h : catalog.encode = .ok payload) :
    payload = (if catalog.usesExtendedScopes then magicV2 else magic) ++
      (encodeLong catalog.nextUserId ++ (encodeShort catalog.roles.size ++
        (catalog.roles.toList.flatMap encodeRole ++ (encodeShort catalog.users.size ++
          catalog.users.toList.flatMap (encodeUser catalog.roleNames))))) := by
  unfold encode at h
  split at h
  next =>
    cases h
    rfl
  next => cases h

theorem reads_catalog (h : WellFormed catalog) (identity : Nat)
    (hencode : catalog.encode = .ok payload) :
    Reads (RecordReader.catalog identity) payload
      (if catalog.usesExtendedScopes then 2 else 1, { catalog with identity := identity }) := by
  have hnextPos := h.next_pos
  have hlength : catalog.roleNames.length ≤ 65536 := by
    rw [roleNames, length_map, length_toList]
    exact h.roles_size.trans (by decide)
  have hroles := Reads.loop (fun _ _ _ => reads_role) (rolesToCome h identity)
  rw [foldl_addRole, length_toList] at hroles
  simp only [new, foldl_insert_toList, nil_append] at hroles
  have husers := Reads.loop
    (P := fun state items => state.1.nextUserId < 2 ^ 64 ∧
      UsersToCome catalog.roleNames state items)
    (fun state item items hstate => by
      obtain ⟨hreads, hcome⟩ := reads_user hlength hstate.1 hstate.2
      exact ⟨hreads, hstate.1, hcome⟩)
    ⟨h.next_lt, usersToCome h identity⟩
  rw [encode_spec hencode]
  refine (reads_version catalog.usesExtendedScopes).bind ((reads_long h.next_lt).bind ?_)
  refine .guard (by omega) ((reads_count h.roles_size (by decide)).bind ?_)
  refine hroles.bind ((reads_count h.users_size (by decide)).bind ?_)
  rw [← length_toList]
  refine husers.bind_nil ?_
  rw [foldl_addUser, foldl_insert_toList]
  exact .pure _

end RecordReader

open RecordReader

variable {blake3 : List UInt8 → Blake3.Digest} {catalog : SecurityCatalog} {bytes : List UInt8}

/-- A record is read back as the catalog it was written from, in a new incarnation. -/
theorem fromRecord_toRecord (h : WellFormed catalog) (identity : Nat)
    (hrecord : catalog.toRecord blake3 = .ok bytes) :
    fromRecord blake3 identity bytes = .ok { catalog with identity := identity } := by
  obtain ⟨payload, hencode, hrecord⟩ := Result.bind_eq_ok.mp hrecord
  rw [Result.ite_throw_eq_ok] at hrecord
  obtain ⟨hsize, hrecord⟩ := hrecord
  cases hrecord
  have hchecksum : (checksum blake3 payload).length = checksumBytes := (blake3 _).property
  have hlength : (payload ++ checksum blake3 payload).length - checksumBytes = payload.length := by
    rw [length_append, hchecksum, Nat.add_sub_cancel]
  have hdecode : decode identity payload = .ok { catalog with identity := identity } := by
    have hread := reads_catalog h identity hencode []
    rw [append_nil] at hread
    refine Result.bind_eq_ok.mpr ⟨_, hread, Result.ite_throw_eq_ok.mpr ⟨?_, rfl⟩⟩
    have hsame : usesExtendedScopes { catalog with identity := identity } =
        catalog.usesExtendedScopes := rfl
    simp only [hsame]
    cases catalog.usesExtendedScopes <;> simp
  unfold fromRecord
  simp only [hlength, take_left, drop_left, hdecode]
  have hspec := encode_spec hencode
  rw [if_neg, if_neg]
  · rfl
  · simp only [ne_eq, not_true_eq_false, or_false, not_not]
    rw [hspec]
    cases catalog.usesExtendedScopes
    · exact .inl (List.isPrefixOf_iff_prefix.mpr (prefix_append _ _))
    · exact .inr (List.isPrefixOf_iff_prefix.mpr (prefix_append _ _))
  · have hmagic : (if catalog.usesExtendedScopes then magicV2 else magic).length = 8 := by
      cases catalog.usesExtendedScopes <;> decide
    have hpayload := congrArg List.length hspec
    simp only [length_append, hmagic, encodeLong, encodeShort, Bytes.ofBe_length] at hpayload
    rw [length_append, hchecksum]
    unfold minRecordBytes
    omega

namespace RecordReader

variable {text rest : List UInt8} {value : Nat}

theorem long_lt (h : long text = .ok (value, rest)) : value < 2 ^ 64 := by
  obtain ⟨bytes, remaining, hbytes, h⟩ := bind_eq_ok.mp h
  cases h
  have hlt := Bytes.toBe_lt bytes
  rw [(take_eq_ok.mp hbytes).1] at hlt
  exact hlt

theorem count_le {maximum : Nat}
    (h : count maximum text = .ok (value, rest)) : value ≤ maximum := by
  obtain ⟨found, remaining, -, h⟩ := bind_eq_ok.mp h
  rw [ite_throw_eq_ok] at h
  obtain ⟨hle, h⟩ := h
  cases h
  exact Nat.not_lt.mp hle

/-- What holds after some users were read. -/
structure UsersRead (steps : Nat) (state : SecurityCatalog × Finset Nat) : Prop where
  user : ∀ {name user}, state.1.users.lookup name = some user →
    UserOk state.1 user ∧ user.id ∈ state.2
  id_inj : ∀ {name other user user'}, state.1.users.lookup name = some user →
    state.1.users.lookup other = some user' → user.id = user'.id → name = other
  next_pos : 0 < state.1.nextUserId
  next_lt : state.1.nextUserId < 2 ^ 64
  roles_size : state.1.roles.size ≤ maxSecurityRoles
  size_le : state.1.users.size ≤ steps

theorem wellFormed_of_role {version : Nat} {state next : SecurityCatalog × List SecurityName}
    (h : WellFormed state.1 ∧ state.1.users = ∅)
    (hstep : role version state text = .ok (next, rest)) :
    WellFormed next.1 ∧ next.1.users = ∅ := by
  obtain ⟨name, text, -, hstep⟩ := bind_eq_ok.mp hstep
  obtain ⟨policy, text, -, hstep⟩ := bind_eq_ok.mp hstep
  obtain ⟨catalog, text, hcreate, hstep⟩ := bind_eq_ok.mp hstep
  cases hstep
  have hcreated := (lift_eq_ok.mp hcreate).1
  refine ⟨h.1.createRole hcreated, ?_⟩
  obtain ⟨-, -, rfl⟩ := createRole_spec hcreated
  exact h.2

theorem UsersRead.user_step {roleNames : List SecurityName} {steps : Nat}
    {state next : SecurityCatalog × Finset Nat}
    (h : UsersRead steps state) (hstep : RecordReader.user roleNames state text = .ok
    (next, rest)) : UsersRead (steps + 1) next := by
  obtain ⟨name, text, -, hstep⟩ := bind_eq_ok.mp hstep
  obtain ⟨id, text, -, hstep⟩ := bind_eq_ok.mp hstep
  obtain ⟨generation, text, hgeneration, hstep⟩ := bind_eq_ok.mp hstep
  rw [ite_throw_eq_ok] at hstep
  obtain ⟨hchecks, hstep⟩ := hstep
  simp only [not_or] at hchecks
  obtain ⟨hidPos, hidLt, hgenPos, hidFresh, hnameFresh⟩ := hchecks
  obtain ⟨bytes, text, -, hstep⟩ := bind_eq_ok.mp hstep
  obtain ⟨verifier, text, -, hstep⟩ := bind_eq_ok.mp hstep
  obtain ⟨count, text, -, hstep⟩ := bind_eq_ok.mp hstep
  obtain ⟨indexed, text, -, hstep⟩ := bind_eq_ok.mp hstep
  obtain ⟨roles, text, hroles, hstep⟩ := bind_eq_ok.mp hstep
  cases hstep
  have hresolvable := (validateRoles_spec (lift_eq_ok.mp hroles).1).2
  have hcases : ∀ owner found,
      (state.1.users.insert name ⟨id, generation, verifier, roles⟩).lookup owner = some found →
        (owner = name ∧ found = ⟨id, generation, verifier, roles⟩) ∨
          state.1.users.lookup owner = some found := by
    intro owner found hfound
    rw [lookup_insert_eq] at hfound
    split at hfound
    next heq =>
      cases hfound
      exact .inl ⟨heq, rfl⟩
    next => exact .inr hfound
  constructor
  · intro owner found hfound
    rcases hcases owner found hfound with ⟨rfl, rfl⟩ | hlookup
    · refine ⟨⟨hresolvable, Nat.pos_of_ne_zero hidPos, Nat.not_le.mp hidLt,
        Nat.pos_of_ne_zero hgenPos, long_lt hgeneration⟩, Finset.mem_insert_self _ _⟩
    · obtain ⟨⟨hresolvable, hidPos, hidLt, hgenPos, hgenLt⟩, hmem⟩ := h.user hlookup
      exact ⟨⟨hresolvable, hidPos, hidLt, hgenPos, hgenLt⟩, Finset.mem_insert_of_mem hmem⟩
  · intro owner other found found' hfound hfound' hids
    rcases hcases owner found hfound with ⟨rfl, rfl⟩ | hlookup <;>
      rcases hcases other found' hfound' with ⟨rfl, rfl⟩ | hlookup'
    · rfl
    · have hknown := (h.user hlookup').2
      grind
    · have hknown := (h.user hlookup).2
      grind
    · exact h.id_inj hlookup hlookup' hids
  · exact h.next_pos
  · exact h.next_lt
  · exact h.roles_size
  · exact (size_insert_le state.1.users name _).trans (Nat.succ_le_succ h.size_le)

theorem wellFormed_of_catalog {identity version : Nat}
    (h : RecordReader.catalog identity text = .ok ((version, catalog), rest)) :
    WellFormed catalog := by
  obtain ⟨tag, text, -, h⟩ := bind_eq_ok.mp h
  obtain ⟨nextUserId, text, hnext, h⟩ := bind_eq_ok.mp h
  rw [ite_throw_eq_ok] at h
  obtain ⟨hnextPos, h⟩ := h
  obtain ⟨roleCount, text, hroleCount, h⟩ := bind_eq_ok.mp h
  obtain ⟨withRoles, text, hroles, h⟩ := bind_eq_ok.mp h
  obtain ⟨userCount, text, huserCount, h⟩ := bind_eq_ok.mp h
  obtain ⟨withUsers, text, husers, h⟩ := bind_eq_ok.mp h
  cases h
  have hempty : WellFormed { new identity with nextUserId := nextUserId } := by
    have hnew := wellFormed_new identity
    exact ⟨fun hfound => absurd hfound (by simp [new]), hnew.id_inj,
      Nat.pos_of_ne_zero hnextPos, long_lt hnext, hnew.users_size, hnew.roles_size⟩
  obtain ⟨hread, hnone⟩ :=
    loop_preserves (fun _ _ _ _ _ => wellFormed_of_role) 0 ⟨hempty, rfl⟩ hroles
  have hstart : UsersRead 0 (withRoles.1, ∅) := by
    refine ⟨fun hfound => ?_, hread.id_inj, hread.next_pos, hread.next_lt, hread.roles_size, ?_⟩
    · grind [Finmap.lookup_empty]
    · simp only [hnone]
      exact Nat.zero_le _
  have hend := loop_preserves (fun _ _ _ _ _ h => h.user_step) 0 hstart husers
  rw [Nat.zero_add] at hend
  exact ⟨fun hfound => (hend.user hfound).1, hend.id_inj, hend.next_pos, hend.next_lt,
    hend.size_le.trans (count_le huserCount), hend.roles_size⟩

end RecordReader

/-- Every record that is accepted is a well-formed catalog. -/
theorem wellFormed_of_fromRecord {identity : Nat}
    (h : fromRecord blake3 identity bytes = .ok catalog) : WellFormed catalog := by
  unfold fromRecord at h
  dsimp only at h
  split at h
  next => cases h
  next =>
    split at h
    next => cases h
    next =>
      obtain ⟨read, hread, h⟩ := Result.bind_eq_ok.mp (Result.mapError_eq_ok.mp h)
      rw [Result.ite_throw_eq_ok] at h
      cases h.2
      exact wellFormed_of_catalog hread

end SecurityCatalog

end BriskDB.Security
