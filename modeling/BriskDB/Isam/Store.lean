import BriskDB.Lib.Blake3
import BriskDB.Isam.Format
import BriskDB.Isam.WritePlan

/-!
# Committing batches

A store is a file with a published snapshot. A batch is planned against the snapshot, its
pages are reserved behind everything the file has, written, and published. Over every run
of batches the store is a sorted map of records, as far as its depth, its file and its
generations reach.
-/

namespace BriskDB.Isam

open ByteOrder KeyedList Transparent BTree List

/-- The first offset of `pages` reserved pages, and the file extended over them. -/
def reservePhysicalPages (file : File) (base : Snapshot) (pages : Nat) : Result (Nat × File) :=
  if pages = 0 then .ok (base.end_, file)
  else if max file.len base.end_ % pageBytes ≠ 0 then
    .error (.corrupt "unaligned physical append position")
  else if pages * pageBytes ≥ 2 ^ 64 then .error (.invalid "append reservation overflow")
  else if max file.len base.end_ + pages * pageBytes > i64Max then
    .error (.invalid "file size exhausted")
  else
    .ok (max file.len base.end_, file.setLen (max file.len base.end_ + pages * pageBytes))

def initialSnapshot (version : FormatVersion) (layout : Layout) : Snapshot where
  formatVersion := version
  layout := layout
  generation := 1
  publication := 1
  root := 0
  end_ := dataStart version

section Store

variable (blake3 : List UInt8 → Digest)

def createFile (version : FormatVersion) (layout : Layout) : Result File :=
  let file := writeSnapshot blake3 (File.empty.setLen (dataStart version))
    (initialSnapshot version layout)
  if version = .pipelined then writeWorkingSnapshot blake3 file (initialSnapshot version layout)
  else .ok file

structure Store where
  file : File
  snapshot : Snapshot

def Store.create (version : FormatVersion) (layout : Layout) : Result Store := do
  let file ← createFile blake3 version layout
  return ⟨file, initialSnapshot version layout⟩

/-- The root of the next generation, before its pages are known. -/
def Snapshot.advanced (base : Snapshot) : Snapshot :=
  { base with
    generation := base.generation + 1
    publication := base.generation + 1 }

/-- Reserve the pages of a plan: the file, and the writes and the root of the plan. -/
def reservePlan (file : File) (base : Snapshot) (plan : BatchPlan) :
    File × Result (List (Nat × Page) × Snapshot) :=
  match reservePhysicalPages file base plan.pages.length with
  | .error error => (file, .error error)
  | .ok (start, file) => (file, writePlan blake3 base base.advanced start plan)

/-- Plan, write and publish a batch while no other writer is active. -/
def Store.publish (store : Store) (mutations : List Mutation) : Store × Result Unit :=
  let base := store.snapshot
  if base.generation + 1 ≥ 2 ^ 64 then (store, .error (.invalid "generation exhausted"))
  else
    match (prepareBatch blake3 store.file base mutations).run' (some ⟨[]⟩) with
    | .error error => (store, .error error)
    | .ok plan =>
      match reservePlan blake3 store.file base plan with
      | (file, .error error) => (⟨file, base⟩, .error error)
      | (file, .ok (writes, next)) =>
        (⟨writeSnapshot blake3 (file.writeAll writes) next, next⟩, .ok ())

def maxBatchRecords : Nat := 4096

/-- Commit a batch while no other writer is active, in a store that is not pipelined: the checks
before any lock is taken, then the publication. -/
def Store.commit (store : Store) (mutations : List Mutation) : Store × Result Unit :=
  if mutations.length > maxBatchRecords then
    (store, .error (.invalid "write batch exceeds record limit"))
  else
    match mutations.forM store.snapshot.layout.checkMutation with
    | .error error => (store, .error error)
    | .ok _ => if mutations.isEmpty then (store, .ok ()) else store.publish blake3 mutations

/-- Commit batches one after another, next to a sorted map that takes the committed ones. -/
def Store.run (store : Store) (entries : List Record) : List (List Mutation) → Store × List Record
  | [] => (store, entries)
  | mutations :: batches =>
    match store.commit blake3 mutations with
    | (store, .ok ()) =>
      Store.run store ((recordEditing.run entries mutations).getD entries) batches
    | (store, .error _) => Store.run store entries batches

end Store

section Reserve

variable {file : File} {base next : Snapshot} {pages : Nat}

/-- What a reservation gives: pages behind the committed end and behind the file. -/
structure ReservedPages (file : File) (base : Snapshot) (pages start : Nat) (later : File) :
    Prop where
  end_le : base.end_ ≤ start
  empty : pages = 0 → start = base.end_
  aligned : start % pageBytes = 0
  bounded : start + pages * pageBytes ≤ i64Max
  agrees : ∀ first limit, File.AgreesOn first limit file later
  len_aligned : later.len % pageBytes = 0
  le_len : file.len ≤ later.len
  reserved_le : base.end_ ≤ file.len → start + pages * pageBytes ≤ later.len

theorem reservePhysicalPages_spec (hlen : file.len % pageBytes = 0)
    (haligned : base.end_ % pageBytes = 0) (hend : base.end_ ≤ i64Max) :
    (∃ start later, reservePhysicalPages file base pages = .ok (start, later) ∧
      ReservedPages file base pages start later) ∨
    ∃ message ∈ ["append reservation overflow", "file size exhausted"],
      reservePhysicalPages file base pages = .error (.invalid message) := by
  unfold reservePhysicalPages
  split
  next hpages =>
    subst hpages
    exact .inl ⟨base.end_, file, rfl, le_rfl, fun _ => rfl, haligned, by omega,
      fun first limit => .refl first limit file, hlen, le_rfl, by omega⟩
  next hpages =>
    have hmax : max file.len base.end_ % pageBytes = 0 := by
      rcases max_choice file.len base.end_ with h | h <;> rw [h] <;> assumption
    rw [if_neg (by rw [hmax]; decide)]
    split
    · exact .inr ⟨_, by simp, rfl⟩
    · split
      · exact .inr ⟨_, by simp, rfl⟩
      next hfits =>
        have hle : file.len ≤ max file.len base.end_ + pages * pageBytes :=
          le_trans (le_max_left _ _) (Nat.le_add_right _ _)
        refine .inl ⟨_, _, rfl, le_max_right _ _, fun h => absurd h hpages, hmax,
          Nat.le_of_not_lt hfits, fun first limit => File.agreesOn_setLen file hle, ?_, hle,
          fun _ => le_rfl⟩
        change (max file.len base.end_ + pages * pageBytes) % pageBytes = 0
        simp [*]

theorem ReservedPages.reserved {start : Nat} {later : File}
    (h : ReservedPages file base pages start later)
    (hstart : dataStart base.formatVersion ≤ base.end_) : Reserved base base.advanced start pages :=
  ⟨rfl, rfl, hstart, h.end_le, h.aligned, h.bounded⟩

end Reserve

section Batch

variable {blake3 : List UInt8 → Digest} {file later : File} {base next : Snapshot}
  {tree : (level : Nat) × BTree level} {mutations : List Mutation} {plan : BatchPlan}
  {start : Nat}

theorem Represents.root_spec (h : Represents blake3 file base tree) :
    base.root = 0 ∨ (dataStart base.formatVersion ≤ base.root ∧ base.root < base.end_ ∧
      base.root % pageBytes = 0) :=
  h.root.imp And.left fun ⟨_, _, hstored⟩ => hstored.offset_spec

theorem plannedSnapshot_publishable {final : File}
    (h : Represents blake3 final (plannedSnapshot base.advanced start plan) tree)
    (hreserved : ReservedPages file base plan.pages.length start later)
    (hgeneration : base.generation + 1 < 2 ^ 64)
    (hstart : dataStart base.formatVersion ≤ base.end_) :
    (plannedSnapshot base.advanced start plan).Publishable where
  generation_lt := hgeneration
  publication_pos := Nat.succ_pos _
  publication_le := le_rfl
  publication_eq := fun _ => rfl
  dataStart_le := le_trans hstart (le_trans hreserved.end_le (Nat.le_add_right _ _))
  end_aligned := by
    change (start + plan.pages.length * pageBytes) % pageBytes = 0
    rw [Nat.add_mul_mod_self_right, hreserved.aligned]
  end_le := hreserved.bounded
  root_spec := h.root_spec

end Batch

section Runs

variable {blake3 : List UInt8 → Digest}

variable (blake3)

structure Store.HoldsTree (store : Store) (tree : (level : Nat) × BTree level) : Prop where
  represents : Represents blake3 store.file store.snapshot tree
  publishable : store.snapshot.Publishable
  len_aligned : store.file.len % pageBytes = 0
  length_le : (records tree.1 tree.2).length ≤ store.snapshot.end_

def Store.Holds (store : Store) (entries : List Record) : Prop :=
  ∃ tree, store.HoldsTree blake3 tree ∧ records tree.1 tree.2 = entries

variable {blake3}

/-- Why a batch that the sorted map takes may still be refused. -/
def exhausted : List String :=
  ["tree depth exhausted", "append reservation overflow", "file size exhausted"]

variable {file : File} {entries : List Record}

theorem len_writeAll_aligned {writes : List (Nat × Page)}
    (hlen : file.len % pageBytes = 0) (hwrites : ∀ write ∈ writes, write.1 % pageBytes = 0) :
    (file.writeAll writes).len % pageBytes = 0 := by
  induction writes generalizing file with
  | nil => exact hlen
  | cons write writes ih =>
    obtain ⟨hwrite, hwrites⟩ := forall_mem_cons.mp hwrites
    refine ih ?_ hwrites
    rw [File.len_writeAllAt]
    rcases max_choice file.len (write.1 + pageBytes) with h | h <;> rw [h]
    · exact hlen
    · simp [*]

theorem slot_mul_lt (snapshot : Snapshot) (version : FormatVersion) :
    snapshot.slot * pageBytes < dataStart version ∧ snapshot.slot * pageBytes % pageBytes = 0 := by
  have hslot : snapshot.slot < 2 := Nat.mod_lt _ (by decide)
  refine ⟨lt_of_lt_of_le (Nat.mul_lt_mul_of_pos_right hslot (by decide)) ?_, Nat.mul_mod_left _ _⟩
  cases version <;> decide

theorem agreesOn_writeSnapshot (file : File) (snapshot : Snapshot) (version : FormatVersion)
    (limit : Nat) :
    File.AgreesOn (dataStart version) limit file (writeSnapshot blake3 file snapshot) :=
  File.agreesOn_writeAllAt file _ (slot_mul_lt snapshot version).2 (slot_mul_lt snapshot version).1

theorem len_writeSnapshot_aligned (snapshot : Snapshot)
    (hlen : file.len % pageBytes = 0) : (writeSnapshot blake3 file snapshot).len % pageBytes = 0 :=
  @len_writeAll_aligned file [(_, _)] hlen
    (forall_mem_singleton.mpr (slot_mul_lt snapshot .fixed).2)

variable {store : Store} {mutations : List Mutation} {tree grown : (level : Nat) × BTree level}
  {plan : BatchPlan}

/-- A root is served from every file that has its pages. -/
theorem Store.HoldsTree.keeps (h : store.HoldsTree blake3 tree)
    (hagrees : File.AgreesOn (dataStart store.snapshot.formatVersion) store.snapshot.end_
      store.file file) (hlen : file.len % pageBytes = 0) :
    (⟨file, store.snapshot⟩ : Store).HoldsTree blake3 tree := by
  refine ⟨⟨h.represents.root.imp_right ?_, h.represents.level_le, h.represents.sorted,
    h.represents.holds⟩, h.publishable, hlen, h.length_le⟩
  rintro ⟨hroot, hfull, hstored⟩
  exact ⟨hroot, hfull, hstored.extends ⟨rfl, rfl, le_rfl, le_rfl⟩ hagrees⟩

/-- Pages are reserved behind all others, and take the planned tree. -/
structure Store.Staged (blake3 : List UInt8 → Digest) (store : Store)
    (grown : (level : Nat) × BTree level) (later : File) (writes : List (Nat × Page))
    (next : Snapshot) : Prop where
  agrees : ∀ limit, File.AgreesOn 0 limit store.file later
  len_aligned : later.len % pageBytes = 0
  le_len : store.file.len ≤ later.len
  reserved_le : store.snapshot.end_ ≤ store.file.len → next.end_ ≤ later.len
  extends_next : store.snapshot.Extends next
  generation_eq : next.generation = store.snapshot.generation + 1
  publication_eq : next.publication = next.generation
  behind : ∀ write ∈ writes, store.snapshot.end_ ≤ write.1 ∧ write.1 % pageBytes = 0
  holds : (⟨later.writeAll writes, next⟩ : Store).HoldsTree blake3 grown

theorem Store.HoldsTree.reserve (h : store.HoldsTree blake3 tree)
    (hgeneration : store.snapshot.generation + 1 < 2 ^ 64)
    (hplan : PlanHolds blake3 file store.snapshot plan.pages plan.root grown)
    (hearlier : File.AgreesOn (dataStart store.snapshot.formatVersion) store.snapshot.end_ file
      store.file) (hlength : (records grown.1 grown.2).length ≤
      (records tree.1 tree.2).length + pageRoom * plan.pages.length) :
    (∃ later writes next,
      reservePlan blake3 store.file store.snapshot plan = (later, .ok (writes, next)) ∧
        store.Staged blake3 grown later writes next) ∨
    ∃ message ∈ ["append reservation overflow", "file size exhausted"],
      reservePlan blake3 store.file store.snapshot plan =
        (store.file, .error (.invalid message)) := by
  have hstart := h.publishable.dataStart_le
  refine (@reservePhysicalPages_spec store.file store.snapshot plan.pages.length h.len_aligned
    h.publishable.end_aligned h.publishable.end_le).imp ?_ ?_
  · rintro ⟨start, later, hreserve, hreserved⟩
    have hplace := hreserved.reserved hstart
    have hplaces := fun write hwrite => @of_mem_plannedWrites blake3 _ _ _ _ hplace write hwrite
    have hbehind := hreserved.end_le
    have hagrees : File.AgreesOn 0 start store.file
        (later.writeAll (plannedWrites blake3 store.snapshot.advanced start plan.pages)) :=
      (hreserved.agrees 0 start).trans (File.agreesOn_writeAll later fun write hwrite =>
        ⟨(hplaces write hwrite).1, (hplaces write hwrite).2.2⟩)
    have hrepresents := hplan.represents hplace (Nat.le_succ _) (Nat.succ_ne_zero _) hgeneration rfl
      (hearlier.trans (hagrees.mono (Nat.zero_le _) hbehind))
      (File.carries_writeAll later (plannedWrites_distinct hplace))
    refine ⟨later, plannedWrites blake3 store.snapshot.advanced start plan.pages,
      plannedSnapshot store.snapshot.advanced start plan, ?_, fun limit => hreserved.agrees 0 limit,
      hreserved.len_aligned, hreserved.le_len, hreserved.reserved_le,
      ⟨rfl, rfl, Nat.le_succ _, le_trans hbehind (Nat.le_add_right _ _)⟩, rfl, rfl,
      fun write hwrite => ⟨le_trans hbehind (hplaces write hwrite).1, (hplaces write hwrite).2.2⟩,
      hrepresents, plannedSnapshot_publishable hrepresents hreserved hgeneration hstart,
      len_writeAll_aligned hreserved.len_aligned fun write hwrite => (hplaces write hwrite).2.2, ?_⟩
    · rw [reservePlan, hreserve]
      simp only [writePlan_eq hplan hplace rfl fun h => hreserved.empty (by rw [h]; rfl)]
    · have hcount := h.length_le
      change _ ≤ start + plan.pages.length * pageBytes
      simp only [pageRoom, checksumStart, pagePrefix, pageBytes] at hlength ⊢
      omega
  · rintro ⟨message, hmessage, hreserve⟩
    exact ⟨message, hmessage, by rw [reservePlan, hreserve]⟩

theorem coherent_empty (file : File) (snapshot : Snapshot) :
    Coherent blake3 file snapshot (some ⟨[]⟩) := by
  rintro pages ⟨⟩ page hpage
  cases hpage

/-- A batch does to the store what it does to its tree, unless the file is full. -/
theorem Store.HoldsTree.publish (h : store.HoldsTree blake3 tree)
    (haccepts : ∀ mutation ∈ mutations, store.snapshot.layout.Accepts mutation)
    (hgeneration : store.snapshot.generation + 1 < 2 ^ 64) :
    match applyBatch store.snapshot tree mutations with
    | .error error => store.publish blake3 mutations = (store, .error error)
    | .ok grown =>
      (∃ store', store.publish blake3 mutations = (store', .ok ()) ∧
        store'.HoldsTree blake3 grown ∧ store'.snapshot.layout = store.snapshot.layout ∧
        store'.snapshot.formatVersion = store.snapshot.formatVersion ∧
        store'.snapshot.generation = store.snapshot.generation + 1) ∨
      ∃ message ∈ exhausted,
        store.publish blake3 mutations = (store, .error (.invalid message)) := by
  have hprepared := prepareBatch_follows h.represents haccepts
  unfold Store.publish
  simp only [if_neg (Nat.not_le.mpr hgeneration)]
  cases hbatch : applyBatch store.snapshot tree mutations with
  | error error =>
    rw [hbatch] at hprepared
    simp only [hprepared.run'_eq (coherent_empty _ _)]
  | ok grown =>
    rw [hbatch] at hprepared
    obtain ⟨plan, hplan, hholds, hlength⟩ := hprepared
    simp only [hplan.run'_eq (coherent_empty _ _)]
    rcases h.reserve hgeneration hholds (.refl _ _ _) hlength with
      ⟨later, writes, next, hreserve, hstaged⟩ | ⟨message, hmessage, hreserve⟩
    · refine .inl ⟨_, by rw [hreserve], ?_, hstaged.extends_next.layout_eq,
        hstaged.extends_next.formatVersion_eq, hstaged.generation_eq⟩
      exact hstaged.holds.keeps (agreesOn_writeSnapshot _ _ _ _)
        (len_writeSnapshot_aligned _ hstaged.holds.len_aligned)
    · exact .inr ⟨message, mem_cons_of_mem _ hmessage, by rw [hreserve]⟩

/-- A batch is refused and changes nothing, or the store takes the change of the map. -/
theorem Store.Holds.publish (h : store.Holds blake3 entries)
    (haccepts : ∀ mutation ∈ mutations, store.snapshot.layout.Accepts mutation)
    (hgeneration : store.snapshot.generation + 1 < 2 ^ 64) :
    match recordEditing.run entries mutations with
    | none => store.publish blake3 mutations = (store, .error .duplicate)
    | some entries' =>
      (∃ store', store.publish blake3 mutations = (store', .ok ()) ∧
        store'.Holds blake3 entries' ∧ store'.snapshot.layout = store.snapshot.layout) ∨
      ∃ message ∈ exhausted,
        store.publish blake3 mutations = (store, .error (.invalid message)) := by
  obtain ⟨tree, htree, rfl⟩ := h
  have hrun := applyBatch_run store.snapshot htree.represents.changeable htree.represents.sorted
    htree.represents.holds haccepts
  have hcommit := htree.publish haccepts hgeneration
  cases hentries : recordEditing.run (records tree.1 tree.2) mutations with
  | none =>
    rw [hentries] at hrun
    rw [hrun] at hcommit
    exact hcommit
  | some entries' =>
    rw [hentries] at hrun
    rcases hrun with hdepth | ⟨grown, hgrown, hrecords⟩
    · rw [hdepth] at hcommit
      exact .inr ⟨_, mem_cons_self, hcommit⟩
    · rw [hgrown] at hcommit
      rcases hcommit with ⟨store', hcommit, hholds, hlayout, _⟩ | hexhausted
      · exact .inl ⟨store', hcommit, ⟨grown, hholds, hrecords⟩, hlayout⟩
      · exact .inr hexhausted

theorem dataStart_spec (version : FormatVersion) :
    dataStart version % pageBytes = 0 ∧ dataStart version ≤ i64Max := by
  cases version <;> decide

theorem initialSnapshot_publishable (version : FormatVersion) (layout : Layout) :
    (initialSnapshot version layout).Publishable where
  generation_lt := Nat.one_lt_two_pow (by decide)
  publication_pos := Nat.one_pos
  publication_le := le_rfl
  publication_eq := fun _ => rfl
  dataStart_le := le_rfl
  end_aligned := (dataStart_spec version).1
  end_le := (dataStart_spec version).2
  root_spec := .inl rfl

section Slots

variable {later : File} {base next : Snapshot}

theorem slots_le_dataStart (version : FormatVersion) : 2 * pageBytes ≤ dataStart version := by
  cases version <;> decide

theorem Headers.agrees (h : Headers blake3 file base)
    (hagrees : File.AgreesOn 0 (2 * pageBytes) file later) : Headers blake3 later base := by
  have hread : ∀ slot page, slot < 2 → file.readExactAt (slot * pageBytes) = some page →
      later.readExactAt (slot * pageBytes) = some page := fun slot page hslot =>
    hagrees _ page (Nat.zero_le _) (Nat.mul_lt_mul_of_pos_right hslot (by decide))
      (Nat.mul_mod_left _ _)
  refine ⟨h.publishable, hread _ _ (Nat.mod_lt _ (by decide)) h.newest, h.other.imp ?_ ?_⟩
  · exact And.imp_right (hread _ _ (by omega))
  · rintro ⟨older, hprecedes, hother⟩
    exact ⟨older, hprecedes, hread _ _ (Nat.mod_lt _ (by decide)) hother⟩

/-- A root is published over the slot of the root before the last one. -/
theorem Headers.publish (h : Headers blake3 file base) (hnext : next.Publishable)
    (hsucceeds : next.Succeeds base) : Headers blake3 (writeSnapshot blake3 file next) next := by
  refine ⟨hnext, File.readExactAt_writeAllAt_same _ _ _, .inr ⟨base, ⟨h.publishable, hsucceeds⟩,
    File.readExactAt_writeAllAt_other ?_ h.newest⟩⟩
  have hpublication := hsucceeds.2.2.1
  rw [Nat.mul_div_cancel _ (by decide), Nat.mul_div_cancel _ (by decide),
    h.publishable.slot_eq, hnext.slot_eq]
  omega

end Slots

theorem createFile_eq (version : FormatVersion) (layout : Layout) :
    ∃ file, createFile blake3 version layout = .ok file ∧ file.len = dataStart version ∧
      Headers blake3 file (initialSnapshot version layout) := by
  have hslot : (initialSnapshot version layout).slot = 1 := by
    unfold Snapshot.slot initialSnapshot
    split <;> rfl
  have hslots := slots_le_dataStart version
  have hlen : (writeSnapshot blake3 (File.empty.setLen (dataStart version))
      (initialSnapshot version layout)).len = dataStart version := by
    refine max_eq_left ?_
    rwa [hslot]
  have hheaders : Headers blake3 (writeSnapshot blake3 (File.empty.setLen (dataStart version))
      (initialSnapshot version layout)) (initialSnapshot version layout) := by
    refine ⟨initialSnapshot_publishable _ _, File.readExactAt_writeAllAt_same _ _ _,
      .inl ⟨rfl, ?_⟩⟩
    rw [hslot]
    refine File.readExactAt_writeAllAt_other ?_ (File.readExactAt_eq_some.mpr ⟨?_, ite_self _⟩)
    · rw [hslot]
      decide
    · exact le_trans (by decide) hslots
  unfold createFile
  by_cases hversion : version = .pipelined
  · subst hversion
    rw [if_pos rfl, writeWorkingSnapshot, writeWorkingState]
    refine ⟨_, rfl, ?_, ?_⟩
    · rw [File.len_writeAllAt, hlen]
      exact max_eq_left (by decide)
    · exact hheaders.agrees (@File.agreesOn_writeAll _ [(_, _)] _ _
        (forall_mem_singleton.mpr ⟨le_rfl, Nat.mul_mod_left _ _⟩))
  · exact ⟨_, if_neg hversion, hlen, hheaders⟩

theorem Store.create_holdsTree (version : FormatVersion) (layout : Layout) :
    ∃ created, Store.create blake3 version layout = .ok created ∧
      created.HoldsTree blake3 ⟨0, []⟩ ∧ created.snapshot = initialSnapshot version layout := by
  obtain ⟨file, hfile, hlen, -⟩ := @createFile_eq blake3 version layout
  refine ⟨⟨file, initialSnapshot version layout⟩, ?_, ⟨?_, ?_, ?_, Nat.zero_le _⟩, rfl⟩
  · rw [Store.create, hfile]
    rfl
  · exact ⟨.inl ⟨rfl, rfl⟩, Nat.zero_le _, .nil, nofun⟩
  · exact initialSnapshot_publishable version layout
  · simp [*, dataStart_spec]

theorem Store.publish_exhausted (h : ¬ store.snapshot.generation + 1 < 2 ^ 64)
    (mutations : List Mutation) :
    store.publish blake3 mutations = (store, .error (.invalid "generation exhausted")) :=
  if_pos (Nat.not_lt.mp h)

theorem Store.commit_oversized (h : maxBatchRecords < mutations.length) :
    store.commit blake3 mutations =
      (store, .error (.invalid "write batch exceeds record limit")) :=
  if_pos h

theorem Store.commit_nil : store.commit blake3 [] = (store, .ok ()) := rfl

theorem Store.commit_eq (haccepts : ∀ mutation ∈ mutations, store.snapshot.layout.Accepts mutation)
    (hlength : mutations.length ≤ maxBatchRecords) (hne : mutations ≠ []) :
    store.commit blake3 mutations = store.publish blake3 mutations := by
  have hchecks : mutations.forM store.snapshot.layout.checkMutation = .ok () :=
    Result.forM_eq_ok.mpr fun mutation hmutation => (haccepts mutation hmutation).checkMutation
  simp [Store.commit, hchecks, not_lt.mpr hlength, hne]

/-- Every run keeps the store and the sorted map together. -/
theorem Store.Holds.run (h : store.Holds blake3 entries)
    {batches : List (List Mutation)} (haccepts : ∀ mutations ∈ batches, ∀ mutation ∈ mutations,
      store.snapshot.layout.Accepts mutation) :
    (store.run blake3 entries batches).1.Holds blake3 (store.run blake3 entries batches).2 ∧
      (store.run blake3 entries batches).1.snapshot.layout = store.snapshot.layout := by
  induction batches generalizing store entries with
  | nil => exact ⟨h, rfl⟩
  | cons mutations batches ih =>
    obtain ⟨haccept, hbatches⟩ := forall_mem_cons.mp haccepts
    unfold Store.run
    by_cases hlength : mutations.length ≤ maxBatchRecords
    · by_cases hne : mutations = []
      · subst hne
        rw [Store.commit_nil]
        exact ih h hbatches
      · rw [Store.commit_eq haccept hlength hne]
        by_cases hgeneration : store.snapshot.generation + 1 < 2 ^ 64
        · have hcommit := h.publish haccept hgeneration
          cases hrun : recordEditing.run entries mutations with
          | none =>
            rw [hrun] at hcommit
            grind
          | some entries' =>
            rw [hrun] at hcommit
            rcases hcommit with ⟨store', hcommit, hholds, hlayout⟩ | ⟨message, _, hcommit⟩
            · grind
            · grind
        · grind [Store.publish_exhausted]
    · rw [Store.commit_oversized (Nat.lt_of_not_le hlength)]
      exact ih h hbatches

/-- Reads of the store return what the records say, whatever pages a cache already has. -/
structure Store.Serves (blake3 : List UInt8 → Digest) (store : Store) (entries : List Record) :
    Prop where
  get : ∀ key, Gives (Coherent blake3 store.file store.snapshot)
    (get blake3 store.file store.snapshot key)
    (.ok ((lookup Record.key entries key).map Record.value))
  range : ∀ start stop limit, Gives (Coherent blake3 store.file store.snapshot)
    (range blake3 store.file store.snapshot start stop limit)
    (.ok ((entries.filter (inRange start stop)).take limit))
  verify : Gives (Coherent blake3 store.file store.snapshot)
    (verify blake3 store.file store.snapshot) (.ok entries.length)

theorem Store.Holds.serves (h : store.Holds blake3 entries) : store.Serves blake3 entries := by
  obtain ⟨tree, htree, rfl⟩ := h
  have hrepresents := htree.represents
  refine ⟨hrepresents.get_gives, hrepresents.range_gives, hrepresents.verify_gives ?_⟩
  have hlength := htree.length_le
  have hend := htree.publishable.end_le
  have h64 : i64Max < 2 ^ 64 := by decide
  omega

theorem Store.Holds.sorted (h : store.Holds blake3 entries) : Sorted Record.key entries := by
  obtain ⟨tree, htree, rfl⟩ := h
  exact htree.represents.sorted

/-- What the next batch does to a store that serves these records: too many mutations are refused,
none are taken without a publication, a duplicate of the sorted map is refused, any other batch
is committed unless something is exhausted, and a refused batch leaves the store as it is. -/
def Store.CommitsAs (blake3 : List UInt8 → Digest) (store : Store) (entries : List Record)
    (mutations : List Mutation) : Prop :=
  if maxBatchRecords < mutations.length then
    store.commit blake3 mutations =
      (store, .error (.invalid "write batch exceeds record limit"))
  else if mutations = [] then store.commit blake3 mutations = (store, .ok ())
  else if store.snapshot.generation + 1 < 2 ^ 64 then
    match recordEditing.run entries mutations with
    | none => store.commit blake3 mutations = (store, .error .duplicate)
    | some entries' =>
      (∃ store', store.commit blake3 mutations = (store', .ok ()) ∧
        store'.Serves blake3 entries') ∨
      ∃ message ∈ exhausted,
        store.commit blake3 mutations = (store, .error (.invalid message))
  else store.commit blake3 mutations = (store, .error (.invalid "generation exhausted"))

theorem Store.Holds.commitsAs (h : store.Holds blake3 entries)
    (haccepts : ∀ mutation ∈ mutations, store.snapshot.layout.Accepts mutation) :
    store.CommitsAs blake3 entries mutations := by
  unfold Store.CommitsAs
  split
  next hlength => exact Store.commit_oversized hlength
  next hlength =>
    split
    next hnil =>
      subst hnil
      exact Store.commit_nil
    next hne =>
      rw [Store.commit_eq haccepts (Nat.le_of_not_lt hlength) hne]
      split
      next hgeneration =>
        have hcommit := h.publish haccepts hgeneration
        split
        next hrun =>
          rw [hrun] at hcommit
          exact hcommit
        next entries' hrun =>
          rw [hrun] at hcommit
          rcases hcommit with ⟨store', hcommit, hstore', _⟩ | hexhausted
          · exact .inl ⟨store', hcommit, hstore'.serves⟩
          · exact .inr hexhausted
      next hgeneration => exact Store.publish_exhausted hgeneration mutations

/-- Every run of accepted batches from a created store refines a sorted map: reads return
what the map says, and the next batch does to the store what it does to the map, as far as
the length of a batch, the depth of the tree, the file and the generations reach. -/
theorem run_refines_sorted_map (blake3 : List UInt8 → Digest) (version : FormatVersion)
    (layout : Layout) :
    ∃ created, Store.create blake3 version layout = .ok created ∧
      ∀ batches : List (List Mutation),
        (∀ mutations ∈ batches, ∀ mutation ∈ mutations, layout.Accepts mutation) →
        ∃ store entries, created.run blake3 [] batches = (store, entries) ∧
          Sorted Record.key entries ∧ store.Serves blake3 entries ∧
          ∀ mutations : List Mutation, (∀ mutation ∈ mutations, layout.Accepts mutation) →
            store.CommitsAs blake3 entries mutations := by
  obtain ⟨created, hcreate, hcreated, hsnapshot⟩ := @Store.create_holdsTree blake3 version layout
  have hlayout : created.snapshot.layout = layout := by rw [hsnapshot]; rfl
  have hempty : created.Holds blake3 [] := ⟨_, hcreated, rfl⟩
  refine ⟨created, hcreate, ?_⟩
  intro batches haccepts
  obtain ⟨hholds, hlayout'⟩ := hempty.run (by rwa [hlayout])
  refine ⟨_, _, rfl, hholds.sorted, hholds.serves, ?_⟩
  intro mutations haccept
  rw [← hlayout, ← hlayout'] at haccept
  exact hholds.commitsAs haccept

/-- Two batches, the second of which moves a record and inserts its old key again, and a
third one. -/
theorem run_refines_sorted_map_moved_record :
    ∃ created, Store.create Blake3.hash .packed ⟨2, 16, by decide, by decide, by decide⟩ =
        .ok created ∧
      ∃ store entries, created.run Blake3.hash []
          [[.insert ⟨[1, 1], [7]⟩, .put ⟨[0, 9], [8]⟩],
            [.delete [1, 1], .put ⟨[2, 2], [7]⟩, .insert ⟨[1, 1], []⟩]] = (store, entries) ∧
        Sorted Record.key entries ∧ store.Serves Blake3.hash entries ∧
        store.CommitsAs Blake3.hash entries [.insert ⟨[2, 2], [5]⟩] := by
  obtain ⟨created, hcreate, hruns⟩ :=
    run_refines_sorted_map Blake3.hash .packed ⟨2, 16, by decide, by decide, by decide⟩
  obtain ⟨store, entries, hrun, hsorted, hserves, hcommits⟩ := hruns
    [[.insert ⟨[1, 1], [7]⟩, .put ⟨[0, 9], [8]⟩],
      [.delete [1, 1], .put ⟨[2, 2], [7]⟩, .insert ⟨[1, 1], []⟩]] (by decide)
  exact ⟨created, hcreate, store, entries, hrun, hsorted, hserves, hcommits _ (by decide)⟩

end Runs

end BriskDB.Isam
