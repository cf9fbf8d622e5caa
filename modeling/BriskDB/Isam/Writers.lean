import BriskDB.Isam.Store

/-!
# Concurrent writers

Any number of writers plan batches against the root that they read from the header slots, at
the same time. A gate lets one of them reserve pages, write them one by one and publish, if the
root is still the one it planned against. A call may end at any point: at an error, at its
deadline, or with its process. Stores of the pipelined format are written in another way, which
is not modelled.
-/

namespace BriskDB.Isam

open ByteOrder KeyedList Transparent BTree List

/-- A batch, the generation that its caller insists on, and its plan over a root. -/
structure PlannedBatch where
  base : Snapshot
  expected : Option Nat
  mutations : List Mutation
  plan : BatchPlan

/-- The writer in the gate: its batch, the root to publish, and the pages still to write. -/
structure GateWriter where
  batch : PlannedBatch
  next : Snapshot
  writes : List (Nat × Page)

/-- The file, the layout and format that every handle was opened with, the plans made so far,
the gate, and all published mutations in their order. -/
structure WriterSystem where
  file : File
  layout : Layout
  formatVersion : FormatVersion
  plans : List PlannedBatch
  gate : Option GateWriter
  published : List Mutation

inductive WriterAction where
  | plan (expected : Option Nat) (mutations : List Mutation)
  | reserve (index : Nat)
  | write
  | publish
  | leave
  deriving DecidableEq

namespace WriterSystem

section Step

variable (blake3 : List UInt8 → Digest)

def create (version : FormatVersion) (layout : Layout) : Result WriterSystem := do
  let file ← createFile blake3 version layout
  return ⟨file, layout, version, [], none, []⟩

/-- The root in the header slots, with the layout and the format of the handle. -/
def snapshot (state : WriterSystem) : Result Snapshot := do
  let snapshot ← readSnapshot blake3 state.file
  if snapshot.layout ≠ state.layout ∨ snapshot.formatVersion ≠ state.formatVersion then
    throw (.corrupt "record layout or format changed")
  return snapshot

/-- Validate and plan a batch over a root. -/
def planBatch (file : File) (base : Snapshot) (expected : Option Nat)
    (mutations : List Mutation) : Result (Option PlannedBatch) := do
  if expected.any (base.generation ≠ ·) then return none
  if base.generation + 1 ≥ 2 ^ 64 then throw (.invalid "generation exhausted")
  let plan ← (prepareBatch blake3 file base mutations).run' (some ⟨[]⟩)
  return some ⟨base, expected, mutations, plan⟩

/-- The checks of a batch before any lock is taken. -/
def Admits (version : FormatVersion) (layout : Layout) (mutations : List Mutation) : Prop :=
  version ≠ .pipelined ∧ mutations.length ≤ maxBatchRecords ∧
    (∀ mutation ∈ mutations, layout.Accepts mutation) ∧ mutations ≠ []
  deriving Decidable

/-- One step of some writer; a step that is not its turn does nothing. -/
def step (state : WriterSystem) : WriterAction → WriterSystem
  | .plan expected mutations =>
    if Admits state.formatVersion state.layout mutations then
      match state.snapshot blake3 >>= (planBatch blake3 state.file · expected mutations) with
      | .ok (some batch) => { state with plans := batch :: state.plans }
      | _ => state
    else state
  | .reserve index =>
    match state.plans[index]?, state.gate, state.snapshot blake3 with
    | some batch, none, .ok latest =>
      -- A plan that is out of date has to be made again.
      if latest ≠ batch.base then state
      else
        match reservePlan blake3 state.file batch.base batch.plan with
        | (file, .error _) => { state with file }
        | (file, .ok (writes, next)) => { state with file, gate := some ⟨batch, next, writes⟩ }
    | _, _, _ => state
  | .write =>
    match state.gate with
    | some ⟨batch, next, write :: writes⟩ => { state with
        file := state.file.writeAllAt write.2 write.1
        gate := some ⟨batch, next, writes⟩ }
    | _ => state
  | .publish =>
    match state.gate, state.snapshot blake3 with
    | some ⟨batch, next, []⟩, .ok latest =>
      if latest ≠ batch.base then { state with gate := none }
      else { state with
        file := writeSnapshot blake3 state.file next
        gate := none
        published := state.published ++ batch.mutations }
    | _, _ => state
  | .leave => { state with gate := none }

def run (state : WriterSystem) (actions : List WriterAction) : WriterSystem :=
  actions.foldl (step blake3) state

end Step

section Safety

variable (blake3 : List UInt8 → Digest) (store : Store) (tree : (level : Nat) × BTree level)

def Edits (batch : PlannedBatch) (tree grown : (level : Nat) × BTree level) : Prop :=
  recordEditing.run (records tree.1 tree.2) batch.mutations = some (records grown.1 grown.2)

/-- A plan that is not out of date was made on a file with the published pages. -/
structure Plans (batch : PlannedBatch) : Prop where
  base_le : batch.base.generation ≤ store.snapshot.generation
  expected_eq : ∀ generation ∈ batch.expected, batch.base.generation = generation
  holds : batch.base = store.snapshot → store.snapshot.formatVersion ≠ .pipelined ∧
    store.snapshot.generation + 1 < 2 ^ 64 ∧
    ∃ file grown, Edits batch tree grown ∧
      PlanHolds blake3 file store.snapshot batch.plan.pages batch.plan.root grown ∧
      File.AgreesOn (dataStart store.snapshot.formatVersion) store.snapshot.end_ file
        store.file ∧
      (records grown.1 grown.2).length ≤
        (records tree.1 tree.2).length + pageRoom * batch.plan.pages.length

/-- The pages still to write stand behind the published ones, and complete the new tree. -/
structure Writes (writer : GateWriter) : Prop where
  succeeds : writer.next.Succeeds store.snapshot
  generation_lt : store.snapshot.generation < writer.next.generation
  end_le_len : writer.next.end_ ≤ store.file.len
  expected_eq : ∀ generation ∈ writer.batch.expected, writer.batch.base.generation = generation
  behind : ∀ write ∈ writer.writes, store.snapshot.end_ ≤ write.1 ∧ write.1 % pageBytes = 0
  holds : ∃ grown, Edits writer.batch tree grown ∧
    (⟨store.file.writeAll writer.writes, writer.next⟩ : Store).HoldsTree blake3 grown

/-- The header slots name the root, the file has its pages, and they hold what was published. -/
structure Sound (state : WriterSystem) (snapshot : Snapshot) (tree : (level : Nat) × BTree level) :
    Prop where
  headers : Headers blake3 state.file snapshot
  handle : snapshot.layout = state.layout ∧ snapshot.formatVersion = state.formatVersion
  end_le_len : snapshot.end_ ≤ state.file.len
  holds : (⟨state.file, snapshot⟩ : Store).HoldsTree blake3 tree
  published : recordEditing.run [] state.published = some (records tree.1 tree.2)
  plans : ∀ batch ∈ state.plans, Plans blake3 ⟨state.file, snapshot⟩ tree batch
  gate : ∀ writer ∈ state.gate, Writes blake3 ⟨state.file, snapshot⟩ tree writer

/-- A later state and its root, whose file still has the pages of the earlier root. -/
structure Keeps (state : WriterSystem) (snapshot : Snapshot) (later : WriterSystem)
    (next : Snapshot) : Prop where
  extends_next : snapshot.Extends next
  agrees : File.AgreesOn (dataStart snapshot.formatVersion) snapshot.end_ state.file later.file
  same : next.generation = snapshot.generation →
    next = snapshot ∧ later.published = state.published

variable {blake3 store tree} {state middle later : WriterSystem} {batch : PlannedBatch}
  {snapshot next : Snapshot}

theorem Sound.snapshot_eq (h : Sound blake3 state snapshot tree)
    (hzero : Page.zero.checksumValid blake3 = false) : state.snapshot blake3 = .ok snapshot := by
  simp [WriterSystem.snapshot, h.headers.readSnapshot hzero, h.handle]

theorem Keeps.refl (state : WriterSystem) (snapshot : Snapshot) :
    Keeps state snapshot state snapshot :=
  ⟨⟨rfl, rfl, le_rfl, le_rfl⟩, .refl _ _ _, fun _ => ⟨rfl, rfl⟩⟩

theorem Keeps.trans {last : Snapshot} (h : Keeps state snapshot middle next)
    (h' : Keeps middle next later last) : Keeps state snapshot later last := by
  obtain ⟨⟨hversion, hlayout, hgeneration, hend⟩, hagrees, hsame⟩ := h
  obtain ⟨⟨hversion', hlayout', hgeneration', hend'⟩, hagrees', hsame'⟩ := h'
  refine ⟨⟨hversion'.trans hversion, hlayout'.trans hlayout, le_trans hgeneration hgeneration',
    le_trans hend hend'⟩, hagrees.trans (hagrees'.mono (by rw [hversion]) hend), fun hequal => ?_⟩
  grind

theorem plans_planBatch {file : File} (h : (⟨file, snapshot⟩ : Store).HoldsTree blake3 tree)
    (hversion : snapshot.formatVersion ≠ .pipelined) {expected : Option Nat}
    {mutations : List Mutation}
    (haccepts : ∀ mutation ∈ mutations, snapshot.layout.Accepts mutation)
    (hplan : planBatch blake3 file snapshot expected mutations = .ok (some batch)) :
    Plans blake3 ⟨file, snapshot⟩ tree batch := by
  unfold planBatch at hplan
  split at hplan
  · cases hplan
  next hexpected =>
    obtain ⟨hgeneration, hplan⟩ := Result.ite_throw_eq_ok.mp hplan
    obtain ⟨plan, hplan, hbatch⟩ := Result.bind_eq_ok.mp hplan
    cases hbatch
    have hprepared := prepareBatch_follows h.represents haccepts
    have hrun := applyBatch_run snapshot h.represents.changeable h.represents.sorted
      h.represents.holds haccepts
    cases happly : applyBatch snapshot tree mutations with
    | error error =>
      rw [happly] at hprepared
      rw [hprepared.run'_eq (coherent_empty _ _)] at hplan
      cases hplan
    | ok grown =>
      rw [happly] at hprepared hrun
      obtain ⟨plan', hgives, hholds, hlength⟩ := hprepared
      rw [hgives.run'_eq (coherent_empty _ _)] at hplan
      cases hplan
      refine ⟨le_rfl, fun generation hgeneration => ?_, fun _ => ⟨hversion, Nat.lt_of_not_le hgeneration,
        file, grown, ?_, hholds, .refl _ _ _, hlength⟩⟩
      · simpa [show expected = some generation from hgeneration] using hexpected
      cases hedits : recordEditing.run (records tree.1 tree.2) mutations with
      | none =>
        rw [hedits] at hrun
        cases hrun
      | some entries =>
        rw [hedits] at hrun
        rcases hrun with hrun | ⟨_, ⟨⟩, rfl⟩
        · cases hrun
        · exact hedits

theorem Plans.reserve (hplans : Plans blake3 store tree batch) (h : store.HoldsTree blake3 tree)
    (hbase : batch.base = store.snapshot) (hend : store.snapshot.end_ ≤ store.file.len)
    {later : File} {staged : Result (List (Nat × Page) × Snapshot)}
    (hreserve : reservePlan blake3 store.file batch.base batch.plan = (later, staged)) :
    (∀ limit, File.AgreesOn 0 limit store.file later) ∧ later.len % pageBytes = 0 ∧
      store.file.len ≤ later.len ∧
      ∀ writes next, staged = .ok (writes, next) →
        Writes blake3 ⟨later, store.snapshot⟩ tree ⟨batch, next, writes⟩ := by
  -- The plan was made on an earlier file with the same published pages.
  obtain ⟨hversion, hgeneration, file, grown, hedits, hplan, hagrees, hlength⟩ :=
    hplans.holds hbase
  rw [hbase] at hreserve
  rcases h.reserve hgeneration hplan hagrees hlength with
    ⟨file, writes, next, hok, hstaged⟩ | ⟨message, _, herror⟩
  · cases hok.symm.trans hreserve
    refine ⟨hstaged.agrees, hstaged.len_aligned, hstaged.le_len, ?_⟩
    rintro writes next ⟨⟩
    obtain ⟨hformat, hlayout, hle, hend'⟩ := hstaged.extends_next
    have hnext := hstaged.generation_eq
    have hpublication := h.publishable.publication_eq hversion
    refine ⟨⟨hlayout, hformat, ?_, hle, hend', fun hequal => ?_⟩, ?_, hstaged.reserved_le hend,
      hplans.expected_eq, hstaged.behind, grown, hedits, hstaged.holds⟩
    · rw [hstaged.publication_eq, hnext, hpublication]
    · exact absurd (hnext.symm.trans hequal) (Nat.succ_ne_self _)
    · exact hnext ▸ Nat.lt_succ_self _
  · cases herror.symm.trans hreserve
    exact ⟨fun limit => .refl _ _ _, h.len_aligned, le_rfl, by simp⟩

/-- Changes behind the published pages leave everything published in place. -/
theorem Sound.frame (h : Sound blake3 state snapshot tree) {file : File}
    {gate : Option GateWriter} (hagrees : File.AgreesOn 0 snapshot.end_ state.file file)
    (hlen : file.len % pageBytes = 0) (hle : state.file.len ≤ file.len)
    (hgate : ∀ writer ∈ gate, Writes blake3 ⟨file, snapshot⟩ tree writer) :
    let later := { state with file, gate }
    Sound blake3 later snapshot tree ∧ Keeps state snapshot later snapshot := by
  have hdata := hagrees.mono (Nat.zero_le (dataStart snapshot.formatVersion)) le_rfl
  have hslots : 2 * pageBytes ≤ snapshot.end_ :=
    le_trans (slots_le_dataStart _) h.headers.publishable.dataStart_le
  refine ⟨⟨h.headers.agrees (hagrees.mono le_rfl hslots), h.handle, le_trans h.end_le_len hle, h.holds.keeps hdata hlen,
    h.published, ?_, hgate⟩, ⟨rfl, rfl, le_rfl, le_rfl⟩, hdata, fun _ => ⟨rfl, rfl⟩⟩
  intro batch hbatch
  refine ⟨(h.plans batch hbatch).base_le, (h.plans batch hbatch).expected_eq, fun hbase => ?_⟩
  obtain ⟨hversion, hgeneration, earlier, grown, hedits, hplan, hearlier, hlength⟩ :=
    (h.plans batch hbatch).holds hbase
  exact ⟨hversion, hgeneration, earlier, grown, hedits, hplan, hearlier.trans hdata, hlength⟩

theorem Sound.publish (h : Sound blake3 state snapshot tree)
    (hwrites : Writes blake3 ⟨state.file, snapshot⟩ tree ⟨batch, next, []⟩) :
    let later := { state with
      file := writeSnapshot blake3 state.file next
      gate := none
      published := state.published ++ batch.mutations }
    (∃ grown, Sound blake3 later next grown) ∧ Keeps state snapshot later next := by
  obtain ⟨grown, hedits, hholds⟩ := hwrites.holds
  obtain ⟨hlayout, hversion, -, hgeneration, hend, -⟩ := hwrites.succeeds
  refine ⟨⟨grown, h.headers.publish hholds.publishable hwrites.succeeds, ?_, ?_, ?_, ?_, ?_, ?_⟩,
    ⟨hversion, hlayout, hgeneration, hend⟩, agreesOn_writeSnapshot _ _ _ _,
    fun hequal => absurd hequal hwrites.generation_lt.ne'⟩
  · exact ⟨hlayout.trans h.handle.1, hversion.trans h.handle.2⟩
  · exact le_trans hwrites.end_le_len (le_max_left _ _)
  · exact hholds.keeps (agreesOn_writeSnapshot _ _ _ _)
      (len_writeSnapshot_aligned _ hholds.len_aligned)
  · rw [Editing.run_append, h.published]
    exact hedits
  · -- All plans are out of date now.
    intro batch hbatch
    have hlt := lt_of_le_of_lt (h.plans batch hbatch).base_le hwrites.generation_lt
    refine ⟨hlt.le, (h.plans batch hbatch).expected_eq, fun hbase => ?_⟩
    grind
  · simp

/-- A step that publishes nothing keeps the root. -/
theorem Sound.quiet (h : Sound blake3 state snapshot tree)
    (hzero : Page.zero.checksumValid blake3 = false) {action : WriterAction}
    (haction : action ≠ .publish) :
    Sound blake3 (state.step blake3 action) snapshot tree ∧
      Keeps state snapshot (state.step blake3 action) snapshot := by
  have hlen := h.holds.len_aligned
  have hread := h.snapshot_eq hzero
  have hsame : Sound blake3 state snapshot tree ∧ Keeps state snapshot state snapshot :=
    ⟨h, .refl _ _⟩
  cases action with
  | publish => exact absurd rfl haction
  | plan expected mutations =>
    simp only [WriterSystem.step, hread, Result.ok_bind]
    split
    next hadmits =>
      split
      next batch hplan =>
        obtain ⟨hlayout, hversion⟩ := h.handle
        have hbatch := plans_planBatch h.holds (hversion ▸ hadmits.1)
          (hlayout ▸ hadmits.2.2.1) hplan
        exact ⟨⟨h.headers, h.handle, h.end_le_len, h.holds, h.published,
          forall_mem_cons.mpr ⟨hbatch, h.plans⟩, h.gate⟩, hsame.2.1, hsame.2.2, hsame.2.3⟩
      next => exact hsame
    next => exact hsame
  | reserve index =>
    simp only [WriterSystem.step, hread]
    split
    next batch latest hbatch _ hlatest =>
      cases hlatest
      split
      next => exact hsame
      next hbase =>
        have hplans := h.plans batch (mem_of_getElem? hbatch)
        have hbase := (not_not.mp hbase).symm
        split
        next file error hreserve =>
          obtain ⟨hagrees, hlen, hle, _⟩ := hplans.reserve h.holds hbase h.end_le_len hreserve
          refine h.frame (hagrees _) hlen hle ?_
          simp [*]
        next file writes next hreserve =>
          obtain ⟨hagrees, hlen, hle, hwrites⟩ :=
            hplans.reserve h.holds hbase h.end_le_len hreserve
          refine h.frame (hagrees _) hlen hle ?_
          simp [*]
    next => exact hsame
  | write =>
    simp only [WriterSystem.step]
    split
    next batch next write writes hgate =>
      obtain ⟨hsucceeds, hgeneration, hend, hexpected, hbehind, hholds⟩ := h.gate _ hgate
      obtain ⟨hwrite, hbehind⟩ := forall_mem_cons.mp hbehind
      refine h.frame (@File.agreesOn_writeAll _ [write] _ _ (forall_mem_singleton.mpr hwrite))
        (@len_writeAll_aligned _ [write] hlen (forall_mem_singleton.mpr hwrite.2))
        (le_max_left _ _) ?_
      rintro writer ⟨⟩
      exact ⟨hsucceeds, hgeneration, le_trans hend (le_max_left _ _), hexpected, hbehind, hholds⟩
    next => exact hsame
  | leave => exact h.frame (.refl _ _ _) hlen le_rfl (by simp)

/-- Every step keeps the invariant and what was published. -/
theorem Sound.step (h : Sound blake3 state snapshot tree)
    (hzero : Page.zero.checksumValid blake3 = false) (action : WriterAction) :
    ∃ next grown, Sound blake3 (state.step blake3 action) next grown ∧
      Keeps state snapshot (state.step blake3 action) next := by
  by_cases haction : action = .publish
  · subst haction
    simp only [WriterSystem.step, h.snapshot_eq hzero]
    split
    next batch next latest hgate hlatest =>
      cases hlatest
      split
      next => exact ⟨snapshot, tree, h.frame (.refl _ _ _) h.holds.len_aligned le_rfl (by simp)⟩
      next =>
        obtain ⟨⟨grown, hsound⟩, hkeeps⟩ := h.publish (h.gate _ hgate)
        exact ⟨next, grown, hsound, hkeeps⟩
    next => exact ⟨snapshot, tree, h, .refl _ _⟩
  · exact ⟨snapshot, tree, h.quiet hzero haction⟩

theorem Sound.run (h : Sound blake3 state snapshot tree)
    (hzero : Page.zero.checksumValid blake3 = false) (actions : List WriterAction) :
    ∃ next grown, Sound blake3 (state.run blake3 actions) next grown ∧
      Keeps state snapshot (state.run blake3 actions) next := by
  induction actions generalizing state snapshot tree with
  | nil => exact ⟨snapshot, tree, h, .refl _ _⟩
  | cons action actions ih =>
    obtain ⟨middle, grown, hstep, hkeeps⟩ := h.step hzero action
    obtain ⟨next, grown, hrun, hkeeps'⟩ := ih hstep
    exact ⟨next, grown, hrun, hkeeps.trans hkeeps'⟩

theorem create_sound (blake3 : List UInt8 → Digest) (version : FormatVersion) (layout : Layout) :
    ∃ created, create blake3 version layout = .ok created ∧
      Sound blake3 created (initialSnapshot version layout) ⟨0, []⟩ := by
  obtain ⟨file, hfile, hlen, hheaders⟩ := @createFile_eq blake3 version layout
  obtain ⟨store, hstore, hholds, hsnapshot⟩ := @Store.create_holdsTree blake3 version layout
  rw [Store.create, hfile] at hstore
  cases hstore
  refine ⟨⟨file, layout, version, [], none, []⟩, ?_, hheaders, ⟨rfl, rfl⟩, ?_, hholds, rfl,
    by simp, by simp⟩
  · rw [create, hfile]
    rfl
  · rw [hlen]
    rfl

end Safety

section Examples

/-- A hash of one value, with which runs are evaluated. -/
def sealing : List UInt8 → Digest := fun _ => ⟨replicate 32 1, rfl⟩

def smallLayout : Layout := ⟨2, 16, by decide, by decide, by decide⟩

/-- What a run over a new file publishes. -/
def publishes (actions : List WriterAction) : Result (List Mutation) := do
  let created ← create sealing .packed smallLayout
  return (created.run sealing actions).published

theorem published_eq {created : WriterSystem} {actions : List WriterAction}
    {mutations : List Mutation} (hcreate : create sealing .packed smallLayout = .ok created)
    (h : publishes actions = .ok mutations) :
    (created.run sealing actions).published = mutations := by
  rw [publishes, hcreate] at h
  exact Except.ok.inj h

/-- Two writers have planned, and one publishes. -/
def overtaking : List WriterAction :=
  [.plan (some 1) [.put ⟨[0, 9], [8]⟩], .plan none [.insert ⟨[1, 1], [7]⟩], .reserve 0, .write,
    .publish]

end Examples

section Results

variable (blake3 : List UInt8 → Digest) (hzero : Page.zero.checksumValid blake3 = false)
  (version : FormatVersion) (layout : Layout)
include hzero

/-- A generation stands for what is published: as long as a reader finds the same one, no
writer has published anything; and it never finds a smaller one. -/
theorem generation_identifies_root :
    ∃ created, create blake3 version layout = .ok created ∧
      ∀ before after : List WriterAction,
        let state := created.run blake3 before
        let later := state.run blake3 after
        ∃ snapshot next, state.snapshot blake3 = .ok snapshot ∧
          later.snapshot blake3 = .ok next ∧ snapshot.generation ≤ next.generation ∧
          (next.generation = snapshot.generation →
            next = snapshot ∧ later.published = state.published) ∧
          ∀ writer ∈ later.gate, writer.batch.expected = some snapshot.generation →
            (later.step blake3 .publish).published ≠ later.published →
            (later.step blake3 .publish).published =
              state.published ++ writer.batch.mutations := by
  obtain ⟨created, hcreate, hcreated⟩ := create_sound blake3 version layout
  refine ⟨created, hcreate, fun before after => ?_⟩
  obtain ⟨snapshot, tree, hsound, _⟩ := hcreated.run hzero before
  obtain ⟨next, _, hlater, hkeeps⟩ := hsound.run hzero after
  have hread := hlater.snapshot_eq hzero
  refine ⟨snapshot, next, hsound.snapshot_eq hzero, hread, hkeeps.extends_next.generation_le,
    hkeeps.same, fun writer hwriter hexpected hpublished => ?_⟩
  have hbase := (hlater.gate writer hwriter).expected_eq _ hexpected
  simp only [step, show WriterSystem.gate _ = some writer from hwriter, hread] at hpublished ⊢
  split at hpublished
  next batch root latest hgate hlatest =>
    cases hgate
    cases hlatest
    split at hpublished
    next => exact absurd rfl hpublished
    next hequal =>
      have hsame := hkeeps.same ((congrArg _ (not_not.mp hequal)).trans hbase)
      simp only [if_neg hequal, hsame.2]
  next => exact absurd rfl hpublished

omit hzero in
/-- A batch insists on the first generation. -/
theorem generation_identifies_root_insisting :
    ∃ created, create sealing .packed smallLayout = .ok created ∧
      let later := created.run sealing [.plan (some 1) [.put ⟨[0, 9], [8]⟩], .reserve 0, .write]
      ∃ snapshot next, created.snapshot sealing = .ok snapshot ∧
        later.snapshot sealing = .ok next ∧ snapshot.generation ≤ next.generation ∧
        (later.step sealing .publish).published = [.put ⟨[0, 9], [8]⟩] ∧
        (created.run sealing (overtaking ++ [.reserve 1, .plan (some 1) [.put ⟨[0, 9], [8]⟩],
          .reserve 0, .write, .publish])).published = [.insert ⟨[1, 1], [7]⟩] := by
  obtain ⟨created, hcreate, hruns⟩ :=
    generation_identifies_root sealing (by decide +kernel) .packed smallLayout
  obtain ⟨snapshot, next, hread, hlater, hle, -⟩ :=
    hruns [] [.plan (some 1) [.put ⟨[0, 9], [8]⟩], .reserve 0, .write]
  refine ⟨created, hcreate, snapshot, next, hread, hlater, hle, ?_, ?_⟩
  · exact @published_eq created [.plan (some 1) [.put ⟨[0, 9], [8]⟩], .reserve 0, .write,
      .publish] _ hcreate (by decide +kernel)
  · exact published_eq hcreate (by decide +kernel)

end Results

/-- The steps of a call while no other writer is in the gate. -/
def alone (mutations : List Mutation) (pages : Nat) : List WriterAction :=
  [.leave, .plan none mutations, .reserve 0] ++ (replicate pages .write ++ [.publish])

theorem run_append (blake3 : List UInt8 → Digest) (state : WriterSystem)
    (first second : List WriterAction) :
    state.run blake3 (first ++ second) = (state.run blake3 first).run blake3 second :=
  foldl_append

end WriterSystem

end BriskDB.Isam
