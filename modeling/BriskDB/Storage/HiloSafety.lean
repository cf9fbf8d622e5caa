import BriskDB.Storage.Hilo

/-! # Hi/lo IDs are never issued twice

A reachable system is read as a ledger: a process holds the rest of its cached
range, a thread holds the lease it has not installed yet. Every step of the system
grants from the head, hands over, issues or forgets, so the ledger stays sound. The
mutex and the immediate transaction are what make this reading possible: a range
is replaced only when it is empty, and the row that a transaction updates is the
row it read.
-/

namespace BriskDB.Storage

open GeneratedId Transition List Function

namespace HiloSystem

variable {tableId : Nat} {system next : HiloSystem}

def consume (system : HiloSystem) (process : Nat) (range : CachedRange) : HiloSystem :=
  system.setProcess process
    { system.processes process with
      range := some { range with nextSequence := range.nextSequence + 1 } }

/-- What a step can do, with the conditions under which it does it. -/
inductive Moves (tableId : Nat) (system : HiloSystem) : HiloSystem → Prop
  | lock (thread : ThreadRef) (hidle : system.threads thread = .idle)
      (hfree : (system.processes thread.1).holder = none) :
      Moves tableId system (system.acquire thread)
  | issue (thread : ThreadRef) (range : CachedRange)
      (hthread : system.threads thread = .examining)
      (hrange : (system.processes thread.1).range = some range)
      (hleft : range.nextSequence ≤ range.lastSequence) (hpos : 1 ≤ range.nextSequence)
      (hmax : range.nextSequence ≤ maxHiloV1Sequence) :
      Moves tableId system
        ({ system.consume thread.1 range with
            issued := system.issued ++ [HiloAllocation.mk (HiloV1Id.encode ⟨range.nextSequence⟩)
              tableId range.ownerId range.fence] }.leave thread)
  | discard (thread : ThreadRef) (range : CachedRange)
      (hthread : system.threads thread = .examining)
      (hrange : (system.processes thread.1).range = some range) :
      Moves tableId system ((system.consume thread.1 range).leave thread)
  | start (call : HiloCall) (thread : ThreadRef) (hbegin : system.mayBegin call thread) :
      Moves tableId system
        ({ system with transaction := some (thread, system.row) }.setThread thread
          (.reserving call system.row))
  | update (call : HiloCall) (thread : ThreadRef) (read current row : LeaseRow)
      (lease : DurableHiloLease) (hthread : system.threads thread = .reserving call read)
      (htransaction : system.transaction = some (thread, current))
      (hplan : planHiloV1Block tableId (system.processes thread.1).ownerId read = .ok lease)
      (hadvance : current.advance read lease = .ok row) :
      Moves tableId system
        ({ system with transaction := some (thread, row) }.setThread thread (.updated call lease))
  | grant (thread : ThreadRef) (row : LeaseRow) (lease : DurableHiloLease)
      (hthread : system.threads thread = .updated .allocate lease)
      (htransaction : system.transaction = some (thread, row)) :
      Moves tableId system ((system.durable row lease).setThread thread (.leased lease))
  | burn (call : HiloCall) (thread : ThreadRef) (row : LeaseRow) (lease : DurableHiloLease)
      (hthread : system.threads thread = .updated call lease)
      (htransaction : system.transaction = some (thread, row)) :
      Moves tableId system ((system.durable row lease).leave thread)
  | install (thread : ThreadRef) (lease : DurableHiloLease)
      (hthread : system.threads thread = .leased lease) :
      Moves tableId system (system.install thread lease)
  | leave (thread : ThreadRef) (hthread : system.threads thread ≠ .idle) :
      Moves tableId system (system.leave thread)
  | crash (process : Nat) (ownerId : List UInt8) :
      Moves tableId system (system.restart process ownerId)

variable {thread other : ThreadRef}

theorem moves_of_issue (h : step tableId system (.issue thread) = some next) :
    Moves tableId system next := by
  simp only [step] at h
  split at h
  next range hthread hrange =>
    obtain ⟨hleft, h⟩ := Option.ite_none_left_eq_some.mp h
    simp only [CachedRange.take] at h
    split at h
    next allocation hresult =>
      cases h
      obtain ⟨id, hid, hallocation⟩ := Result.bind_eq_ok.mp hresult
      obtain ⟨rfl, hpos, hmax⟩ := HiloV1Id.new_eq_ok hid
      cases hallocation
      exact .issue thread range hthread hrange (by omega) hpos hmax
    · cases h
      exact .discard thread range hthread hrange
  · cases h

theorem moves_of_update (h : step tableId system (.update thread) = some next) :
    Moves tableId system next := by
  simp only [step] at h
  split at h
  next call read owner current hthread htransaction =>
    have hleave : Moves tableId system (system.leave thread) := .leave thread (by simp [hthread])
    obtain ⟨rfl, h⟩ := Option.ite_none_right_eq_some.mp h
    split at h
    · cases h
      exact hleave
    next lease hplan =>
      split at h
      · cases h
        exact hleave
      next row hadvance =>
        cases h
        exact .update call owner read current row lease hthread htransaction hplan hadvance
  · cases h

theorem moves_of_commit {outcome : CommitOutcome}
    (h : step tableId system (.commit thread outcome) = some next) : Moves tableId system next := by
  simp only [step] at h
  split at h
  next call lease owner row hthread htransaction =>
    obtain ⟨rfl, h⟩ := Option.ite_none_right_eq_some.mp h
    split at h
    · cases h
      exact .grant owner row lease hthread htransaction
    · cases h
      exact .burn _ owner row lease hthread htransaction
    · cases h
      exact .burn _ owner row lease hthread htransaction
    · cases h
      exact .leave owner (by simp [hthread])
  · cases h

theorem moves_of_step {action : HiloAction} (h : step tableId system action = some next) :
    Moves tableId system next := by
  cases action with
  | lock thread =>
    obtain ⟨⟨hidle, hfree⟩, ⟨⟩⟩ := Option.ite_none_right_eq_some.mp h
    exact .lock thread hidle hfree
  | issue thread => exact moves_of_issue h
  | begin call thread =>
    obtain ⟨hbegin, ⟨⟩⟩ := Option.ite_none_right_eq_some.mp h
    exact .start call thread hbegin
  | update thread => exact moves_of_update h
  | commit thread outcome => exact moves_of_commit h
  | install thread =>
    simp only [step] at h
    split at h
    next lease hthread =>
      split at h
      · cases h
        exact .leave thread (by simp [hthread])
      · cases h
        exact .install thread lease hthread
    · cases h
  | abort thread =>
    obtain ⟨hthread, ⟨⟩⟩ := Option.ite_none_left_eq_some.mp h
    exact .leave thread hthread
  | crash process ownerId =>
    cases h
    exact .crash process ownerId

section Fields

/-- A change of a process that keeps something of it keeps it of every process. -/
theorem processes_setProcess {α : Type} (kept : HiloProcess → α) {process : Nat}
    {changed : HiloProcess} (h : kept changed = kept (system.processes process)) (other : Nat) :
    kept ((system.setProcess process changed).processes other) = kept (system.processes other) := by
  by_cases hother : other = process <;> simp [setProcess, hother, h]

variable (system : HiloSystem) (thread : ThreadRef)

@[simp] theorem leave_row : (system.leave thread).row = system.row := by
  unfold leave unlock rollback
  repeat' split
  all_goals rfl

@[simp] theorem leave_issued : (system.leave thread).issued = system.issued := by
  unfold leave unlock rollback
  repeat' split
  all_goals rfl

@[simp] theorem leave_reservations : (system.leave thread).reservations = system.reservations := by
  unfold leave unlock rollback
  repeat' split
  all_goals rfl

@[simp] theorem leave_threads :
    (system.leave thread).threads = Function.update system.threads thread .idle := by
  unfold leave unlock rollback
  repeat' split
  all_goals rfl

@[simp] theorem rollback_processes : (system.rollback thread).processes = system.processes := by
  unfold rollback
  repeat' split
  all_goals rfl

@[simp] theorem leave_range (process : Nat) :
    ((system.leave thread).processes process).range = (system.processes process).range := by
  have hrollback := congrArg (fun processes => (processes process).range)
    (rollback_processes system thread)
  rw [leave, unlock]
  split
  · exact (processes_setProcess HiloProcess.range (by rfl) process).trans hrollback
  · exact hrollback

theorem leave_holder {other : ThreadRef} (hne : other ≠ thread)
    (hholder : (system.processes other.1).holder = some other.2) :
    ((system.leave thread).processes other.1).holder = some other.2 := by
  unfold leave unlock setThread setProcess
  simp only [rollback_processes]
  split
  next hmine =>
    by_cases hprocess : other.1 = thread.1
    · rw [hprocess, hmine] at hholder
      exact absurd (Prod.ext hprocess (Option.some.inj hholder).symm) hne
    · simpa only [update_of_ne hprocess] using hholder
  · rw [rollback_processes]
    exact hholder

theorem leave_transaction {other : ThreadRef} {row : LeaseRow} (hne : other ≠ thread)
    (htransaction : system.transaction = some (other, row)) :
    (system.leave thread).transaction = some (other, row) := by
  unfold leave unlock rollback
  rw [htransaction]
  simp only [if_neg hne]
  split <;> exact htransaction

end Fields

def Locked : HiloThread → Prop
  | .examining | .reserving .allocate _ | .updated .allocate _ | .leased _ => True
  | .idle | .reserving .reserve _ | .updated .reserve _ => False

def Refilling : HiloThread → Prop
  | .reserving .allocate _ | .updated .allocate _ | .leased _ => True
  | .idle | .examining | .reserving .reserve _ | .updated .reserve _ => False

variable {state : HiloThread} {row : LeaseRow} {result : HiloSystem}

theorem Refilling.locked (h : Refilling state) : Locked state := by
  cases state with
  | idle => exact h
  | examining | leased => trivial
  | reserving call | updated call => cases call <;> exact h

/-- What holds of a thread in every reachable state. -/
structure Orderly (tableId : Nat) (system : HiloSystem) (thread : ThreadRef) : Prop where
  locked : Locked (system.threads thread) →
    (system.processes thread.1).holder = some thread.2
  refilling : Refilling (system.threads thread) → exhausted (system.processes thread.1).range
  reserving : ∀ call read, system.threads thread = .reserving call read →
    system.transaction = some (thread, system.row) ∧ read = system.row
  updated : ∀ call lease, system.threads thread = .updated call lease →
    ∃ row ownerId, system.transaction = some (thread, row) ∧
      planHiloV1Block tableId ownerId system.row = .ok lease ∧
      system.row.advance system.row lease = .ok row

variable {holder : Holder} {n : Nat} {actions : List HiloAction}

theorem Orderly.of_state (hthread : system.threads thread = state)
    (hlocked : Locked state → (system.processes thread.1).holder = some thread.2)
    (hrefilling : Refilling state → exhausted (system.processes thread.1).range)
    (hreserving : ∀ call read, state = .reserving call read →
      system.transaction = some (thread, system.row) ∧ read = system.row)
    (hupdated : ∀ call lease, state = .updated call lease →
      ∃ row ownerId, system.transaction = some (thread, row) ∧
        planHiloV1Block tableId ownerId system.row = .ok lease ∧
        system.row.advance system.row lease = .ok row) : Orderly tableId system thread := by
  subst hthread
  exact ⟨hlocked, hrefilling, hreserving, hupdated⟩

theorem Orderly.of_idle (h : system.threads thread = .idle) : Orderly tableId system thread :=
  .of_state h False.elim False.elim nofun nofun

section

variable (h : Orderly tableId system thread)
include h

theorem Orderly.planned {call : HiloCall} {lease : DurableHiloLease}
    (hthread : system.threads thread = .updated call lease)
    (htransaction : system.transaction = some (thread, row)) :
    ∃ ownerId, planHiloV1Block tableId ownerId system.row = .ok lease ∧
      system.row.advance system.row lease = .ok row := by
  obtain ⟨row', ownerId, hopen, hplan, hadvance⟩ := h.updated call lease hthread
  grind

/-- A thread that did not move stays orderly when the step kept what it relies on. -/
theorem Orderly.of_same (hthread : next.threads thread = system.threads thread)
    (hholder : (system.processes thread.1).holder = some thread.2 →
      (next.processes thread.1).holder = some thread.2)
    (hrange : Refilling (system.threads thread) →
      (next.processes thread.1).range = (system.processes thread.1).range)
    (htransaction : ∀ row, system.transaction = some (thread, row) →
      next.transaction = some (thread, row) ∧ next.row = system.row) :
    Orderly tableId next thread where
  locked hlocked := by
    rw [hthread] at hlocked
    exact hholder (h.locked hlocked)
  refilling hrefilling := by
    rw [hthread] at hrefilling
    rw [hrange hrefilling]
    exact h.refilling hrefilling
  reserving call read hread := by
    rw [hthread] at hread
    obtain ⟨hopen, hrow⟩ := h.reserving call read hread
    simp [*]
  updated call lease hlease := by
    rw [hthread] at hlease
    obtain ⟨row, ownerId, hopen, hplan, hadvance⟩ := h.updated call lease hlease
    grind

/-- The mutex: two threads of a process are not both inside `allocate`. -/
theorem Orderly.exclusive (hother : Orderly tableId system other) (hlocked : Locked (system.threads thread))
    (hrefilling : Refilling (system.threads other)) (hne : other ≠ thread) :
    other.1 ≠ thread.1 := by
  intro hprocess
  have hmine := h.locked hlocked
  have htheirs := hother.locked hrefilling.locked
  grind

end

theorem orderly_leave
    (h : ∀ other, other ≠ thread → Orderly tableId system other) (other : ThreadRef) :
    Orderly tableId (system.leave thread) other := by
  by_cases hne : other = thread
  · subst hne
    exact .of_idle (by simp)
  · refine (h other hne).of_same ?_ ?_ ?_ ?_
    · simp [*]
    · exact leave_holder system thread hne
    · simp
    · grind [leave_transaction, leave_row]

section

variable (h : ∀ thread, Orderly tableId system thread)
include h

/-- A thread with the mutex changes the range of its process. -/
theorem orderly_setRange (range : CachedRange) (hlocked : Locked (system.threads thread))
    (hne : other ≠ thread) : Orderly tableId (system.setProcess thread.1
      { system.processes thread.1 with range := some range }) other := by
  refine (h other).of_same rfl ?_ ?_ fun row hopen => ⟨hopen, rfl⟩
  · exact (processes_setProcess HiloProcess.holder (by rfl) other.1).trans
  · intro hrefilling
    have hprocess := (h thread).exclusive (h other) hlocked hrefilling hne
    simp [setProcess, update_of_ne hprocess]

theorem orderly_consume (range : CachedRange) (hthread : system.threads thread = .examining)
    (hne : other ≠ thread) : Orderly tableId (system.consume thread.1 range) other :=
  orderly_setRange h _ (by simp [hthread, Locked]) hne

theorem orderly_durable (committed : LeaseRow) (lease : DurableHiloLease)
    (htransaction : system.transaction = some (thread, row)) (hne : other ≠ thread) :
    Orderly tableId (system.durable committed lease) other := by
  refine (h other).of_same rfl id (fun _ => rfl) ?_
  grind

theorem orderly_acquire (hfree : (system.processes thread.1).holder = none) (other : ThreadRef) :
    Orderly tableId (system.acquire thread) other := by
  by_cases hne : other = thread
  · subst hne
    refine .of_state (update_self _ _ _) (fun _ => ?_) False.elim nofun nofun
    simp [acquire, setThread, setProcess]
  · refine (h other).of_same (update_of_ne hne _ _) ?_ ?_ fun row hopen => ⟨hopen, rfl⟩
    · intro hholder
      have hprocess : other.1 ≠ thread.1 := by
        intro hprocess
        rw [hprocess, hfree] at hholder
        cases hholder
      simp [*, acquire, setThread, setProcess]
    · exact fun _ => processes_setProcess HiloProcess.range (by rfl) other.1

theorem orderly_start {call : HiloCall} (hbegin : system.mayBegin call thread)
    (other : ThreadRef) : Orderly tableId ({ system with
      transaction := some (thread, system.row) }.setThread thread (.reserving call system.row))
      other := by
  obtain ⟨hnone, hallocate, -⟩ := hbegin
  by_cases hne : other = thread
  · subst hne
    refine .of_state (update_self _ _ _) (fun hlocked => ?_) (fun hrefilling => ?_) ?_ nofun
    · cases call with
      | allocate => exact (h other).locked (by simp [hallocate, Locked])
      | reserve => exact hlocked.elim
    · cases call with
      | allocate => exact (hallocate rfl).2
      | reserve => exact hrefilling.elim
    · rintro call' read ⟨⟩
      exact ⟨rfl, rfl⟩
  · refine (h other).of_same (update_of_ne hne _ _) id (fun _ => rfl) ?_
    simp [*]

theorem orderly_update {call : HiloCall} {read current : LeaseRow} {lease : DurableHiloLease}
    (hthread : system.threads thread = .reserving call read)
    (htransaction : system.transaction = some (thread, current))
    (hplan : planHiloV1Block tableId (system.processes thread.1).ownerId read = .ok lease)
    (hadvance : current.advance read lease = .ok row) (other : ThreadRef) :
    Orderly tableId ({ system with transaction := some (thread, row) }.setThread thread
      (.updated call lease)) other := by
  obtain ⟨hopen, hread⟩ := (h thread).reserving call read hthread
  cases htransaction.symm.trans hopen
  subst hread
  by_cases hne : other = thread
  · subst hne
    refine .of_state (update_self _ _ _) (fun hlocked => (h other).locked ?_)
      (fun hrefilling => (h other).refilling ?_) nofun ?_
    · rw [hthread]
      cases call <;> exact hlocked
    · rw [hthread]
      cases call <;> exact hrefilling
    · rintro call' lease' ⟨⟩
      exact ⟨row, _, rfl, hplan, hadvance⟩
  · refine (h other).of_same (update_of_ne hne _ _) id (fun _ => rfl) ?_
    grind

theorem orderly_grant {lease : DurableHiloLease}
    (hthread : system.threads thread = .updated .allocate lease)
    (htransaction : system.transaction = some (thread, row)) (other : ThreadRef) :
    Orderly tableId ((system.durable row lease).setThread thread (.leased lease)) other := by
  by_cases hne : other = thread
  · subst hne
    exact .of_state (update_self _ _ _) (fun _ => (h other).locked (by simp [hthread, Locked]))
      (fun _ => (h other).refilling (by simp [hthread, Refilling])) nofun nofun
  · exact (orderly_durable h row lease htransaction hne).of_same (update_of_ne hne _ _) id
      (fun _ => rfl) fun row hopen => ⟨hopen, rfl⟩

theorem orderly_install {lease : DurableHiloLease}
    (hthread : system.threads thread = .leased lease) (other : ThreadRef) :
    Orderly tableId (system.install thread lease) other := by
  have hlocked : Locked (system.threads thread) := by simp [hthread, Locked]
  by_cases hne : other = thread
  · subst hne
    refine .of_state (update_self _ _ _) (fun _ => ?_) False.elim nofun nofun
    simpa [install, setThread, setProcess] using (h other).locked hlocked
  · exact (orderly_setRange h _ hlocked hne).of_same (update_of_ne hne _ _) id
      (fun _ => rfl) fun row hopen => ⟨hopen, rfl⟩

theorem orderly_restart (process : Nat) (ownerId : List UInt8) (other : ThreadRef) :
    Orderly tableId (system.restart process ownerId) other := by
  by_cases hprocess : other.1 = process
  · exact .of_idle (if_pos hprocess)
  · refine (h other).of_same (if_neg hprocess) ?_ ?_ ?_
    all_goals simp [*, restart]

end

/-- Every step keeps the discipline. -/
theorem Moves.orderly (hmoves : Moves tableId system next)
    (h : ∀ thread, Orderly tableId system thread) : ∀ other, Orderly tableId next other := by
  cases hmoves with
  | lock thread hidle hfree => exact orderly_acquire h hfree
  | issue thread range hthread hrange hleft hpos hmax =>
    refine orderly_leave fun other hne => ?_
    exact (orderly_consume h range hthread hne).of_same rfl id (fun _ => rfl)
      fun row hopen => ⟨hopen, rfl⟩
  | discard thread range hthread hrange =>
    exact orderly_leave fun other hne => orderly_consume h range hthread hne
  | start call thread hbegin => exact orderly_start h hbegin
  | update call thread read current row lease hthread htransaction hplan hadvance =>
    exact orderly_update h hthread htransaction hplan hadvance
  | grant thread row lease hthread htransaction => exact orderly_grant h hthread htransaction
  | burn call thread row lease hthread htransaction =>
    exact orderly_leave fun other hne => orderly_durable h row lease htransaction hne
  | install thread lease hthread => exact orderly_install h hthread
  | leave thread hthread => exact orderly_leave fun other _ => h other
  | crash process ownerId => exact orderly_restart h process ownerId

/-- The block starts at the head, ends before the new head and carries the next fence. -/
theorem plan_advance {ownerId : List UInt8} {after : LeaseRow} {lease : DurableHiloLease}
    (hnext : 1 ≤ row.nextSequence) (hplan : planHiloV1Block tableId ownerId row = .ok lease)
    (hadvance : row.advance row lease = .ok after) :
    0 ≤ row.fenceToken ∧ (lease.fence : Int) = row.fenceToken + 1 ∧
      (lease.firstSequence : Int) = row.nextSequence ∧
      lease.firstSequence ≤ lease.lastSequence ∧ lease.lastSequence ≤ maxHiloV1Sequence ∧
      after.nextSequence = lease.lastSequence + 1 ∧ after.fenceToken = lease.fence := by
  have hmax : maxHiloV1Sequence = 2 ^ 61 - 1 := rfl
  have hblock : hiloV1BlockSize = 4096 := rfl
  unfold LeaseRow.advance at hadvance
  rw [if_pos ⟨rfl, rfl⟩] at hadvance
  cases hadvance
  simp only [planHiloV1Block, Result.ite_throw_eq_ok] at hplan
  obtain ⟨-, -, hfirst, hfence, -, hlease⟩ := hplan
  cases hlease
  simp only [hblock, hmax] at hfirst ⊢
  refine ⟨?_, ?_, ?_, ?_, ?_, trivial, trivial⟩
  all_goals omega

inductive Holder
  | process (process : Nat)
  | thread (thread : ThreadRef)

/-- A process holds the rest of its range, a thread the lease it has not installed. -/
def Holds (system : HiloSystem) : Holder → Nat → Prop
  | .process process, n =>
    ∃ range, (system.processes process).range = some range ∧
      range.nextSequence ≤ n ∧ n ≤ range.lastSequence
  | .thread thread, n =>
    ∃ lease, system.threads thread = .leased lease ∧
      lease.firstSequence ≤ n ∧ n ≤ lease.lastSequence

def ledger (system : HiloSystem) : Ledger Holder where
  head := system.row.nextSequence.toNat
  held := system.Holds
  issued := system.issued.map fun allocation => sequenceOf allocation.id

/-- What holds in every reachable state. -/
structure Invariant (tableId : Nat) (system : HiloSystem) : Prop where
  next_pos : 1 ≤ system.row.nextSequence
  next_le : system.row.nextSequence ≤ maxHiloV1Sequence + 1
  fence_nonneg : 0 ≤ system.row.fenceToken
  orderly : ∀ thread, Orderly tableId system thread
  sound : system.ledger.Sound
  encoded : ∀ allocation ∈ system.issued, ∃ sequence, 1 ≤ sequence ∧
    sequence ≤ maxHiloV1Sequence ∧ allocation.id = HiloV1Id.encode ⟨sequence⟩
  fences : (system.reservations.map (·.fence)).Pairwise (· < ·)
  fences_le : ∀ lease ∈ system.reservations, (lease.fence : Int) ≤ system.row.fenceToken

theorem Fresh.invariant (h : system.Fresh) : Invariant tableId system where
  next_pos := h.next_pos
  next_le := h.next_le
  fence_nonneg := h.fence_nonneg
  orderly thread := .of_idle (h.idle thread)
  sound := by
    have hholds : ∀ holder n, ¬ system.Holds holder n := by
      rintro (process | thread) n ⟨source, hsource, -⟩
      · rw [h.range_none process] at hsource
        cases hsource
      · rw [h.idle thread] at hsource
        cases hsource
    have hissued : system.ledger.issued = [] := by simp only [ledger, h.issued_nil, map_nil]
    constructor
    · exact fun holder n hn => absurd hn (hholds holder n)
    · exact fun holder n hn => absurd hn (hholds holder n)
    · exact fun holder other n hn => absurd hn (hholds holder n)
    · rw [hissued]
      nofun
    · simp [*]
  encoded := by
    rw [h.issued_nil]
    nofun
  fences := by
    rw [h.reservations_nil]
    exact List.Pairwise.nil
  fences_le := by
    rw [h.reservations_nil]
    nofun

theorem Holds.of_leave (h : (system.leave thread).Holds holder n) : system.Holds holder n := by
  cases holder with
  | process process =>
    obtain ⟨range, hrange, hbounds⟩ := h
    rw [leave_range] at hrange
    exact ⟨range, hrange, hbounds⟩
  | thread other =>
    obtain ⟨lease, hlease, hbounds⟩ := h
    rw [leave_threads] at hlease
    by_cases hne : other = thread
    · grind
    · rw [update_of_ne hne] at hlease
      exact ⟨lease, hlease, hbounds⟩

theorem Holds.of_consume {process : Nat} {range : CachedRange}
    (hrange : (system.processes process).range = some range)
    (h : (system.consume process range).Holds holder n) :
    system.Holds holder n ∧ (holder = .process process → n ≠ range.nextSequence) := by
  cases holder with
  | process other =>
    obtain ⟨range', hrange', hlow, hhigh⟩ := h
    unfold consume setProcess at hrange'
    by_cases hother : other = process
    · subst hother
      simp only [update_self, Option.some.injEq] at hrange'
      subst hrange'
      simp only at hlow hhigh
      exact ⟨⟨range, hrange, by omega, hhigh⟩, fun _ => by omega⟩
    · simp only [update_of_ne hother] at hrange'
      refine ⟨⟨range', hrange', hlow, hhigh⟩, ?_⟩
      exact fun hsame => absurd (Holder.process.inj hsame) hother
  | thread other => exact ⟨h, nofun⟩

theorem Holds.of_setThread (hstate : ∀ lease, state ≠ .leased lease)
    (h : (system.setThread thread state).Holds holder n) :
    system.Holds holder n ∧ holder ≠ .thread thread := by
  cases holder with
  | process process => exact ⟨h, nofun⟩
  | thread other =>
    obtain ⟨lease, hlease, hbounds⟩ := h
    by_cases hne : other = thread
    · subst hne
      simp only [setThread, update_self] at hlease
      exact absurd hlease (hstate lease)
    · simp only [setThread, update_of_ne hne] at hlease
      exact ⟨⟨lease, hlease, hbounds⟩, fun hsame => hne (Holder.thread.inj hsame)⟩

theorem ledger_acquire : Ledger.Step system.ledger (system.acquire thread).ledger := by
  refine .forget le_rfl rfl fun holder n hn => ?_
  obtain ⟨hn, -⟩ := Holds.of_setThread (by nofun) hn
  cases holder with
  | process process =>
    obtain ⟨range, hrange, hbounds⟩ := hn
    exact ⟨range, (processes_setProcess HiloProcess.range (by rfl) process).symm.trans hrange,
      hbounds⟩
  | thread other => exact hn

theorem ledger_grant (h : Invariant tableId system) {lease : DurableHiloLease}
    (hthread : system.threads thread = .updated .allocate lease)
    (htransaction : system.transaction = some (thread, row)) :
    Ledger.Step system.ledger
      ((system.durable row lease).setThread thread (.leased lease)).ledger := by
  obtain ⟨ownerId, hplan, hadvance⟩ := (h.orderly thread).planned hthread htransaction
  obtain ⟨-, -, hfirst, hle, -, hnext, -⟩ := plan_advance h.next_pos hplan hadvance
  have hpos := h.next_pos
  have hhead : system.ledger.head = lease.firstSequence := by
    simp only [ledger]
    omega
  have hafter : ((system.durable row lease).setThread thread (.leased lease)).ledger.head =
      lease.lastSequence + 1 := by
    simp only [ledger, setThread, durable]
    omega
  refine .grant (.thread thread) (by omega) (by omega) rfl fun other n hn => ?_
  rw [hhead, hafter]
  cases other with
  | process process => exact .inl hn
  | thread other =>
    obtain ⟨lease', hlease, hlow, hhigh⟩ := hn
    by_cases hne : other = thread
    · subst hne
      simp only [setThread, update_self, HiloThread.leased.injEq] at hlease
      simp [*]
    · simp only [setThread, update_of_ne hne] at hlease
      exact .inl ⟨lease', hlease, hlow, hhigh⟩

theorem ledger_install {lease : DurableHiloLease}
    (hthread : system.threads thread = .leased lease) :
    Ledger.Step system.ledger (system.install thread lease).ledger := by
  refine .handOver (.thread thread) (.process thread.1) rfl rfl fun holder n hn => ?_
  obtain ⟨hn, hsource⟩ := Holds.of_setThread (by nofun) hn
  cases holder with
  | process process =>
    obtain ⟨range, hrange, hlow, hhigh⟩ := hn
    by_cases hprocess : process = thread.1
    · subst hprocess
      simp only [setProcess, update_self, Option.some.injEq] at hrange
      subst hrange
      exact .inl ⟨rfl, lease, hthread, hlow, hhigh⟩
    · simp only [setProcess, update_of_ne hprocess] at hrange
      refine .inr ⟨hsource, ?_, range, hrange, hlow, hhigh⟩
      exact fun hsame => hprocess (Holder.process.inj hsame)
  | thread other => exact .inr ⟨hsource, nofun, hn⟩

theorem ledger_restart (process : Nat) (ownerId : List UInt8) :
    Ledger.Step system.ledger (system.restart process ownerId).ledger := by
  refine .forget le_rfl rfl fun holder n hn => ?_
  cases holder with
  | process other =>
    obtain ⟨range, hrange, hbounds⟩ := hn
    by_cases hother : other = process
    · simp [restart, hother] at hrange
    · exact ⟨range, by simpa [restart, hother] using hrange, hbounds⟩
  | thread other =>
    obtain ⟨lease, hlease, hbounds⟩ := hn
    by_cases hother : other.1 = process
    · simp [restart, hother] at hlease
    · exact ⟨lease, by simpa [restart, hother] using hlease, hbounds⟩

section

variable (hmoves : Moves tableId system next)
include hmoves

/-- Every step is a move of the ledger. -/
theorem Moves.ledger_step (h : Invariant tableId system) :
    Ledger.Step system.ledger next.ledger := by
  cases hmoves with
  | lock => exact ledger_acquire
  | issue thread range hthread hrange hleft hpos hmax =>
    have hheld : system.ledger.held (.process thread.1) range.nextSequence :=
      ⟨range, hrange, le_rfl, hleft⟩
    refine .issue (.process thread.1) range.nextSequence hheld ?_ ?_ fun other n hn => ?_
    · exact congrArg (·.nextSequence.toNat) (leave_row _ _)
    · simp [ledger, leave_issued, sequenceOf_encode hmax]
    · have htaken := Holds.of_leave hn
      exact Holds.of_consume hrange htaken
  | discard thread range hthread hrange =>
    refine .forget ?_ (congrArg (map _) (leave_issued _ _)) fun holder n hn =>
      (Holds.of_consume hrange (Holds.of_leave hn)).1
    exact (congrArg (·.nextSequence.toNat) (leave_row (system.consume thread.1 range) thread)).ge
  | start | update =>
    exact .forget le_rfl rfl fun holder n hn => (Holds.of_setThread (by nofun) hn).1
  | grant thread row lease hthread htransaction => exact ledger_grant h hthread htransaction
  | burn call thread row lease hthread htransaction =>
    obtain ⟨ownerId, hplan, hadvance⟩ := (h.orderly thread).planned hthread htransaction
    obtain ⟨-, -, hfirst, hle, -, hnext, -⟩ := plan_advance h.next_pos hplan hadvance
    refine .forget ?_ (congrArg (map _) (leave_issued _ _)) fun holder n hn => ?_
    · simp only [ledger, leave_row, durable]
      omega
    · have hkept := Holds.of_leave hn
      exact hkept
  | install thread lease hthread => exact ledger_install hthread
  | leave thread hthread =>
    refine .forget ?_ (congrArg (map _) (leave_issued _ _)) fun holder n hn => .of_leave hn
    exact (congrArg (·.nextSequence.toNat) (leave_row system thread)).ge
  | crash process ownerId => exact ledger_restart process ownerId

theorem Moves.durable_cases (h : ∀ thread, Orderly tableId system thread) :
    next.row = system.row ∧ next.reservations = system.reservations ∨
      ∃ ownerId lease, planHiloV1Block tableId ownerId system.row = .ok lease ∧
        system.row.advance system.row lease = .ok next.row ∧
        next.reservations = system.reservations ++ [lease] := by
  cases hmoves with
  | lock | start | update | install | crash => exact .inl ⟨rfl, rfl⟩
  | issue | discard | leave => exact .inl ⟨leave_row _ _, leave_reservations _ _⟩
  | grant thread row lease hthread htransaction =>
    obtain ⟨ownerId, hplan, hadvance⟩ := (h thread).planned hthread htransaction
    exact .inr ⟨ownerId, lease, hplan, hadvance, rfl⟩
  | burn call thread row lease hthread htransaction =>
    obtain ⟨ownerId, hplan, hadvance⟩ := (h thread).planned hthread htransaction
    refine .inr ⟨ownerId, lease, hplan, ?_, leave_reservations _ _⟩
    rw [leave_row]
    exact hadvance

theorem Moves.issued_cases :
    next.issued = system.issued ∨
      ∃ process sequence allocation, system.Holds (.process process) sequence ∧
        1 ≤ sequence ∧ sequence ≤ maxHiloV1Sequence ∧
        allocation.id = HiloV1Id.encode ⟨sequence⟩ ∧
        next.issued = system.issued ++ [allocation] := by
  cases hmoves with
  | lock | start | update | grant | install | crash => exact .inl rfl
  | issue thread range hthread hrange hleft hpos hmax =>
    exact .inr ⟨thread.1, range.nextSequence, _, ⟨range, hrange, le_rfl, hleft⟩, hpos, hmax, rfl,
      leave_issued _ _⟩
  | discard | burn | leave => exact .inl (leave_issued _ _)

end

theorem Invariant.encoded_of_issued (h : Invariant tableId system)
    (hmoves : Moves tableId system next) : ∀ allocation ∈ next.issued, ∃ sequence,
      1 ≤ sequence ∧ sequence ≤ maxHiloV1Sequence ∧
        allocation.id = HiloV1Id.encode ⟨sequence⟩ := by
  intro allocation hallocation
  rcases hmoves.issued_cases with hsame | ⟨process, sequence, added, -, hpos, hmax, hid, hnext⟩
  · exact h.encoded allocation (hsame ▸ hallocation)
  · rw [hnext, mem_append, mem_singleton] at hallocation
    rcases hallocation with hold | rfl
    · exact h.encoded allocation hold
    · exact ⟨sequence, hpos, hmax, hid⟩

/-- Every step keeps the invariant. -/
theorem Moves.invariant (hmoves : Moves tableId system next) (h : Invariant tableId system) :
    Invariant tableId next := by
  have horderly := hmoves.orderly h.orderly
  have hsound := (hmoves.ledger_step h).sound h.sound
  have hencoded := h.encoded_of_issued hmoves
  rcases hmoves.durable_cases h.orderly with
    ⟨hrow, hreservations⟩ | ⟨ownerId, lease, hplan, hadvance, hreservations⟩
  · refine ⟨?_, ?_, ?_, horderly, hsound, hencoded, ?_, ?_⟩
    · exact hrow ▸ h.next_pos
    · exact hrow ▸ h.next_le
    · exact hrow ▸ h.fence_nonneg
    · exact hreservations ▸ h.fences
    · rw [hreservations, hrow]
      exact h.fences_le
  · obtain ⟨hfence, hlease, hfirst, hle, hmax, hnext, htoken⟩ :=
      plan_advance h.next_pos hplan hadvance
    have hpos := h.next_pos
    -- the new lease carries the fence after every earlier one
    have hbelow : ∀ old ∈ system.reservations, old.fence < lease.fence := by
      intro old hold
      have hold := h.fences_le old hold
      omega
    refine ⟨by omega, by omega, by omega, horderly, hsound, hencoded, ?_, ?_⟩
    · rw [hreservations, map_append, pairwise_append]
      refine ⟨h.fences, pairwise_singleton _ _, ?_⟩
      grind
    · grind

theorem invariant_run (h : Invariant tableId system)
    (hrun : run (step tableId) system actions = some result) : Invariant tableId result :=
  run_preserves (fun _ _ _ hinv hstep => (moves_of_step hstep).invariant hinv) h hrun

def Exhausted (row : LeaseRow) : Prop := row.nextSequence > maxHiloV1Sequence

/-- A reservation on an exhausted head fails. -/
theorem planHiloV1Block_exhausted (ownerId : List UInt8) (h : Exhausted row) :
    planHiloV1Block tableId ownerId row =
      if row.blockSize ≠ hiloV1BlockSize then
        .error (.new .dataCorruption "hilo_v1 allocation head has an unsupported block size")
      else
        .error (.new .limitExceeded
          ("hilo_v1 table " ++ toString tableId ++ " exhausted its global sequence")) := by
  unfold Exhausted at h
  have hnonneg : ¬ row.nextSequence < 0 := by omega
  have hlimit : row.nextSequence.toNat > maxHiloV1Sequence := by omega
  by_cases hsize : row.blockSize ≠ hiloV1BlockSize
  · rw [if_pos hsize]
    simp only [planHiloV1Block, if_pos hsize]
    rfl
  · rw [if_neg hsize]
    simp only [planHiloV1Block, if_neg hsize, if_neg hnonneg, if_pos hlimit]
    rfl

theorem Moves.exhausted (hmoves : Moves tableId system next) (h : Invariant tableId system)
    (hexhausted : Exhausted system.row) :
    next.row = system.row ∧ next.reservations = system.reservations := by
  rcases hmoves.durable_cases h.orderly with hsame | ⟨ownerId, lease, hplan, -, -⟩
  · exact hsame
  · grind [planHiloV1Block_exhausted]

section

variable (h : Invariant tableId system)
include h

section

variable (hexhausted : Exhausted system.row)
include hexhausted

theorem step_update_exhausted {call : HiloCall} {read : LeaseRow}
    (hthread : system.threads thread = .reserving call read) :
    step tableId system (.update thread) = some (system.leave thread) := by
  obtain ⟨hopen, rfl⟩ := (h.orderly thread).reserving call read hthread
  simp only [step, hthread, hopen, if_true, planHiloV1Block_exhausted _ hexhausted]
  by_cases hsize : system.row.blockSize ≠ hiloV1BlockSize
  · rw [if_pos hsize]
  · rw [if_neg hsize]

theorem exhausted_run (hrun : run (step tableId) system actions = some result) :
    result.row = system.row ∧ result.reservations = system.reservations := by
  have hkept := run_preserves
    (P := fun state => Invariant tableId state ∧ state.row = system.row ∧
      state.reservations = system.reservations) ?_ ⟨h, rfl, rfl⟩ hrun
  · exact hkept.2
  · rintro state action next ⟨hinv, hrow, hreservations⟩ hstep
    have hmoves := moves_of_step hstep
    obtain ⟨hrow', hreservations'⟩ := hmoves.exhausted hinv (hrow ▸ hexhausted)
    exact ⟨hmoves.invariant hinv, hrow'.trans hrow, hreservations'.trans hreservations⟩

/-- Once the leased blocks are used up, no call returns an ID again. -/
theorem drained_run (hdrained : ∀ holder n, ¬ system.Holds holder n)
    (hrun : run (step tableId) system actions = some result) : result.issued = system.issued := by
  have hkept := run_preserves
    (P := fun state => Invariant tableId state ∧ Exhausted state.row ∧
      state.issued = system.issued ∧ ∀ holder n, ¬ state.Holds holder n)
    ?_ ⟨h, hexhausted, rfl, hdrained⟩ hrun
  · exact hkept.2.2.1
  · rintro state action next ⟨hinv, hstate, hissued, hnone⟩ hstep
    have hmoves := moves_of_step hstep
    obtain ⟨hrow, -⟩ := hmoves.exhausted hinv hstate
    have hhead : next.ledger.head = state.ledger.head := by simp [ledger, hrow]
    have hnext := (hmoves.ledger_step hinv).drained hhead hnone
    refine ⟨hmoves.invariant hinv, hrow ▸ hstate, ?_, hnext⟩
    rcases hmoves.issued_cases with hsame | ⟨process, sequence, _, hheld, -⟩
    · exact hsame.trans hissued
    · exact absurd hheld (hnone (.process process) sequence)

end

theorem Invariant.nodup_ids : (system.issued.map (·.id)).Nodup := by
  have hsequences : ((system.issued.map (·.id)).map sequenceOf).Nodup := by
    rw [map_map]
    exact h.sound.issued_nodup
  exact List.Nodup.of_map sequenceOf hsequences

end

theorem hilo_ids_never_reissued {tableId : Nat} {start result : HiloSystem}
    {actions : List HiloAction} (hfresh : start.Fresh)
    (hrun : run (step tableId) start actions = some result) :
    (result.issued.map (·.id)).Nodup ∧
      (∀ allocation ∈ result.issued,
        hiloV1FirstId ≤ allocation.id ∧ allocation.id ≤ hiloV1SequenceCeiling ∧
          ∀ column, ∃ id, classifyGeneratedId (.hiloV1 column) allocation.id =
            .ok (.hiloV1 id)) ∧
      (result.reservations.map (·.fence)).Pairwise (· < ·) ∧
      (Exhausted result.row →
        (∀ ownerId, ∃ error, planHiloV1Block tableId ownerId result.row = .error error ∧
          (result.row.blockSize = hiloV1BlockSize → error.kind = .limitExceeded)) ∧
        (∀ thread call read, result.threads thread = .reserving call read →
          step tableId result (.update thread) = some (result.leave thread)) ∧
        ∀ later final, run (step tableId) result later = some final →
          final.row = result.row ∧ final.reservations = result.reservations ∧
            ((∀ holder n, ¬ result.Holds holder n) → final.issued = result.issued)) := by
  have h := invariant_run hfresh.invariant hrun
  refine ⟨h.nodup_ids, ?_, h.fences, ?_⟩
  · intro allocation hallocation
    obtain ⟨sequence, hpos, hmax, hid⟩ := h.encoded allocation hallocation
    rw [hid]
    refine ⟨(classify_encode "" hpos hmax).1, (classify_encode "" hpos hmax).2.1, ?_⟩
    exact fun column => ⟨_, (classify_encode column hpos hmax).2.2⟩
  · intro hexhausted
    refine ⟨?_, ?_, ?_⟩
    · intro ownerId
      rw [planHiloV1Block_exhausted ownerId hexhausted]
      split
      next hsize => exact ⟨_, rfl, fun hsame => absurd hsame hsize⟩
      next => exact ⟨_, rfl, fun _ => rfl⟩
    · exact fun thread call read hthread => step_update_exhausted h hexhausted hthread
    · grind [exhausted_run, drained_run]

/-- A table with one sequence left. -/
def lastSequenceTable : HiloSystem where
  row := ⟨4096, maxHiloV1Sequence, 0, none, none, none⟩
  transaction := none
  processes _ := ⟨[1], none, none⟩
  threads _ := .idle
  issued := []
  reservations := []

theorem lastSequenceTable_fresh : lastSequenceTable.Fresh where
  next_pos := by decide
  next_le := by decide
  fence_nonneg := by decide
  transaction_none := rfl
  range_none _ := rfl
  holder_none _ := rfl
  idle _ := rfl
  issued_nil := rfl
  reservations_nil := rfl

/-- One thread takes the last sequence while the other waits for the mutex; its own
refill then finds the head exhausted. -/
def lastSequenceActions : List HiloAction :=
  [.lock (0, 0), .begin .allocate (0, 0), .update (0, 0), .commit (0, 0) .committed,
    .install (0, 0), .issue (0, 0), .lock (0, 1), .begin .allocate (0, 1)]

theorem hilo_ids_last_sequence :
    ∃ result, run (step 7) lastSequenceTable lastSequenceActions = some result ∧
      result.issued.map (·.id) = [hiloV1SequenceCeiling] ∧ Exhausted result.row ∧
      (result.issued.map (·.id)).Nodup ∧
      step 7 result (.update (0, 1)) = some (result.leave (0, 1)) := by
  have hrun : ∃ result, run (step 7) lastSequenceTable lastSequenceActions =
      some result ∧ result.issued.map (·.id) = [hiloV1SequenceCeiling] ∧
      result.row.nextSequence = maxHiloV1Sequence + 1 ∧
      ∃ read, result.threads (0, 1) = .reserving .allocate read :=
    ⟨_, rfl, by decide +kernel, by decide +kernel, _, rfl⟩
  obtain ⟨result, hrun, hissued, hnext, read, hthread⟩ := hrun
  have hexhausted : Exhausted result.row := by
    rw [Exhausted, hnext]
    omega
  obtain ⟨hnodup, -, -, hlimit⟩ := hilo_ids_never_reissued lastSequenceTable_fresh hrun
  exact ⟨result, hrun, hissued, hexhausted, hnodup, (hlimit hexhausted).2.1 _ _ _ hthread⟩

end HiloSystem

end BriskDB.Storage
