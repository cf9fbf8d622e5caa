import BriskDB.Core.Error
import BriskDB.Lib.Fanout
import BriskDB.Lib.Selection

/-! # The external sort of positions

When a sort outgrows its window the remaining positions are written to scratch runs. Each
run is sorted, runs are merged in pairs while their frontiers would take too much room, and
a reader merges what is left through a queue with the next position of every run. A run is
the list of the positions written to its file: the frame that is read back is checked
against what was written.
-/

namespace BriskDB.Engine

open Selection Result List

structure SpoolPosition where
  key : List UInt8
  naturalOrder : Nat
  shard : Nat
  deriving DecidableEq

namespace SpoolPosition

def cmp : SpoolPosition → SpoolPosition → Ordering :=
  compareLex (compareOn key) (compareLex (compareOn naturalOrder) (compareOn shard))

instance : Std.TransCmp cmp :=
  inferInstanceAs (Std.TransCmp
    (compareLex (compareOn key) (compareLex (compareOn naturalOrder) (compareOn shard))))

end SpoolPosition

namespace Spool

def maxKeyBytes : Nat := 16 * 1024 * 1024

def chunkBytes : Nat := 16 * 1024 * 1024

def chunkKeys : Nat := 65536

def maxRuns : Nat := 512

def frontierRuns : Nat := 64

def limit : EngineError := .new .limitExceeded "document sort scratch limit exceeded"

def damaged : EngineError :=
  .new .storageUnavailable "document sort scratch is incomplete or damaged"

end Spool

structure Run where
  positions : List SpoolPosition
  maxKeyBytes : Nat

namespace Run

def empty : Run := ⟨[], 0⟩

def push (run : Run) (position : SpoolPosition) : EngineResult Run :=
  if position.key.length < 9 ∨ position.key.length > Spool.maxKeyBytes ∨
      position.naturalOrder = 0 ∨ position.shard ≥ 64 then
    .error Spool.damaged
  else .ok ⟨run.positions ++ [position], max run.maxKeyBytes position.key.length⟩

def write (positions : List SpoolPosition) : EngineResult Run := positions.foldlM push empty

def merge (left right : Run) : EngineResult Run :=
  write (left.positions.merge right.positions fun a b => decide (Below SpoolPosition.cmp a b))

end Run

def mergePairs : List Run → EngineResult (List Run)
  | left :: right :: runs => do
    let merged ← left.merge right
    let next ← mergePairs runs
    return merged :: next
  | runs => return runs

structure SpoolBuilder where
  keys : List SpoolPosition
  keyBytes : Nat
  runs : List Run
  chunkBytes : Nat
  chunkKeys : Nat
  frontierBytes : Nat
  frontierRuns : Nat

/-- A source of sorted positions: what is unread of every run, and each run's next position. -/
structure SortSpool where
  runs : List (List SpoolPosition)
  frontiers : List (SpoolPosition × Nat)
  initialized : Bool
  pending : List SpoolPosition

namespace SpoolBuilder

def new : SpoolBuilder where
  keys := []
  keyBytes := 0
  runs := []
  chunkBytes := Spool.chunkBytes
  chunkKeys := Spool.chunkKeys
  frontierBytes := Spool.chunkBytes
  frontierRuns := Spool.frontierRuns

def spill (builder : SpoolBuilder) : EngineResult SpoolBuilder :=
  if builder.keys = [] then return builder
  else if builder.runs.length = Spool.maxRuns then throw Spool.limit
  else do
    let run ← Run.write builder.keys
    return { builder with keys := [], keyBytes := 0, runs := builder.runs ++ [run] }

def push (retainedBytes : SpoolPosition → Nat) (builder : SpoolBuilder)
    (position : SpoolPosition) : EngineResult SpoolBuilder := do
  let bytes := retainedBytes position
  if bytes > builder.chunkBytes then throw Spool.limit
  let builder ← (if builder.keys.length = builder.chunkKeys ∨
      builder.keyBytes + bytes > builder.chunkBytes then builder.spill else return builder)
  return { builder with
    keys := builder.keys.orderedInsert (Below SpoolPosition.cmp) position
    keyBytes := builder.keyBytes + bytes }

def crowded (builder : SpoolBuilder) (runs : List Run) : Bool :=
  runs.length > 1 && (runs.length > builder.frontierRuns ||
    (runs.map fun run => run.maxKeyBytes + 128).sum > builder.frontierBytes)

end SpoolBuilder

variable {runs : List Run} {positions : List SpoolPosition} {run : Run} {builder : SpoolBuilder}

theorem mergePairs_length_le {next : List Run} (h : mergePairs runs = .ok next) :
    next.length ≤ runs.length := by
  induction runs using mergePairs.induct generalizing next with
  | case1 left right runs ih =>
    obtain ⟨merged, _, h⟩ := bind_eq_ok.mp h
    obtain ⟨rest, hrest, h⟩ := bind_eq_ok.mp h
    cases h
    grind
  | case2 runs hfew =>
    rw [mergePairs] at h
    · cases h
      exact le_rfl
    · exact hfew

theorem mergePairs_length_lt {next : List Run} (h : mergePairs runs = .ok next)
    (hmany : 1 < runs.length) : next.length < runs.length := by
  match runs with
  | left :: right :: runs =>
    obtain ⟨merged, _, h⟩ := bind_eq_ok.mp h
    obtain ⟨rest, hrest, h⟩ := bind_eq_ok.mp h
    cases h
    simp [*, mergePairs_length_le]

namespace SpoolBuilder

/-- Passes over all runs until their frontiers fit. -/
def mergePasses (builder : SpoolBuilder) (runs : List Run) : EngineResult (List Run) :=
  if _hcrowded : builder.crowded runs = true then
    match _hnext : mergePairs runs with
    | .error error => .error error
    | .ok next => mergePasses builder next
  else .ok runs
termination_by runs.length
decreasing_by
  unfold crowded at _hcrowded
  simp only [Bool.and_eq_true, decide_eq_true_eq] at _hcrowded
  exact mergePairs_length_lt _hnext _hcrowded.1

def finish (builder : SpoolBuilder) : EngineResult SortSpool := do
  let builder ← builder.spill
  let runs ← builder.mergePasses builder.runs
  return ⟨runs.map (·.positions), [], false, []⟩

end SpoolBuilder

namespace SortSpool

def frontierCmp : SpoolPosition × Nat → SpoolPosition × Nat → Ordering :=
  compareLex (fun left right => SpoolPosition.cmp left.1 right.1) (compareOn Prod.snd)

def next (spool : SortSpool) (run : Nat) : SortSpool :=
  match spool.runs[run]? with
  | some (position :: rest) =>
    { spool with
      runs := spool.runs.set run rest
      frontiers := spool.frontiers.orderedInsert (Below frontierCmp) (position, run) }
  | _ => spool

/-- Move at most `count` positions from the queue to the pending ones, while they are small. -/
def fill (retainedBytes : SpoolPosition → Nat) : Nat → Nat → SortSpool → SortSpool
  | 0, _, spool => spool
  | count + 1, bytes, spool =>
    if bytes < 1024 * 1024 then
      match spool.frontiers with
      | [] => spool
      | (position, run) :: frontiers =>
        fill retainedBytes count (bytes + retainedBytes position)
          ({ spool with frontiers, pending := spool.pending ++ [position] }.next run)
    else spool

def start (spool : SortSpool) : SortSpool :=
  if spool.initialized then spool
  else { (List.range spool.runs.length).foldl next spool with initialized := true }

def advance (retainedBytes : SpoolPosition → Nat) (spool : SortSpool) : SortSpool :=
  let spool := spool.start
  if spool.pending = [] then fill retainedBytes 256 0 spool else spool

end SortSpool

namespace SpoolPosition

theorem eq_of_below {a b : SpoolPosition} (hab : Below cmp a b) (hba : Below cmp b a) : a = b := by
  have heq : cmp a b = .eq := Std.OrientedCmp.isLE_antisymm hab hba
  simp only [cmp, compareLex_eq_eq, compareOn, Std.LawfulEqOrd.compare_eq_iff_eq] at heq
  obtain ⟨hkey, hnatural, hshard⟩ := heq
  cases a
  cases b
  simp_all

end SpoolPosition

variable (positions)

def sorted : List SpoolPosition :=
  positions.mergeSort fun a b => decide (Below SpoolPosition.cmp a b)

theorem sorted_perm : (sorted positions).Perm positions :=
  mergeSort_perm positions _

theorem pairwise_sorted : (sorted positions).Pairwise (Below SpoolPosition.cmp) :=
  pairwise_mergeSort' (Below SpoolPosition.cmp) positions

variable {positions}

theorem eq_sorted {ascending : List SpoolPosition}
    (h : ascending.Pairwise (Below SpoolPosition.cmp)) (hperm : ascending.Perm positions) :
    ascending = sorted positions :=
  List.Perm.eq_of_pairwise (fun _ _ _ _ hab hba => SpoolPosition.eq_of_below hab hba) h
    (pairwise_sorted positions) (hperm.trans (sorted_perm positions).symm)

def Run.Ascending (run : Run) : Prop := run.positions.Pairwise (Below SpoolPosition.cmp)

theorem Run.push_positions {next : Run} {position : SpoolPosition}
    (h : run.push position = .ok next) : next.positions = run.positions ++ [position] := by
  unfold push at h
  grind

theorem Run.write_positions (h : write positions = .ok run) : run.positions = positions := by
  have hfold : ∀ (positions : List SpoolPosition) (first : Run),
      positions.foldlM push first = .ok run → run.positions = first.positions ++ positions := by
    intro positions
    induction positions with
    | nil =>
      simp
    | cons position positions ih =>
      intro first h
      rw [foldlM_cons] at h
      obtain ⟨next, hnext, h⟩ := bind_eq_ok.mp h
      rw [ih next h, push_positions hnext, append_assoc, singleton_append]
  exact hfold positions empty h

theorem Run.merge_spec {left right merged : Run} (h : left.merge right = .ok merged)
    (hleft : left.Ascending) (hright : right.Ascending) :
    merged.Ascending ∧ merged.positions.Perm (left.positions ++ right.positions) := by
  have hpositions := write_positions h
  grind [Ascending, List.Pairwise.merge, merge_perm_append]

def allPositions (runs : List Run) : List SpoolPosition := runs.flatMap (·.positions)

/-- Runs that hold the same positions, each of them sorted. -/
def Regrouped (runs next : List Run) : Prop :=
  (∀ run ∈ next, run.Ascending) ∧ (allPositions next).Perm (allPositions runs)

theorem mergePairs_spec {next : List Run} (h : mergePairs runs = .ok next)
    (hsorted : ∀ run ∈ runs, run.Ascending) : Regrouped runs next := by
  induction runs using mergePairs.induct generalizing next with
  | case1 left right runs ih =>
    obtain ⟨merged, hmerged, h⟩ := bind_eq_ok.mp h
    obtain ⟨rest, hrest, h⟩ := bind_eq_ok.mp h
    cases h
    simp only [forall_mem_cons] at hsorted
    obtain ⟨hascending, hperm⟩ := left.merge_spec hmerged hsorted.1 hsorted.2.1
    obtain ⟨hall, hothers⟩ := ih hrest hsorted.2.2
    refine ⟨forall_mem_cons.mpr ⟨hascending, hall⟩, ?_⟩
    grind [allPositions]
  | case2 runs hfew =>
    rw [mergePairs] at h
    · cases h
      exact ⟨hsorted, .refl _⟩
    · exact hfew

theorem SpoolBuilder.mergePasses_spec {next : List Run}
    (h : builder.mergePasses runs = .ok next) (hsorted : ∀ run ∈ runs, run.Ascending) :
    Regrouped runs next := by
  induction hlength : runs.length using Nat.strong_induction_on generalizing runs with
  | _ length ih =>
    unfold mergePasses at h
    split at h
    next hcrowded =>
      split at h
      next => cases h
      next middle hmiddle =>
        obtain ⟨hall, hperm⟩ := mergePairs_spec hmiddle hsorted
        have hlt : middle.length < length := by
          rw [← hlength]
          refine mergePairs_length_lt hmiddle ?_
          simp only [crowded, Bool.and_eq_true, decide_eq_true_eq] at hcrowded
          exact hcrowded.1
        obtain ⟨hnext, hrest⟩ := ih middle.length hlt h hall rfl
        exact ⟨hnext, hrest.trans hperm⟩
    next =>
      cases h
      exact ⟨hsorted, .refl _⟩

/-- The builder holds exactly these positions. -/
structure SpoolBuilder.Collects (builder : SpoolBuilder) (positions : List SpoolPosition) :
    Prop where
  keys : builder.keys.Pairwise (Below SpoolPosition.cmp)
  runs : ∀ run ∈ builder.runs, run.Ascending
  perm : (builder.keys ++ allPositions builder.runs).Perm positions

namespace SpoolBuilder

variable {builder next : SpoolBuilder} {positions : List SpoolPosition}

theorem collects_new : new.Collects [] where
  keys := .nil
  runs _ h := by cases h
  perm := .refl _

theorem Collects.spill (h : builder.Collects positions) (hspill : builder.spill = .ok next) :
    next.Collects positions ∧ next.keys = [] := by
  unfold SpoolBuilder.spill at hspill
  split at hspill
  next hempty =>
    cases hspill
    exact ⟨h, hempty⟩
  next =>
    split at hspill
    next => cases hspill
    next =>
      obtain ⟨run, hrun, hspill⟩ := bind_eq_ok.mp hspill
      cases hspill
      have hpositions := Run.write_positions hrun
      refine ⟨⟨.nil, ?_, ?_⟩, rfl⟩
      · intro other hother
        rcases mem_append.mp hother with hother | hother
        · exact h.runs other hother
        · cases mem_singleton.mp hother
          unfold Run.Ascending
          rw [hpositions]
          exact h.keys
      · refine List.Perm.trans ?_ h.perm
        simp [*, allPositions, perm_append_comm]

theorem Collects.push {retainedBytes : SpoolPosition → Nat} {position : SpoolPosition}
    (h : builder.Collects positions) (hpush : builder.push retainedBytes position = .ok next) :
    next.Collects (position :: positions) := by
  obtain ⟨_, hpush⟩ := ite_throw_eq_ok.mp hpush
  obtain ⟨middle, hmiddle, hpush⟩ := bind_eq_ok.mp hpush
  cases hpush
  have hcollects : middle.Collects positions := by
    split at hmiddle
    next => exact (h.spill hmiddle).1
    next =>
      cases hmiddle
      exact h
  refine ⟨hcollects.keys.orderedInsert position _, hcollects.runs, ?_⟩
  refine ((perm_orderedInsert _ position middle.keys).append_right _).trans ?_
  exact hcollects.perm.cons position

end SpoolBuilder

namespace SortSpool

variable (spool : SortSpool)

def remaining : List SpoolPosition :=
  spool.frontiers.map Prod.fst ++ spool.runs.flatten

def rest : List SpoolPosition := spool.pending ++ sorted spool.remaining

/-- The unread positions of a run come after one that is in the queue. -/
def Guarded (index : Nat) : Prop :=
  ∀ run, spool.runs[index]? = some run → ∀ position ∈ run,
    ∃ frontier ∈ spool.frontiers, frontier.2 = index ∧
      Below SpoolPosition.cmp frontier.1 position

/-- Sorted runs behind a sorted queue. -/
structure Merging : Prop where
  runs : ∀ run ∈ spool.runs, run.Pairwise (Below SpoolPosition.cmp)
  queue : spool.frontiers.Pairwise (Below frontierCmp)

instance : Std.TransCmp frontierCmp := by
  have hfirst : Std.TransCmp fun left right : SpoolPosition × Nat =>
      SpoolPosition.cmp left.1 right.1 :=
    { eq_swap := Std.OrientedCmp.eq_swap
      isLE_trans := Std.TransCmp.isLE_trans }
  exact inferInstanceAs (Std.TransCmp
    (compareLex (fun left right => SpoolPosition.cmp left.1 right.1)
      (compareOn (Prod.snd : SpoolPosition × Nat → Nat))))

theorem below_of_frontier {a b : SpoolPosition × Nat} (h : Below frontierCmp a b) :
    Below SpoolPosition.cmp a.1 b.1 := by
  change ((SpoolPosition.cmp a.1 b.1).then (compare a.2 b.2)).isLE = true at h
  unfold Below
  cases horder : SpoolPosition.cmp a.1 b.1 with
  | lt | eq => rfl
  | gt =>
    rw [horder] at h
    cases h

variable {spool : SortSpool}

theorem Merging.next (h : spool.Merging) (index : Nat) {others : Nat → Prop}
    (hguarded : ∀ other, others other → other ≠ index → spool.Guarded other) :
    (spool.next index).Merging ∧
      (∀ other, others other ∨ other = index → (spool.next index).Guarded other) ∧
      (spool.next index).remaining.Perm spool.remaining ∧
      (spool.next index).pending = spool.pending ∧
      (spool.next index).runs.length = spool.runs.length := by
  unfold SortSpool.next
  split
  next position run hrun =>
    have hascending : (position :: run).Pairwise (Below SpoolPosition.cmp) :=
      h.runs _ (mem_of_getElem? hrun)
    refine ⟨⟨?_, h.queue.orderedInsert _ _⟩, ?_, ?_, rfl, length_set⟩
    · intro other hother
      rcases mem_or_eq_of_mem_set hother with hother | rfl
      · exact h.runs other hother
      · exact hascending.of_cons
    · intro other hother found hfound member hmember
      by_cases hsame : other = index
      · subst hsame
        dsimp only at hfound
        rw [List.getElem?_set_self (List.getElem?_eq_some_iff.mp hrun).1] at hfound
        cases hfound
        refine ⟨(position, other), (mem_orderedInsert _).mpr (.inl rfl), rfl, ?_⟩
        exact (pairwise_cons.mp hascending).1 member hmember
      · dsimp only at hfound
        rw [getElem?_set_ne (Ne.symm hsame)] at hfound
        obtain ⟨frontier, hfrontier, hguard⟩ :=
          hguarded other (hother.resolve_right hsame) hsame found hfound member hmember
        exact ⟨frontier, (mem_orderedInsert _).mpr (.inr hfrontier), hguard⟩
    · unfold remaining
      refine (((perm_orderedInsert _ (position, index) spool.frontiers).map
        Prod.fst).append_right _).trans ?_
      obtain ⟨others, hall, hset⟩ := Fanout.flatten_set_perm hrun
      grind
  next hnone =>
    refine ⟨h, ?_, .refl _, rfl, rfl⟩
    intro other hother found hfound member hmember
    by_cases hsame : other = index
    · subst hsame
      cases found with
      | nil => cases hmember
      | cons first rest => exact absurd hfound (hnone first rest)
    · exact hguarded other (hother.resolve_right hsame) hsame found hfound member hmember

/-- A spool that can be read: the queue was not filled yet, or it guards every run. -/
structure Readable (spool : SortSpool) : Prop where
  merging : spool.Merging
  guarded : spool.initialized = true → ∀ index, spool.Guarded index

theorem Merging.range (h : spool.Merging) (count : Nat) :
    ((List.range count).foldl .next spool).Merging ∧
      (∀ index, index < count →
        ((List.range count).foldl .next spool).Guarded index) ∧
      ((List.range count).foldl .next spool).remaining.Perm spool.remaining ∧
      ((List.range count).foldl .next spool).pending = spool.pending ∧
      ((List.range count).foldl .next spool).runs.length = spool.runs.length := by
  induction count with
  | zero => exact ⟨h, fun _ hlt => absurd hlt (Nat.not_lt_zero _), .refl _, rfl, rfl⟩
  | succ count ih =>
    obtain ⟨hmerging, hguarded, hperm, hpending, hlength⟩ := ih
    rw [range_succ, foldl_append, foldl_cons, foldl_nil]
    obtain ⟨hmerging', hguarded', hperm', hpending', hlength'⟩ :=
      hmerging.next count fun other hlt _ => hguarded other hlt
    grind

theorem Readable.start (h : spool.Readable) :
    spool.start.Merging ∧ (∀ index, spool.start.Guarded index) ∧
      spool.start.remaining.Perm spool.remaining ∧ spool.start.pending = spool.pending := by
  unfold SortSpool.start
  split
  next hstarted => exact ⟨h.merging, h.guarded hstarted, .refl _, rfl⟩
  next =>
    obtain ⟨hmerging, hguarded, hperm, hpending, hlength⟩ := h.merging.range spool.runs.length
    refine ⟨⟨hmerging.runs, hmerging.queue⟩, ?_, hperm, hpending⟩
    intro index run hrun
    have hlt : index < spool.runs.length := by
      rw [← hlength]
      exact (List.getElem?_eq_some_iff.mp hrun).1
    exact hguarded index hlt run hrun

variable {position : SpoolPosition} {run : Nat} {frontiers : List (SpoolPosition × Nat)}

/-- The first position of the queue comes before everything else that remains. -/
theorem Merging.least (h : spool.Merging) (hguarded : ∀ index, spool.Guarded index)
    (hqueue : spool.frontiers = (position, run) :: frontiers) :
    ∀ other ∈ spool.remaining, Below SpoolPosition.cmp position other := by
  have hfirst : ∀ frontier ∈ spool.frontiers, Below SpoolPosition.cmp position frontier.1 := by
    have hsorted := h.queue
    rw [hqueue, pairwise_cons] at hsorted
    intro frontier hfrontier
    rw [hqueue] at hfrontier
    rcases mem_cons.mp hfrontier with rfl | hfrontier
    · exact below_refl position
    · exact below_of_frontier (hsorted.1 frontier hfrontier)
  intro other hother
  rcases mem_append.mp hother with hother | hother
  · grind
  · obtain ⟨found, hfound, hmember⟩ := mem_flatten.mp hother
    obtain ⟨index, hindex⟩ := getElem?_of_mem hfound
    obtain ⟨frontier, hfrontier, -, hbelow⟩ := hguarded index found hindex other hmember
    exact Std.TransCmp.isLE_trans (hfirst frontier hfrontier) hbelow

theorem remaining_eq_nil (hguarded : ∀ index, spool.Guarded index)
    (hqueue : spool.frontiers = []) : spool.remaining = [] := by
  refine eq_nil_iff_forall_not_mem.mpr ?_
  intro position hposition
  rw [remaining, hqueue, map_nil, nil_append] at hposition
  obtain ⟨run, hrun, hmember⟩ := mem_flatten.mp hposition
  obtain ⟨index, hindex⟩ := getElem?_of_mem hrun
  obtain ⟨frontier, hfrontier, -⟩ := hguarded index run hindex position hmember
  grind

theorem Merging.pop (h : spool.Merging) (hguarded : ∀ index, spool.Guarded index)
    (hqueue : spool.frontiers = (position, run) :: frontiers) :
    ∃ popped : SortSpool,
      { spool with frontiers, pending := spool.pending ++ [position] }.next run = popped ∧
      popped.Merging ∧ (∀ index, popped.Guarded index) ∧
      popped.pending = spool.pending ++ [position] ∧
      sorted spool.remaining = position :: sorted popped.remaining := by
  have hsorted := h.queue
  rw [hqueue, pairwise_cons] at hsorted
  have hmerging : { spool with
      frontiers, pending := spool.pending ++ [position] : SortSpool }.Merging :=
    ⟨h.runs, hsorted.2⟩
  obtain ⟨hmerging, hguarded', hperm, hpending, -⟩ :=
    @Merging.next _ hmerging run (fun _ => True) (by
      intro other _ hne found hfound member hmember
      obtain ⟨frontier, hfrontier, hindex, hbelow⟩ := hguarded other found hfound member hmember
      grind)
  refine ⟨_, rfl, hmerging, fun index => hguarded' index (.inl trivial), hpending, ?_⟩
  have hremaining : spool.remaining = position ::
      { spool with frontiers, pending := spool.pending ++ [position] : SortSpool }.remaining := by
    rw [remaining, hqueue]
    rfl
  refine (eq_sorted ?_ ?_).symm
  · refine pairwise_cons.mpr ⟨?_, pairwise_sorted _⟩
    intro other hother
    apply h.least hguarded hqueue
    grind [sorted_perm]
  · grind [sorted_perm]

variable (retainedBytes : SpoolPosition → Nat)

theorem Merging.fill (h : spool.Merging)
    (hguarded : ∀ index, spool.Guarded index) (count bytes : Nat) :
    (spool.fill retainedBytes count bytes).Merging ∧
      (∀ index, (spool.fill retainedBytes count bytes).Guarded index) ∧
      (spool.fill retainedBytes count bytes).rest = spool.rest := by
  induction count generalizing spool bytes with
  | zero => exact ⟨h, hguarded, rfl⟩
  | succ count ih =>
    unfold SortSpool.fill
    split
    next =>
      split
      next => exact ⟨h, hguarded, rfl⟩
      next position run frontiers hqueue =>
        obtain ⟨popped, hpopped, hmerging, hguarded', hpending, hsorted⟩ :=
          h.pop hguarded hqueue
        grind [rest]
    · simp [*]

theorem fill_pending_ne_nil (count bytes : Nat)
    (h : spool.pending ≠ []) : (spool.fill retainedBytes count bytes).pending ≠ [] := by
  induction count generalizing spool bytes with
  | zero => exact h
  | succ count ih =>
    unfold SortSpool.fill
    split
    next =>
      split
      next => exact h
      next position run frontiers hqueue =>
        apply ih
        unfold SortSpool.next
        split <;> simp
    next => exact h

/-- Advancing keeps what the spool has to give, and makes it pending when there is any. -/
theorem Readable.advance (h : spool.Readable) :
    (spool.advance retainedBytes).Readable ∧ (spool.advance retainedBytes).rest = spool.rest ∧
      ((spool.advance retainedBytes).pending = [] → spool.rest = []) := by
  obtain ⟨hmerging, hguarded, hperm, hpending⟩ := h.start
  have hrest : spool.start.rest = spool.rest := by
    rw [rest, rest, hpending]
    refine congrArg (spool.pending ++ ·) (eq_sorted (pairwise_sorted _) ?_)
    exact (sorted_perm _).trans hperm
  unfold SortSpool.advance
  dsimp only
  split
  next hempty =>
    obtain ⟨hfilled, hguarded', hrest'⟩ :=
      hmerging.fill retainedBytes hguarded 256 0
    refine ⟨⟨hfilled, fun _ => hguarded'⟩, hrest'.trans hrest, ?_⟩
    intro hnone
    cases hqueue : spool.start.frontiers with
    | nil =>
      rw [← hrest, rest, hempty, remaining_eq_nil hguarded hqueue]
      simp [sorted]
    | cons frontier frontiers =>
      -- the first position that is moved stays pending
      exfalso
      unfold SortSpool.fill at hnone
      rw [if_pos (by decide), hqueue] at hnone
      grind [fill_pending_ne_nil, SortSpool.next]
  next hpendingSome =>
    exact ⟨⟨hmerging, fun _ => hguarded⟩, hrest, fun hnone => absurd hnone hpendingSome⟩

theorem Readable.consume (h : spool.Readable)
    {pending : List SpoolPosition} (hpending : spool.pending = position :: pending) :
    ({ spool with pending } : SortSpool).Readable ∧
      spool.rest = position :: ({ spool with pending } : SortSpool).rest := by
  refine ⟨⟨⟨h.merging.runs, h.merging.queue⟩, h.guarded⟩, ?_⟩
  rw [rest, hpending]
  rfl

end SortSpool

/-- The spool of a builder gives all of its positions, in order. -/
theorem SpoolBuilder.Collects.finish
    {spool : SortSpool} (h : builder.Collects positions) (hfinish : builder.finish = .ok spool) :
    spool.Readable ∧ spool.rest = sorted positions := by
  obtain ⟨spilled, hspill, hfinish⟩ := bind_eq_ok.mp hfinish
  obtain ⟨runs, hruns, hfinish⟩ := bind_eq_ok.mp hfinish
  cases hfinish
  obtain ⟨hcollects, hkeys⟩ := h.spill hspill
  obtain ⟨hascending, hperm⟩ := mergePasses_spec hruns hcollects.runs
  refine ⟨⟨⟨?_, .nil⟩, fun hstarted => absurd hstarted Bool.false_ne_true⟩, ?_⟩
  · intro run hrun
    obtain ⟨found, hfound, rfl⟩ := mem_map.mp hrun
    exact hascending found hfound
  · refine eq_sorted (pairwise_sorted _) ((sorted_perm _).trans ?_)
    have hall := hcollects.perm
    rw [hkeys, nil_append] at hall
    exact hperm.trans hall

/-- The positions that a reader takes from a spool one by one, at most `count` of them. -/
def SortSpool.drain (retainedBytes : SpoolPosition → Nat) : Nat → SortSpool → List SpoolPosition
  | 0, _ => []
  | count + 1, spool =>
    match (spool.advance retainedBytes).pending with
    | [] => []
    | position :: pending =>
      position :: drain retainedBytes count { spool.advance retainedBytes with pending }

theorem SortSpool.Readable.drain_eq {spool : SortSpool} (h : spool.Readable)
    (retainedBytes : SpoolPosition → Nat) (count : Nat) :
    spool.drain retainedBytes count = spool.rest.take count := by
  induction count generalizing spool with
  | zero => rfl
  | succ count ih =>
    obtain ⟨hreadable, hrest, hnone⟩ := h.advance retainedBytes
    unfold drain
    split
    next hpending => rw [hnone hpending, take_nil]
    next position pending hpending =>
      obtain ⟨hreadable, hfirst⟩ := hreadable.consume hpending
      rw [ih hreadable, ← hrest, hfirst, take_succ_cons]

theorem SpoolBuilder.Collects.foldlM {retainedBytes : SpoolPosition → Nat}
    {builder next : SpoolBuilder} {positions pushed : List SpoolPosition}
    (h : builder.Collects pushed)
    (hpush : positions.foldlM (SpoolBuilder.push retainedBytes) builder = .ok next) :
    next.Collects (positions.reverse ++ pushed) := by
  induction positions generalizing builder pushed with
  | nil =>
    cases hpush
    exact h
  | cons position positions ih =>
    obtain ⟨middle, hmiddle, hpush⟩ := bind_eq_ok.mp hpush
    rw [reverse_cons, append_assoc]
    exact ih (h.push hmiddle) hpush

/-- Whatever the room for chunks and frontiers is, in whatever order positions are pushed and
whatever they take in memory before and after: a spool that could be written gives all of them,
in ascending order. -/
theorem spool_sorts {pushedBytes readBytes : SpoolPosition → Nat} (room : SpoolBuilder)
    {positions : List SpoolPosition} {builder : SpoolBuilder} {spool : SortSpool}
    (hpush : positions.foldlM (SpoolBuilder.push pushedBytes)
      { room with keys := [], keyBytes := 0, runs := [] } = .ok builder)
    (hfinish : builder.finish = .ok spool) (count : Nat) :
    spool.drain readBytes count = (sorted positions).take count := by
  have hempty : { room with keys := [], keyBytes := 0, runs := [] }.Collects [] :=
    ⟨.nil, forall_mem_nil _, .refl _⟩
  obtain ⟨hreadable, hrest⟩ := (hempty.foldlM hpush).finish hfinish
  rw [hreadable.drain_eq, hrest, append_nil]
  refine congrArg (take count) (eq_sorted (pairwise_sorted _) ((sorted_perm _).trans ?_))
  exact reverse_perm positions

/-- Two positions, spilled to a run each. -/
theorem spool_sorts_two_runs :
    let first : SpoolPosition := ⟨replicate 9 2, 1, 0⟩
    let second : SpoolPosition := ⟨replicate 9 1, 2, 0⟩
    let room : SpoolBuilder := ⟨[], 0, [], 10, 1, 1000, 4⟩
    ∃ builder spool,
      [first, second].foldlM (SpoolBuilder.push fun _ => 1) room = .ok builder ∧
      builder.finish = .ok spool ∧
      spool.drain (·.key.length) 2 = (sorted [first, second]).take 2 := by
  intro first second room
  have hpush : [first, second].foldlM (SpoolBuilder.push fun _ => 1) room =
      .ok ⟨[second], 1, [⟨[first], 9⟩], 10, 1, 1000, 4⟩ := rfl
  have hfinish : SpoolBuilder.finish ⟨[second], 1, [⟨[first], 9⟩], 10, 1, 1000, 4⟩ =
      .ok ⟨[[first], [second]], [], false, []⟩ := by
    refine bind_eq_ok.mpr ⟨_, rfl, bind_eq_ok.mpr ⟨[⟨[first], 9⟩, ⟨[second], 9⟩], ?_, rfl⟩⟩
    rw [SpoolBuilder.mergePasses, dif_neg (by decide)]
    rfl
  exact ⟨_, _, hpush, hfinish, spool_sorts room hpush hfinish 2⟩

end BriskDB.Engine
