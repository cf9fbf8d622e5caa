import BriskDB.Isam.Store

/-!
# The depth of the tree

Pages are filled from the left, so the pages on the left edge of the tree stay full. A
record below all others then splits every page on the left edge, and the tree grows by a
level whenever its root is full: the depth is exhausted after a number of single inserts
that is linear in the depth.
-/

namespace BriskDB.Isam

open ByteOrder KeyedList BTree List Option

namespace BTree

section LeftEdge

def slots (layout : Layout) (level : Nat) : Nat := pageRoom / stride layout level

def LeftFull (layout : Layout) : (level : Nat) → BTree level → Prop
  | 0, entries => entries.length = slots layout 0
  | level + 1, children =>
    children.length = slots layout (level + 1) ∧
      ∃ first rest, children = first :: rest ∧ LeftFull layout level first

/-- A tree with a full left edge, and a bound on the lower records it still takes. -/
def Edge (layout : Layout) (remaining : Nat) (tree : (level : Nat) × BTree level) : Prop :=
  (∃ entries : List Record, tree = ⟨0, entries⟩ ∧ entries.length ≤ slots layout 0 ∧
    remaining = maxLevel * slots layout 1 + (slots layout 0 - entries.length)) ∨
  ∃ (level : Nat) (first : BTree level) (rest : List (BTree level)),
    tree = ⟨level + 1, first :: rest⟩ ∧ LeftFull layout level first ∧ level + 1 ≤ maxLevel ∧
      2 ≤ (first :: rest).length ∧ (first :: rest).length ≤ slots layout 1 ∧
      remaining = (maxLevel - (level + 1)) * slots layout 1 +
        (slots layout 1 - (first :: rest).length)

variable {snapshot : Snapshot}

theorem slots_succ (level : Nat) : slots snapshot.layout (level + 1) = slots snapshot.layout 1 :=
    rfl

variable {level : Nat} {α : Type} {record : Record}

theorem changeForest_nil (change : BTree level → List Mutation → Option (List (BTree level)))
    (trees : List (BTree level)) : changeForest change trees [] = some trees := by
  induction trees with
  | nil => rfl
  | cons tree trees ih =>
    have hshare : share trees.isEmpty (maxKey level tree) [] = 0 := by cases trees <;> rfl
    rw [changeForest, if_pos hshare, ih]
    rfl

/-- A single mutation within the reach of the first tree is handed to it alone. -/
theorem changeForest_singleton
    {change : BTree level → List Mutation → Option (List (BTree level))} {first : BTree level}
    {rest : List (BTree level)} {mutation : Mutation}
    (hkey : rest = [] ∨ mutation.key ≤ maxKey level first) {changed : List (BTree level)}
    (hchange : change first [mutation] = some changed) :
    changeForest change (first :: rest) [mutation] = some (changed ++ rest) := by
  have hshare : share rest.isEmpty (maxKey level first) [mutation] = 1 := by
    unfold share
    cases rest with
    | nil => rfl
    | cons second rest =>
      have hle := hkey.resolve_left (cons_ne_nil _ _)
      simp [hle]
  rw [changeForest, if_neg (by rw [hshare]; decide), hshare, take_succ_cons, take_zero,
    hchange, bind_some, drop_succ_cons, drop_zero, changeForest_nil]
  rfl

theorem run_insert_below {entries : List Record}
    (hbelow : ∀ entry ∈ entries, record.key < entry.key) :
    recordEditing.run entries [.insert record] = some (record :: entries) := by
  have habsent : lookup Record.key entries record.key = none :=
    lookup_eq_none.mpr fun entry hentry => (hbelow entry hentry).ne'
  have happly : recordEditing.apply entries (.insert record) = some (record :: entries) := by
    unfold Editing.apply
    simp only [recordEditing, Mutation.key, habsent, map_some, Editing.place]
    cases entries with
    | nil => rfl
    | cons entry entries => rw [KeyedList.insert, if_pos (hbelow entry mem_cons_self)]
  rw [Editing.run_cons, happly]
  rfl

theorem entryWidth_fixed (hversion : snapshot.formatVersion = .fixed) :
    entryWidth snapshot 0 = fun _ => stride snapshot.layout 0 := by
  funext entry
  unfold entryWidth packedLeaf FormatVersion.isPacked
  rw [hversion]
  rfl

theorem stride_pos (level : Nat) : 0 < stride snapshot.layout level :=
  lt_of_lt_of_le snapshot.layout.keyBytes_pos (Nat.le_add_right _ _)

theorem pack_overflow (hslots : 2 ≤ slots snapshot.layout level) {items : List α}
    (hlength : items.length = slots snapshot.layout level + 1) :
    Packing.pack (fun _ => stride snapshot.layout level) pageRoom items =
      [items.take (slots snapshot.layout level), items.drop (slots snapshot.layout level)] :=
  Packing.pack_const_overflow (stride_pos level) (by unfold slots at hslots; omega)
    (by unfold slots at hlength; omega) (by unfold slots at hslots hlength; omega)

theorem changeForest_insert_below {first : BTree level} {rest : List (BTree level)}
    (hfull : Full (level + 1) (first :: rest))
    (hsorted : Sorted Record.key (records (level + 1) (first :: rest)))
    (hbelow : ∀ entry ∈ records (level + 1) (first :: rest), record.key < entry.key)
    (hfirst : Full level first → Sorted Record.key (records level first) →
      (∀ entry ∈ records level first, record.key < entry.key) →
      ∃ left right, change snapshot level first [.insert record] = some [left, right] ∧
        LeftFull snapshot.layout level left) :
    ∃ left right, changeForest (change snapshot level) (first :: rest) [.insert record] =
      some (left :: right :: rest) ∧ LeftFull snapshot.layout level left := by
  have hmem : first ∈ first :: rest := mem_cons_self
  have hsub := sublist_records hmem
  have hsortedFirst := hsorted.sublist hsub
  have hbelowFirst := fun entry hentry => hbelow entry (hsub.mem hentry)
  obtain ⟨left, right, hchange, hleft⟩ := hfirst (hfull.2 first hmem) hsortedFirst hbelowFirst
  obtain ⟨⟨entry, hentry, hkey⟩, _⟩ := (hfull.2 first hmem).maxKey_spec hsortedFirst
  refine ⟨left, right, changeForest_singleton (.inr ?_) hchange, hleft⟩
  rw [← hkey]
  exact (hbelowFirst entry hentry).le

/-- A record below all others splits a tree with a full left edge, which stays full. -/
theorem change_insert_below (hversion : snapshot.formatVersion = .fixed)
    (hleaf : 2 ≤ slots snapshot.layout 0) (hbranch : 2 ≤ slots snapshot.layout 1) {level : Nat}
    {tree : BTree level} (hfull : LeftFull snapshot.layout level tree) (hne : Full level tree)
    (hsorted : Sorted Record.key (records level tree))
    (hbelow : ∀ entry ∈ records level tree, record.key < entry.key) :
    ∃ left right, change snapshot level tree [.insert record] = some [left, right] ∧
      LeftFull snapshot.layout level left := by
  induction level with
  | zero =>
    have hlength : (record :: tree).length = slots snapshot.layout 0 + 1 := congrArg Nat.succ hfull
    refine ⟨(record :: tree).take (slots snapshot.layout 0), (record :: tree).drop
      (slots snapshot.layout 0),
      ?_, ?_⟩
    · rw [change, @run_insert_below record tree hbelow, map_some, entryWidth_fixed hversion,
        pack_overflow hleaf hlength]
    · rw [LeftFull, length_take, hlength]
      omega
  | succ level ih =>
    obtain ⟨hlength, first, rest, rfl, hfirst⟩ := hfull
    obtain ⟨left, right, hforest, hleft⟩ :=
      changeForest_insert_below hne hsorted hbelow (ih hfirst)
    have hcount : (left :: right :: rest).length = slots snapshot.layout 1 + 1 := by
      rw [slots_succ level] at hlength
      simp only [length_cons] at hlength ⊢
      omega
    refine ⟨(left :: right :: rest).take (slots snapshot.layout 1),
      (left :: right :: rest).drop (slots snapshot.layout 1), ?_, ?_, left, ?_⟩
    · rw [change, hforest, map_some]
      exact congrArg some (pack_overflow hbranch hcount)
    · grind
    · exact ⟨_, take_cons (by omega), hleft⟩

theorem pack_fits {items : List α} (hne : items ≠ [])
    (hlength : items.length ≤ slots snapshot.layout level) :
    Packing.pack (fun _ => stride snapshot.layout level) pageRoom items = [items] := by
  refine Packing.pack_of_used_le hne ?_
  rw [Packing.used_const]
  exact (Nat.le_div_iff_mul_le (stride_pos level)).mp hlength

theorem grow_singleton (room : Nat) {level : Nat} (tree : BTree level) :
    grow snapshot room level [tree] = some ⟨level, tree⟩ := by
  cases room <;> rfl

theorem grow_pair (hbranch : 2 ≤ slots snapshot.layout 1) {room : Nat} (left right : BTree level) :
    grow snapshot (room + 1) level [left, right] = some ⟨level + 1, [left, right]⟩ := by
  rw [grow, pack_fits (cons_ne_nil _ _) (by rw [slots_succ]; exact hbranch), grow_singleton]

theorem edge_pair (hbranch : 2 ≤ slots snapshot.layout 1) {left right : BTree level}
    (hleft : LeftFull snapshot.layout level left) (hlevel : level + 1 ≤ maxLevel) :
    Edge snapshot.layout ((maxLevel - (level + 1)) * slots snapshot.layout 1 +
      (slots snapshot.layout 1 - 2))
      ⟨level + 1, [left, right]⟩ :=
  .inr ⟨level, left, [right], rfl, hleft, hlevel, le_rfl, hbranch, rfl⟩

/-- The next record below all others uses up some of what is left, until nothing is. -/
theorem Edge.insert_below (hversion : snapshot.formatVersion = .fixed)
    (hleaf : 2 ≤ slots snapshot.layout 0) (hbranch : 2 ≤ slots snapshot.layout 1) {remaining : Nat}
    {tree : (level : Nat) × BTree level} (h : Edge snapshot.layout remaining tree)
    (hchangeable : Changeable tree.1 tree.2) (hsorted : Sorted Record.key (records tree.1 tree.2))
    (hbelow : ∀ entry ∈ records tree.1 tree.2, record.key < entry.key) :
    applyBatch snapshot tree [.insert record] = .error (.invalid "tree depth exhausted") ∨
      ∃ grown less, applyBatch snapshot tree [.insert record] = .ok grown ∧ less < remaining ∧
        Edge snapshot.layout less grown := by
  unfold applyBatch
  rw [mergeSort_singleton]
  rcases h with ⟨entries, rfl, hlength, rfl⟩ |
    ⟨level, first, rest, rfl, hfirst, hlevel, htwo, hlength, rfl⟩
  · right
    by_cases hroom : entries.length = slots snapshot.layout 0
    · obtain ⟨left, right, hchange, hleft⟩ := @change_insert_below snapshot record hversion
        hleaf hbranch 0 entries hroom (ne_nil_of_length_pos (by omega)) hsorted hbelow
      refine ⟨⟨1, [left, right]⟩, _, ?_, ?_, edge_pair hbranch hleft (by decide)⟩
      · simp [hchange, maxLevel, grow_pair hbranch]
      · simp only [maxLevel]
        omega
    · have hfits : (record :: entries).length ≤ slots snapshot.layout 0 := by
        rw [length_cons]
        omega
      have hchange : change snapshot 0 entries [.insert record] = some [record :: entries] := by
        rw [change, @run_insert_below record entries hbelow, map_some,
          entryWidth_fixed hversion, pack_fits (cons_ne_nil _ _) hfits]
      refine ⟨⟨0, record :: entries⟩, _, ?_, ?_, .inl ⟨_, rfl, hfits, rfl⟩⟩
      · simp [hchange, @grow_singleton snapshot _ 0 (record :: entries)]
      · grind
  · have hfull := hchangeable.resolve_left (Nat.succ_ne_zero level)
    by_cases hroom : (first :: rest).length = slots snapshot.layout 1
    · obtain ⟨left, right, hchange, hleft⟩ := @change_insert_below snapshot record hversion hleaf
        hbranch (level + 1) (first :: rest) ⟨hroom, first, rest, rfl, hfirst⟩ hfull hsorted hbelow
      by_cases htop : level + 1 = maxLevel
      · simp [*, grow]
      · right
        obtain ⟨room, hlevels⟩ := Nat.exists_eq_add_of_lt (lt_of_le_of_ne hlevel htop)
        have habove : maxLevel - (level + 1) = room + 1 := by omega
        refine ⟨⟨level + 2, [left, right]⟩, _, ?_, ?_, edge_pair hbranch hleft (by omega)⟩
        · simp [hchange, habove, grow_pair hbranch]
        · have hless : maxLevel - (level + 1 + 1) = room := by omega
          grind [Nat.succ_mul]
    · right
      obtain ⟨left, right, hforest, hleft⟩ := changeForest_insert_below hfull hsorted hbelow
        (change_insert_below hversion hleaf hbranch hfirst)
      have hfits : (left :: right :: rest).length ≤ slots snapshot.layout 1 := by
        simp only [length_cons] at hlength hroom ⊢
        omega
      have hwhole : change snapshot (level + 1) (first :: rest) [.insert record] =
          some [left :: right :: rest] := by
        rw [change, hforest, map_some]
        exact congrArg some (pack_fits (cons_ne_nil _ _) hfits)
      refine ⟨⟨level + 1, left :: right :: rest⟩, _, ?_, ?_,
        .inr ⟨level, left, right :: rest, rfl, hleft, hlevel, ?_, hfits, rfl⟩⟩
      · simp [hwhole, @grow_singleton snapshot _ (level + 1) (left :: right :: rest)]
      · grind
      · simp

end LeftEdge

end BTree

def wideLayout : Layout := ⟨128, 1024, by decide, by decide, by decide⟩

def descendingRecord (index : Nat) : Record :=
  ⟨List.replicate 126 0 ++ Bytes.ofBe 2 (65535 - index), []⟩

def descendingInsert (index : Nat) : List Mutation := [.insert (descendingRecord index)]

theorem ofBe_two_lt {m n : Nat} (hlt : m < n) (hn : n < 65536) :
    Bytes.ofBe 2 m < Bytes.ofBe 2 n := by
  have hofBe : ∀ n, Bytes.ofBe 2 n = [UInt8.ofNat (n / 256), UInt8.ofNat n] := fun _ => rfl
  rw [hofBe, hofBe, cons_lt_cons_iff, cons_lt_cons_iff, UInt8.lt_iff_toNat_lt,
    UInt8.lt_iff_toNat_lt, ← UInt8.toNat_inj]
  simp only [UInt8.toNat_ofNat']
  omega

theorem descendingInsert_accepts (index : Nat) :
    ∀ mutation ∈ descendingInsert index, wideLayout.Accepts mutation := by
  refine forall_mem_singleton.mpr ⟨?_, Nat.zero_le _⟩
  change (List.replicate 126 0 ++ Bytes.ofBe 2 (65535 - index)).length = 128
  simp

section Run

variable {blake3 : List UInt8 → Digest}

/-- A store that took the first `count` descending inserts. -/
structure Descended (blake3 : List UInt8 → Digest) (store : Store) (count : Nat)
    (tree : (level : Nat) × BTree level) : Prop where
  holds : store.HoldsTree blake3 tree
  version : store.snapshot.formatVersion = .fixed
  layout : store.snapshot.layout = wideLayout
  generation : store.snapshot.generation = count + 1
  above : ∀ entry ∈ records tree.1 tree.2, ∃ index < count, entry = descendingRecord index

variable {store : Store} {count remaining : Nat} {tree : (level : Nat) × BTree level}

section

variable (h : Descended blake3 store count tree)
include h

theorem Descended.below (hcount : count ≤ 65535) :
    ∀ entry ∈ records tree.1 tree.2, (descendingRecord count).key < entry.key := by
  intro entry hentry
  obtain ⟨index, hindex, rfl⟩ := h.above entry hentry
  exact append_left_lt (ofBe_two_lt (by omega) (by omega))

theorem Descended.commit (hedge : Edge wideLayout remaining tree) (hcount : count ≤ 65535) :
    (∃ message, store.commit blake3 (descendingInsert count) =
      (store, .error (.invalid message))) ∨
    ∃ store' grown less, store.commit blake3 (descendingInsert count) = (store', .ok ()) ∧
      Descended blake3 store' (count + 1) grown ∧
      records grown.1 grown.2 = descendingRecord count :: records tree.1 tree.2 ∧
      less < remaining ∧ Edge wideLayout less grown := by
  have hrepresents := h.holds.represents
  have hbelow := h.below hcount
  have hlayout := h.layout
  have haccepts := descendingInsert_accepts count
  rw [← hlayout] at hedge haccepts
  have hgeneration := h.generation
  have hcommit := h.holds.publish haccepts (by omega)
  rw [← Store.commit_eq haccepts (by simp [descendingInsert, maxBatchRecords])
    (by simp [descendingInsert])] at hcommit
  have hinsert := hedge.insert_below h.version (by rw [hlayout]; decide) (by rw [hlayout]; decide)
    hrepresents.changeable hrepresents.sorted hbelow
  rcases hinsert with hdepth | ⟨grown, less, hgrown, hless, hedge'⟩
  · have happly : applyBatch store.snapshot tree (descendingInsert count) = _ := hdepth
    grind
  · have happly : applyBatch store.snapshot tree (descendingInsert count) = _ := hgrown
    rw [happly] at hcommit
    rcases hcommit with ⟨store', hcommit, hholds, hlayout', hversion', hgeneration'⟩ |
      ⟨message, _, hcommit⟩
    · have hrun := applyBatch_run store.snapshot hrepresents.changeable hrepresents.sorted
        hrepresents.holds haccepts
      rw [descendingInsert, run_insert_below hbelow] at hrun
      have hrecords : records grown.1 grown.2 =
        descendingRecord count :: records tree.1 tree.2 := by
        rcases hrun with hrun | ⟨grown', hrun, hrecords⟩
        · cases hrun.symm.trans hgrown
        · grind
      refine .inr ⟨store', grown, less, hcommit, ⟨hholds, hversion'.trans h.version,
        hlayout'.trans hlayout, by omega, ?_⟩, hrecords, hless, hlayout ▸ hedge'⟩
      rw [hrecords]
      refine forall_mem_cons.mpr ⟨⟨count, Nat.lt_succ_self _, rfl⟩, fun entry hentry => ?_⟩
      obtain ⟨index, hindex, rfl⟩ := h.above entry hentry
      exact ⟨index, Nat.lt_succ_of_lt hindex, rfl⟩
    · exact .inl ⟨message, hcommit⟩

/-- Descending inserts are refused after as many as the left edge has room for. -/
theorem Descended.exhausts
    (hedge : Edge wideLayout remaining tree) (hcount : count + remaining ≤ 65535) :
    ∃ batches store' entries count', batches.length ≤ remaining ∧
      (∀ mutations ∈ batches, ∃ index, mutations = descendingInsert index) ∧
      store.run blake3 (records tree.1 tree.2) batches = (store', entries) ∧
      (∀ entry ∈ entries, (descendingRecord count').key < entry.key) ∧
      ∃ message, store'.commit blake3 (descendingInsert count') =
        (store', .error (.invalid message)) := by
  induction remaining using Nat.strong_induction_on generalizing store count tree with
  | _ remaining ih =>
    rcases h.commit hedge (by omega) with
      hrefused | ⟨store', grown, less, hcommit, h', hrecords, hless, hedge'⟩
    · exact ⟨[], store, _, count, Nat.zero_le _, nofun, rfl, h.below (by omega), hrefused⟩
    · obtain ⟨batches, last, entries, count', hlength, hbatches, hrun, hbelow, hrefused⟩ :=
        ih less hless h' hedge' (by omega)
      refine ⟨descendingInsert count :: batches, last, entries, count', ?_, ?_, ?_, hbelow,
        hrefused⟩
      · grind
      · exact forall_mem_cons.mpr ⟨⟨count, rfl⟩, hbatches⟩
      · rw [Store.run, hcommit]
        dsimp only
        rw [descendingInsert, run_insert_below (h.below (by omega)), getD_some, ← hrecords]
        exact hrun

end

end Run

/-- Within 902 single inserts of descending keys, each of which the sorted map takes, a store
refuses one: no batch of the run is a duplicate, and yet it fails. -/
theorem descending_inserts_refused :
    ∃ batches mutations, batches.length ≤ 902 ∧
      (∀ mutations ∈ batches, ∀ mutation ∈ mutations, wideLayout.Accepts mutation) ∧
      (∀ mutation ∈ mutations, wideLayout.Accepts mutation) ∧
      ∃ created store entries, Store.create Blake3.hash .fixed wideLayout = .ok created ∧
        created.run Blake3.hash [] batches = (store, entries) ∧
        (∃ entries', recordEditing.run entries mutations = some entries') ∧
        ∃ message, store.commit Blake3.hash mutations = (store, .error (.invalid message)) := by
  obtain ⟨created, hcreate, hholds, hsnapshot⟩ :=
    @Store.create_holdsTree Blake3.hash .fixed wideLayout
  have hdescended : Descended Blake3.hash created 0 ⟨0, []⟩ :=
    ⟨hholds, by rw [hsnapshot]; rfl, by rw [hsnapshot]; rfl, by rw [hsnapshot]; rfl, nofun⟩
  have hedge : Edge wideLayout 902 ⟨0, []⟩ := .inl ⟨[], rfl, Nat.zero_le _, by decide⟩
  obtain ⟨batches, store, entries, count, hlength, hbatches, hrun, hbelow, hrefused⟩ :=
    hdescended.exhausts hedge (by decide)
  refine ⟨batches, descendingInsert count, hlength, ?_, descendingInsert_accepts count, created,
    store, entries, hcreate, hrun, ⟨_, run_insert_below hbelow⟩, hrefused⟩
  intro mutations hmutations
  obtain ⟨index, rfl⟩ := hbatches mutations hmutations
  exact descendingInsert_accepts index

end BriskDB.Isam
