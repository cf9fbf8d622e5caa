import BriskDB.Isam.Tree

/-!
# The tree as a value

A balanced tree without pages or offsets: records in its leaves, lists of subtrees in its
branches. The change that a sorted batch makes to such a tree is the change of its records
as a sorted map, whatever the shape of the tree.
-/

namespace BriskDB.Isam

open ByteOrder KeyedList Packing List Option

/-- What mutations do to a sorted map of records; inserting a present key is refused. -/
def recordEditing : Editing Mutation Record (List UInt8) where
  key := Record.key
  target := Mutation.key
  effect
    | .insert record, none => some (some record)
    | .insert _, some _ => none
    | .put record, _ => some (some record)
    | .delete _, _ => some none
  key_effect := by
    intro edit found record h
    cases edit <;> cases found <;> cases h <;> rfl

def pageRoom : Nat := checksumStart - pagePrefix

@[reducible] def BTree : Nat → Type
  | 0 => List Record
  | level + 1 => List (BTree level)

namespace BTree

def records : (level : Nat) → BTree level → List Record
  | 0, entries => entries
  | level + 1, children => children.flatMap (records level)

def maxKey (level : Nat) (tree : BTree level) : List UInt8 :=
  ((records level tree).getLast?.map Record.key).getD []

def Full : (level : Nat) → BTree level → Prop
  | 0, entries => entries ≠ []
  | level + 1, children => children ≠ [] ∧ ∀ tree ∈ children, Full level tree

section Change

variable (snapshot : Snapshot)

/-- Hand each subtree its share of the mutations. -/
def changeForest {level : Nat} (change : BTree level → List Mutation → Option
    (List (BTree level))) : List (BTree level) → List Mutation → Option (List (BTree level))
  | [], _ => some []
  | tree :: trees, mutations =>
    if share trees.isEmpty (maxKey level tree) mutations = 0 then
      (changeForest change trees mutations).map (tree :: ·)
    else
      (change tree (mutations.take (share trees.isEmpty (maxKey level tree) mutations))).bind
        fun changed =>
          (changeForest change trees
            (mutations.drop (share trees.isEmpty (maxKey level tree) mutations))).map
              (changed ++ ·)

/-- The trees that take the place of a tree after a sorted batch. -/
def change : (level : Nat) → BTree level → List Mutation → Option (List (BTree level))
  | 0, entries, mutations =>
    (recordEditing.run entries mutations).map (pack (entryWidth snapshot 0) pageRoom)
  | level + 1, children, mutations =>
    (changeForest (change level) children mutations).map
      (pack (fun _ => stride snapshot.layout (level + 1)) pageRoom)

/-- Add levels above trees until one is left, `room` levels at most. -/
def grow : Nat → (level : Nat) → List (BTree level) → Option ((level : Nat) × BTree level)
  | _, _, [] => some ⟨0, []⟩
  | _, level, [tree] => some ⟨level, tree⟩
  | 0, _, _ :: _ :: _ => none
  | room + 1, level, trees@(_ :: _ :: _) =>
    grow room (level + 1)
      (pack (fun _ => stride snapshot.layout (level + 1)) pageRoom trees)

end Change

section Keys

variable {level : Nat} {tree : BTree level}

theorem records_cons (child : BTree level) (children : List (BTree level)) :
    records (level + 1) (child :: children) =
      records level child ++ records (level + 1) children :=
  flatMap_cons

theorem Full.records_ne_nil (h : Full level tree) : records level tree ≠ [] := by
  induction level with
  | zero => exact h
  | succ level ih =>
    obtain ⟨hne, hchildren⟩ := h
    cases tree with
    | nil => exact absurd rfl hne
    | cons child children =>
      simp [*, records]

theorem Full.maxKey_spec (h : Full level tree) (hsorted : Sorted Record.key (records level tree)) :
    (∃ record ∈ records level tree, record.key = maxKey level tree) ∧
      ∀ record ∈ records level tree, record.key ≤ maxKey level tree := by
  have hne := h.records_ne_nil
  unfold maxKey
  rw [getLast?_eq_some_getLast hne, map_some, getD_some]
  refine ⟨⟨_, getLast_mem hne, rfl⟩, ?_⟩
  intro record hrecord
  rw [← dropLast_append_getLast hne] at hsorted hrecord
  rcases mem_append.mp hrecord with hrecord | hrecord
  · exact ((sorted_append.mp hsorted).2.2 record hrecord _ mem_cons_self).le
  · rw [mem_singleton.mp hrecord]

/-- The last of the entries that carry maximum keys carries the maximum key of all. -/
theorem getLast?_maxKey {ε : Type} {key : ε → List UInt8} {r : ε → BTree level → Prop}
    (hr : ∀ entry tree, r entry tree → key entry = maxKey level tree) {entries : List ε}
    {children : List (BTree level)} (h : List.Forall₂ r entries children) (hne : children ≠ [])
    (hfull : ∀ below ∈ children, Full level below) :
    entries.getLast?.map key = some (maxKey (level + 1) children) := by
  induction h with
  | nil => exact absurd rfl hne
  | @cons entry below entries children hentry hrest ih =>
    obtain ⟨_, hfull⟩ := forall_mem_cons.mp hfull
    cases hrest with
    | nil =>
      simp [hr _ _ hentry, maxKey, records]
    | @cons entry' below' entries children hentry' hrest =>
      have hrecords : records (level + 1) (below' :: children) ≠ [] :=
        @Full.records_ne_nil (level + 1) _ ⟨cons_ne_nil _ _, hfull⟩
      rw [getLast?_cons_cons, ih (cons_ne_nil _ _) hfull]
      unfold maxKey
      rw [records_cons below, getLast?_append_of_ne_nil _ hrecords]

end Keys

def Ordered (mutations : List Mutation) : Prop :=
  mutations.Pairwise fun a b => a.key ≤ b.key

section Share

variable {last : Bool} {fence : List UInt8} {mutations : List Mutation}

theorem drop_share_true : mutations.drop (share true fence mutations) = [] := by
  rw [share, if_pos rfl, drop_length]

theorem le_of_mem_take_share {mutation : Mutation}
    (h : mutation ∈ mutations.take (share false fence mutations)) : mutation.key ≤ fence := by
  simp only [share, Bool.false_eq_true, if_false] at h
  rw [← prefix_iff_eq_take.mp (List.takeWhile_prefix _)] at h
  have hle := mem_takeWhile_imp h
  exact of_decide_eq_true hle

theorem lt_of_mem_drop_share (hordered : Ordered mutations) {mutation : Mutation}
    (h : mutation ∈ mutations.drop (share false fence mutations)) : fence < mutation.key := by
  simp only [share, Bool.false_eq_true, if_false] at h
  induction mutations with
  | nil => simp at h
  | cons first mutations ih =>
    obtain ⟨hle, hordered⟩ := pairwise_cons.mp hordered
    by_cases hfirst : first.key ≤ fence
    · simp only [takeWhile_cons, decide_eq_true hfirst, if_true, length_cons,
        drop_succ_cons] at h
      exact ih hordered h
    · grind

end Share

variable {level : Nat} {layout : Layout} {mutations : List Mutation}

/-- A step that changes a tree as a sorted map of records. -/
def Faithful (layout : Layout) (change : BTree level → List Mutation → Option (List (BTree level)))
    (tree : BTree level) : Prop :=
  ∀ mutations, Ordered mutations → (∀ mutation ∈ mutations, layout.Accepts mutation) →
    (change tree mutations).map (List.flatMap (records level)) =
      recordEditing.run (records level tree) mutations

theorem changeForest_records
    {change : BTree level → List Mutation → Option (List (BTree level))}
    {trees : List (BTree level)} (hchange : ∀ tree ∈ trees, Faithful layout change tree)
    (hfull : ∀ tree ∈ trees, Full level tree)
    (hsorted : Sorted Record.key (trees.flatMap (records level)))
    (hordered : Ordered mutations) (haccepts : ∀ mutation ∈ mutations, layout.Accepts mutation)
    (hnil : trees = [] → mutations = []) :
    (changeForest change trees mutations).map (List.flatMap (records level)) =
      recordEditing.run (trees.flatMap (records level)) mutations := by
  induction trees generalizing mutations with
  | nil =>
    rw [hnil rfl]
    rfl
  | cons tree trees ih =>
    obtain ⟨htree, hchange⟩ := forall_mem_cons.mp hchange
    obtain ⟨hfullTree, hfull⟩ := forall_mem_cons.mp hfull
    rw [flatMap_cons] at hsorted
    obtain ⟨hsortedTree, hsortedTrees, habove⟩ := sorted_append.mp hsorted
    obtain ⟨⟨top, htop, htopKey⟩, hbelow⟩ := hfullTree.maxKey_spec hsortedTree
    set count := share trees.isEmpty (maxKey level tree) mutations with hcount
    have hdrop : trees = [] → mutations.drop count = [] := by
      rintro rfl
      exact drop_share_true
    -- The batch splits at the maximum key of the first tree.
    have hsplit : recordEditing.run ((tree :: trees).flatMap (records level)) mutations =
        (recordEditing.run (records level tree) (mutations.take count)).bind fun left =>
          (recordEditing.run (trees.flatMap (records level)) (mutations.drop count)).map
            (left ++ ·) := by
      rw [flatMap_cons]
      nth_rewrite 1 [← take_append_drop count mutations]
      by_cases htrees : trees = []
      · rw [hdrop htrees, htrees]
        simp
      · have hlast : trees.isEmpty = false := by simpa using htrees
        rw [hlast] at hcount
        rw [hcount]
        refine Editing.run_append_append ?_ ?_ ?_
        · intro mutation hmutation record hrecord
          refine lt_of_le_of_lt (le_of_mem_take_share hmutation) ?_
          rw [← htopKey]
          exact habove top htop record hrecord
        · intro mutation hmutation record hrecord
          exact lt_of_le_of_lt (hbelow record hrecord) (lt_of_mem_drop_share hordered hmutation)
        · intro mutation hmutation mutation' hmutation'
          exact lt_of_le_of_lt (le_of_mem_take_share hmutation)
            (lt_of_mem_drop_share hordered hmutation')
    have hrest := ih hchange hfull hsortedTrees
      (List.Pairwise.sublist (drop_sublist count mutations) hordered)
      (fun mutation h => haccepts mutation (mem_of_mem_drop h)) hdrop
    rw [hsplit, changeForest, ← hcount]
    split
    next hzero =>
      rw [hzero, drop_zero] at hrest
      rw [hzero, take_zero, drop_zero, Editing.run_nil, bind_some, ← hrest,
        Option.map_map, Option.map_map]
      rfl
    next hne =>
      have hfirst := htree (mutations.take count)
        (List.Pairwise.sublist (take_sublist count mutations) hordered)
        (fun mutation h => haccepts mutation (mem_of_mem_take h))
      rw [← hfirst, ← hrest]
      cases change tree (mutations.take count) with
      | none => rfl
      | some changed =>
        cases changeForest change trees (mutations.drop count) with
        | none => rfl
        | some rest => simp

theorem holds_of_mem_run {entries entries' : List Record}
    (hholds : ∀ record ∈ entries, layout.Holds record)
    (haccepts : ∀ mutation ∈ mutations, layout.Accepts mutation)
    (h : recordEditing.run entries mutations = some entries') :
    ∀ record ∈ entries', layout.Holds record := by
  intro record hrecord
  rcases Editing.mem_run h hrecord with hrecord | ⟨mutation, hmutation, found, heffect⟩
  · exact hholds record hrecord
  · have := haccepts mutation hmutation
    cases mutation <;> cases found <;> cases heffect <;> exact this

section Widths

variable (snapshot : Snapshot)

theorem entryWidth_le_pageRoom {record : Record} (h : snapshot.layout.Holds record) :
    entryWidth snapshot 0 record ≤ pageRoom := by
  have hkey := snapshot.layout.keyBytes_le
  have hvalue := snapshot.layout.maxValueBytes_le
  have hroom : pageRoom = 4024 := rfl
  have hlength := h.2
  unfold entryWidth stride
  grind

theorem stride_le_pageRoom (level : Nat) : stride snapshot.layout (level + 1) ≤ pageRoom := by
  have hkey := snapshot.layout.keyBytes_le
  have hroom : pageRoom = 4024 := rfl
  unfold stride
  grind

theorem flatMap_pack (level : Nat) (trees : List (BTree level)) :
    (pack (fun _ => stride snapshot.layout (level + 1)) pageRoom trees).flatMap
      (records (level + 1)) = trees.flatMap (records level) := by
  have hflatten := flatten_pack
    (fun (tree : BTree level) (_ : tree ∈ trees) => stride_le_pageRoom snapshot level)
  conv_rhs => rw [← hflatten, ← flatMap_id, flatMap_assoc]
  rfl

end Widths

theorem sublist_records {trees : List (BTree level)} {tree : BTree level} (h : tree ∈ trees) :
    (records level tree).Sublist (trees.flatMap (records level)) := by
  rw [flatMap_def]
  exact sublist_flatten_of_mem (mem_map_of_mem h)

/-- A tree may be changed when it has no empty page, or is a single leaf. -/
def Changeable (level : Nat) (tree : BTree level) : Prop :=
  level = 0 ∨ Full level tree

variable (snapshot : Snapshot)

/-- The change of a tree is the change of its records. -/
theorem faithful_change {tree : BTree level}
    (htree : Changeable level tree) (hsorted : Sorted Record.key (records level tree))
    (hholds : ∀ record ∈ records level tree, snapshot.layout.Holds record) :
    Faithful snapshot.layout (change snapshot level) tree := by
  induction level with
  | zero =>
    intro mutations _ haccepts
    rw [change, Option.map_map]
    cases hrun : recordEditing.run tree mutations with
    | none => rw [records, hrun]; rfl
    | some entries =>
      have hentries := holds_of_mem_run hholds haccepts hrun
      rw [records, hrun, map_some, Function.comp_apply]
      congr 1
      refine Eq.trans ?_ (flatten_pack fun record hrecord =>
        entryWidth_le_pageRoom snapshot (hentries record hrecord))
      exact flatMap_id
  | succ level ih =>
    obtain ⟨hne, hfull⟩ := htree.resolve_left (Nat.succ_ne_zero level)
    have hchildren : ∀ child ∈ tree, Faithful snapshot.layout (change snapshot level) child := by
      intro child hchild
      have hsub := sublist_records hchild
      exact ih (.inr (hfull child hchild)) (hsorted.sublist hsub)
        fun record hrecord => hholds record (hsub.mem hrecord)
    intro mutations hordered haccepts
    rw [change, Option.map_map, records,
      ← changeForest_records hchildren hfull hsorted hordered haccepts fun h => absurd h hne]
    congr 1
    funext trees
    exact flatMap_pack snapshot level trees

variable {trees : List (BTree level)}

theorem full_of_mem_pack {width : BTree level → Nat} {room : Nat}
    (h : ∀ tree ∈ trees, Full level tree) (hwidth : ∀ tree ∈ trees, width tree ≤ room) :
    ∀ tree ∈ pack width room trees, Full (level + 1) tree := by
  intro parent hparent
  refine ⟨(of_mem_pack hparent).1, fun tree htree => h tree ?_⟩
  rw [← flatten_pack hwidth]
  exact mem_flatten.mpr ⟨parent, hparent, htree⟩

theorem full_of_mem_changeForest
    {change : BTree level → List Mutation → Option (List (BTree level))}
    {trees trees' : List (BTree level)} (hfull : ∀ tree ∈ trees, Full level tree)
    (hchange : ∀ tree ∈ trees, ∀ mutations changed, change tree mutations = some changed →
      ∀ tree' ∈ changed, Full level tree') (h : changeForest change trees mutations = some trees') :
    ∀ tree ∈ trees', Full level tree := by
  induction trees generalizing mutations trees' with
  | nil =>
    cases h
    exact nofun
  | cons tree trees ih =>
    obtain ⟨hfullTree, hfull⟩ := forall_mem_cons.mp hfull
    obtain ⟨htree, hchange⟩ := forall_mem_cons.mp hchange
    unfold changeForest at h
    split at h
    · obtain ⟨rest, hrest, rfl⟩ := map_eq_some_iff.mp h
      exact forall_mem_cons.mpr ⟨hfullTree, ih hfull hchange hrest⟩
    · obtain ⟨changed, hchanged, h⟩ := bind_eq_some_iff.mp h
      obtain ⟨rest, hrest, rfl⟩ := map_eq_some_iff.mp h
      exact forall_mem_append.mpr ⟨htree _ _ hchanged, ih hfull hchange hrest⟩

theorem full_of_mem_change {tree : BTree level} (htree : Changeable level tree)
    (h : change snapshot level tree mutations = some trees) : ∀ tree ∈ trees, Full level tree := by
  induction level generalizing mutations with
  | zero =>
    obtain ⟨entries, _, rfl⟩ := map_eq_some_iff.mp h
    exact fun tree htree => (of_mem_pack htree).1
  | succ level ih =>
    obtain ⟨_, hfull⟩ := htree.resolve_left (Nat.succ_ne_zero level)
    obtain ⟨changed, hchanged, rfl⟩ := map_eq_some_iff.mp h
    refine full_of_mem_pack ?_ fun _ _ => stride_le_pageRoom snapshot level
    refine full_of_mem_changeForest hfull ?_ hchanged
    intro tree' htree' mutations' changed' h'
    exact ih (.inr (hfull tree' htree')) h'

/-- A tree that may stand on pages of the store. -/
structure WellFormed (layout : Layout) (level : Nat) (tree : BTree level) : Prop where
  full : Full level tree
  level_le : level ≤ maxLevel
  sorted : Sorted Record.key (records level tree)
  holds : ∀ record ∈ records level tree, layout.Holds record

/-- Trees side by side, in the order of their keys. -/
structure Forest (layout : Layout) (level : Nat) (trees : List (BTree level)) : Prop where
  full : ∀ tree ∈ trees, Full level tree
  level_le : level ≤ maxLevel
  sorted : Sorted Record.key (trees.flatMap (records level))
  holds : ∀ record ∈ trees.flatMap (records level), layout.Holds record

theorem Forest.wellFormed
    (h : Forest layout level trees) {tree : BTree level} (htree : tree ∈ trees) :
    WellFormed layout level tree where
  full := h.full tree htree
  level_le := h.level_le
  sorted := h.sorted.sublist (sublist_records htree)
  holds := fun record hrecord => h.holds record ((sublist_records htree).mem hrecord)

theorem WellFormed.forest {children : List (BTree level)}
    (h : WellFormed layout (level + 1) children) : Forest layout level children where
  full := h.full.2
  level_le := Nat.le_of_succ_le h.level_le
  sorted := h.sorted
  holds := h.holds

theorem forest_pack_records {entries : List Record} (hsorted : Sorted Record.key entries)
    (hholds : ∀ record ∈ entries, snapshot.layout.Holds record) :
    Forest snapshot.layout 0 (pack (entryWidth snapshot 0) pageRoom entries) := by
  have hflatten : (pack (entryWidth snapshot 0) pageRoom entries).flatMap (records 0) =
      entries :=
    Eq.trans flatMap_id (flatten_pack fun record hrecord =>
      entryWidth_le_pageRoom snapshot (hholds record hrecord))
  refine ⟨fun tree htree => (of_mem_pack htree).1, Nat.zero_le _, ?_, ?_⟩
  · grind
  · grind

theorem Forest.pack (h : Forest snapshot.layout level trees) (hlevel : level + 1 ≤ maxLevel) :
    Forest snapshot.layout (level + 1)
      (pack (fun _ => stride snapshot.layout (level + 1)) pageRoom trees) where
  full := full_of_mem_pack h.full fun _ _ => stride_le_pageRoom snapshot level
  level_le := hlevel
  sorted := by
    rw [flatMap_pack]
    exact h.sorted
  holds := by
    rw [flatMap_pack]
    exact h.holds

theorem forest_change {tree : BTree level}
    (htree : Changeable level tree) (hlevel : level ≤ maxLevel)
    (hsorted : Sorted Record.key (records level tree))
    (hholds : ∀ record ∈ records level tree, snapshot.layout.Holds record)
    (hordered : Ordered mutations)
    (haccepts : ∀ mutation ∈ mutations, snapshot.layout.Accepts mutation)
    (h : change snapshot level tree mutations = some trees) :
    Forest snapshot.layout level trees := by
  have hrun := faithful_change snapshot htree hsorted hholds mutations hordered haccepts
  rw [h, map_some] at hrun
  exact ⟨full_of_mem_change snapshot htree h, hlevel, Editing.sorted_run hsorted hrun.symm,
    holds_of_mem_run hholds haccepts hrun.symm⟩

/-- The trees that take the place of the children of a branch, before they are packed. -/
theorem forest_changeForest {children : List (BTree level)}
    (h : WellFormed snapshot.layout (level + 1) children) (hordered : Ordered mutations)
    (haccepts : ∀ mutation ∈ mutations, snapshot.layout.Accepts mutation)
    (htrees : changeForest (change snapshot level) children mutations = some trees) :
    Forest snapshot.layout level trees := by
  have hforest := h.forest
  have hrun := changeForest_records
    (fun child hchild => faithful_change snapshot (.inr (hforest.full child hchild))
      (hforest.wellFormed hchild).sorted (hforest.wellFormed hchild).holds)
    hforest.full hforest.sorted hordered haccepts fun hnil => absurd hnil h.full.1
  rw [htrees, map_some] at hrun
  refine ⟨full_of_mem_changeForest hforest.full ?_ htrees, hforest.level_le,
    Editing.sorted_run hforest.sorted hrun.symm,
    holds_of_mem_run hforest.holds haccepts hrun.symm⟩
  intro child hchild mutations' changed hchanged
  exact full_of_mem_change snapshot (.inr (hforest.full child hchild)) hchanged

theorem records_grow {room : Nat}
    {grown : (level : Nat) × BTree level} (h : grow snapshot room level trees = some grown) :
    records grown.1 grown.2 = trees.flatMap (records level) := by
  fun_induction grow snapshot room level trees with
  | case1 =>
    cases h
    rfl
  | case2 room level tree =>
    cases h
    exact (flatMap_singleton _ _).symm
  | case3 => cases h
  | case4 room level first second rest ih => exact (ih h).trans (flatMap_pack snapshot level _)

/-- The tree after a batch, or the reason why there is none. -/
def applyBatch (tree : (level : Nat) × BTree level)
    (mutations : List Mutation) : Result ((level : Nat) × BTree level) :=
  match change snapshot tree.1 tree.2 (mutations.mergeSort fun a b => a.key ≤ b.key) with
  | none => .error .duplicate
  | some trees =>
    match grow snapshot (maxLevel - tree.1) tree.1 trees with
    | none => .error (.invalid "tree depth exhausted")
    | some grown => .ok grown

theorem ordered_mergeSort (mutations : List Mutation) :
    Ordered (mutations.mergeSort fun a b => a.key ≤ b.key) := by
  have hsorted := @List.pairwise_mergeSort Mutation (fun a b => a.key ≤ b.key)
    (by simpa using fun a b c => le_trans) (by simpa using fun a b => le_total _ _) mutations
  exact hsorted.imp fun h => of_decide_eq_true h

/-- A batch refuses, or changes the records, as it does on a sorted map. -/
theorem applyBatch_run {tree : (level : Nat) × BTree level}
    (htree : Changeable tree.1 tree.2) (hsorted : Sorted Record.key (records tree.1 tree.2))
    (hholds : ∀ record ∈ records tree.1 tree.2, snapshot.layout.Holds record)
    (haccepts : ∀ mutation ∈ mutations, snapshot.layout.Accepts mutation) :
    match recordEditing.run (records tree.1 tree.2) mutations with
    | none => applyBatch snapshot tree mutations = .error .duplicate
    | some entries =>
      applyBatch snapshot tree mutations = .error (.invalid "tree depth exhausted") ∨
      ∃ grown, applyBatch snapshot tree mutations = .ok grown ∧
        records grown.1 grown.2 = entries := by
  have hrun := faithful_change snapshot htree hsorted hholds _ (ordered_mergeSort mutations)
    fun mutation h => haccepts mutation (mem_mergeSort.mp h)
  have hstable : recordEditing.run (records tree.1 tree.2)
      (mutations.mergeSort fun a b => a.key ≤ b.key) =
        recordEditing.run (records tree.1 tree.2) mutations :=
    Editing.run_mergeSort hsorted mutations
  rw [← hstable, ← hrun]
  unfold applyBatch
  cases change snapshot tree.1 tree.2 (mutations.mergeSort fun a b => a.key ≤ b.key) with
  | none => rfl
  | some trees =>
    dsimp
    cases hgrow : grow snapshot (maxLevel - tree.1) tree.1 trees with
    | none => exact .inl rfl
    | some grown => exact .inr ⟨grown, rfl, records_grow snapshot hgrow⟩

end BTree

end BriskDB.Isam
