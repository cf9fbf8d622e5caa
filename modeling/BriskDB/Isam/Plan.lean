import BriskDB.Isam.Stored

/-!
# Plans

Planning a batch follows the change of the tree as a value: the planned pages, together
with the pages they still refer to, are the changed tree.
-/

namespace BriskDB.Isam

open ByteOrder KeyedList Transparent BTree Result Packing List

theorem getElem?_append_of_some {α : Type} {items : List α} {index : Nat} {a : α}
    (h : items[index]? = some a) (more : List α) : (items ++ more)[index]? = some a := by
  rw [List.getElem?_append_left (List.getElem?_eq_some_iff.mp h).1, h]

section Placed

variable (blake3 : List UInt8 → Digest) (file : File) (snapshot : Snapshot)

/-- A reference leads to a tree; planned pages refer to earlier planned ones and the file. -/
def Placed (pages : List PlannedPage) : (level : Nat) → PageRef → BTree level → Prop
  | 0, reference, entries =>
    match reference with
    | .existing offset => Stored blake3 file snapshot 0 offset entries
    | .new pageId =>
      pages[pageId]? = some ⟨0, entries.map plannedRecord⟩ ∧
        used (entryWidth snapshot 0) entries ≤ pageRoom
  | level + 1, reference, children =>
    match reference with
    | .existing offset => Stored blake3 file snapshot (level + 1) offset children
    | .new pageId =>
      children.length * stride snapshot.layout (level + 1) ≤ pageRoom ∧
      ∃ entries, pages[pageId]? = some ⟨level + 1, entries⟩ ∧
        List.Forall₂ (fun entry tree => entry.key = maxKey level tree ∧
          ∃ below, entry.value = .child below ∧ (∀ id, below = .new id → id < pageId) ∧
            Placed pages level below tree) entries children

def Planned (pages : List PlannedPage) (level : Nat) (entry : PlannedEntry) (tree : BTree level) :
    Prop :=
  entry.key = maxKey level tree ∧
    ∃ reference, entry.value = .child reference ∧
      Placed blake3 file snapshot pages level reference tree

variable {blake3 file snapshot}

theorem Placed.append {pages : List PlannedPage} {level : Nat} {reference : PageRef}
    {tree : BTree level} (h : Placed blake3 file snapshot pages level reference tree)
    (more : List PlannedPage) :
    Placed blake3 file snapshot (pages ++ more) level reference tree := by
  induction level generalizing reference with
  | zero =>
    cases reference with
    | existing offset => exact h
    | new pageId => exact ⟨getElem?_append_of_some h.1 more, h.2⟩
  | succ level ih =>
    cases reference with
    | existing offset => exact h
    | new pageId =>
      obtain ⟨hroom, entries, hpage, hentries⟩ := h
      refine ⟨hroom, entries, getElem?_append_of_some hpage more, ?_⟩
      refine hentries.imp ?_
      grind

theorem Planned.append {pages : List PlannedPage} {level : Nat} {entry : PlannedEntry}
    {tree : BTree level} (h : Planned blake3 file snapshot pages level entry tree)
    (more : List PlannedPage) : Planned blake3 file snapshot (pages ++ more) level entry tree := by
  obtain ⟨hkey, reference, hvalue, hplaced⟩ := h
  exact ⟨hkey, reference, hvalue, hplaced.append more⟩

end Placed

section Emit

variable {snapshot : Snapshot} {level : Nat} {width : PlannedEntry → Nat}
  {entries : List PlannedEntry}

theorem takeChunk_eq
    (hwidth : ∀ entry ∈ entries, plannedWidth snapshot level entry = .ok (width entry)) {used : Nat}
    (hused : used ≤ checksumStart) :
    takeChunk snapshot level used entries =
      .ok (takeFit width (checksumStart - used) entries,
        entries.drop (takeFit width (checksumStart - used) entries).length) := by
  induction entries generalizing used with
  | nil => rfl
  | cons entry entries ih =>
    obtain ⟨hentry, hentries⟩ := forall_mem_cons.mp hwidth
    rw [takeChunk, hentry, ok_bind, takeFit]
    by_cases hfit : used + width entry ≤ checksumStart
    · rw [if_neg (by omega), if_pos (by omega), ih hentries hfit, Nat.sub_add_eq]
      rfl
    · grind

def emitted (first : Nat) : List (List PlannedEntry) → List PlannedEntry
  | [] => []
  | chunk :: chunks =>
    ⟨(chunk.getLast?.map PlannedEntry.key).getD [], .child (.new first)⟩ ::
      emitted (first + 1) chunks

theorem emitLoop_eq {fuel : Nat}
    (hwidth : ∀ entry ∈ entries, plannedWidth snapshot level entry = .ok (width entry))
    (hroom : ∀ entry ∈ entries, width entry ≤ pageRoom) (hfuel : entries.length ≤ fuel)
    (pages : List PlannedPage) :
    emitLoop snapshot level fuel entries pages =
      .ok (emitted pages.length (pack width pageRoom entries),
        pages ++ (pack width pageRoom entries).map (⟨level, ·⟩)) := by
  induction fuel generalizing entries pages with
  | zero =>
    grind [pack_nil, emitLoop, emitted]
  | succ fuel ih =>
    cases entries with
    | nil =>
      rw [pack_nil]
      simp [emitLoop, emitted]
    | cons entry entries =>
      have hne := takeFit_ne_nil width (cons_ne_nil entry entries) hroom
      have hsplit := takeFit_append_drop width pageRoom (entry :: entries)
      have hchunk : takeChunk snapshot level pagePrefix (entry :: entries) =
          .ok (takeFit width pageRoom (entry :: entries),
            (entry :: entries).drop (takeFit width pageRoom (entry :: entries)).length) :=
        takeChunk_eq hwidth (by decide)
      rw [pack_eq_cons hne, emitLoop, hchunk, ok_bind]
      set chunk := takeFit width pageRoom (entry :: entries)
      have hlength : ((entry :: entries).drop chunk.length).length ≤ fuel := by
        have hpos := length_pos_iff.mpr hne
        rw [length_drop]
        omega
      have hmem : ∀ other ∈ (entry :: entries).drop chunk.length, other ∈ entry :: entries :=
        fun _ h => mem_of_mem_drop h
      simp only [getLast?_eq_some_getLast hne]
      rw [ih (fun other h => hwidth other (hmem other h))
        (fun other h => hroom other (hmem other h)) hlength, ok_bind]
      simp [emitted, getLast?_eq_some_getLast hne]

end Emit

section Emission

variable (blake3 : List UInt8 → Digest) (file : File) (snapshot : Snapshot)

def AllPlaced (pages : List PlannedPage) : Prop :=
  ∀ pageId page, pages[pageId]? = some page →
    ∃ level tree, WellFormed snapshot.layout level tree ∧
      Placed blake3 file snapshot pages level (.new pageId) tree

/-- A chunk of entries planned after `base` is the root page of a tree. -/
def Fills (base : List PlannedPage) (level : Nat) (chunk : List PlannedEntry)
    (tree : BTree level) : Prop :=
  (chunk.getLast?.map PlannedEntry.key).getD [] = maxKey level tree ∧
    ∀ pages pageId, base <+: pages → base.length ≤ pageId →
      pages[pageId]? = some ⟨level, chunk⟩ →
        Placed blake3 file snapshot pages level (.new pageId) tree

def AllNew (entries : List PlannedEntry) : Prop :=
  ∀ entry ∈ entries, ∃ pageId, entry.value = .child (.new pageId)

/-- What cutting into pages does: it appends pages, one for each of the trees. -/
def Emits (pages : List PlannedPage) (level : Nat)
    (trees : List (BTree level)) (result : Result (List PlannedEntry × List PlannedPage)) : Prop :=
  ∃ entries added, result = .ok (entries, pages ++ added) ∧
    List.Forall₂ (Planned blake3 file snapshot (pages ++ added) level) entries trees ∧
    AllPlaced blake3 file snapshot (pages ++ added) ∧ AllNew entries ∧
    added.length = trees.length

variable {blake3 file snapshot} {base pages : List PlannedPage} {level : Nat}
  {trees : List (BTree level)} {α β : Type} {entries : List PlannedEntry}

theorem emitted_planned {chunks : List (List PlannedEntry)}
    (h : List.Forall₂ (Fills blake3 file snapshot base level) chunks trees)
    (htrees : ∀ tree ∈ trees, WellFormed snapshot.layout level tree) (hbase : base <+: pages)
    (hpages : AllPlaced blake3 file snapshot pages) :
    List.Forall₂ (Planned blake3 file snapshot (pages ++ chunks.map (⟨level, ·⟩)) level)
        (emitted pages.length chunks) trees ∧
      AllPlaced blake3 file snapshot (pages ++ chunks.map (⟨level, ·⟩)) := by
  induction h generalizing pages with
  | nil =>
    rw [map_nil, append_nil]
    exact ⟨.nil, hpages⟩
  | @cons chunk tree chunks trees hfills hchunks ih =>
    obtain ⟨htree, htrees⟩ := forall_mem_cons.mp htrees
    obtain ⟨hkey, hplaced⟩ := hfills
    have hnew : Placed blake3 file snapshot (pages ++ [⟨level, chunk⟩]) level (.new pages.length)
        tree :=
      hplaced _ _ (hbase.trans (prefix_append _ _)) hbase.length_le
        getElem?_concat_length
    have hnext : AllPlaced blake3 file snapshot (pages ++ [⟨level, chunk⟩]) := by
      intro pageId page hpage
      by_cases hlt : pageId < pages.length
      · rw [getElem?_append_left hlt] at hpage
        obtain ⟨level', tree', hwf, hplaced'⟩ := hpages pageId page hpage
        exact ⟨level', tree', hwf, hplaced'.append _⟩
      · have hbound := (List.getElem?_eq_some_iff.mp hpage).1
        rw [length_append, length_singleton] at hbound
        have heq : pageId = pages.length := by omega
        grind
    have hrest := ih htrees (hbase.trans (prefix_append _ _)) hnext
    rw [append_assoc, singleton_append, length_append,
      length_singleton] at hrest
    refine ⟨.cons ⟨hkey, _, rfl, ?_⟩ hrest.1, hrest.2⟩
    have := hnew.append (chunks.map (⟨level, ·⟩))
    rwa [append_assoc, singleton_append] at this

theorem forall₂_imp_mem {r r' : α → β → Prop} {left : List α} {right : List β}
    (h : List.Forall₂ r left right) (himp : ∀ a, ∀ b ∈ right, r a b → r' a b) :
    List.Forall₂ r' left right := by
  induction h with
  | nil => exact .nil
  | cons hab _ ih =>
    refine .cons (himp _ _ mem_cons_self hab) (ih fun a b hb => ?_)
    exact himp a b (mem_cons_of_mem _ hb)

theorem allNew_emitted (first : Nat) (chunks : List (List PlannedEntry)) :
    AllNew (emitted first chunks) := by
  induction chunks generalizing first with
  | nil => exact nofun
  | cons chunk chunks ih => exact forall_mem_cons.mpr ⟨⟨first, rfl⟩, ih (first + 1)⟩

theorem plannedWidth_record {record : Record} (h : snapshot.layout.Holds record) :
    plannedWidth snapshot 0 (plannedRecord record) = .ok (entryWidth snapshot 0 record) := by
  unfold plannedWidth plannedRecord entryWidth
  simp only [h.2, and_self, if_true]

def widthOf (snapshot : Snapshot) (level : Nat) (entry : PlannedEntry) : Nat :=
  match plannedWidth snapshot level entry with
  | .ok width => width
  | .error _ => 0

theorem emits_of_fills {ι : Type} {r : PlannedEntry → ι → Prop} (width : ι → Nat) {items : List ι}
    (hentries : List.Forall₂ r entries items)
    (hwidth : ∀ entry item, r entry item → plannedWidth snapshot level entry = .ok (width item))
    (hroom : ∀ item ∈ items, width item ≤ pageRoom)
    (hfills : ∀ chunks, List.Forall₂ (List.Forall₂ r) chunks (pack width pageRoom items) →
      List.Forall₂ (Fills blake3 file snapshot pages level) chunks trees)
    (htrees : ∀ tree ∈ trees, WellFormed snapshot.layout level tree)
    (hpages : AllPlaced blake3 file snapshot pages) :
    Emits blake3 file snapshot pages level trees (emitPages snapshot level entries pages) := by
  have hof : ∀ entry item, r entry item → widthOf snapshot level entry = width item := by
    intro entry item h
    rw [widthOf, hwidth entry item h]
  have hitem : ∀ entry ∈ entries, plannedWidth snapshot level entry =
      .ok (widthOf snapshot level entry) ∧ widthOf snapshot level entry ≤ pageRoom := by
    intro entry hentry
    obtain ⟨item, hitem, h⟩ := exists_of_forall₂ hentries hentry
    rw [hof entry item h]
    exact ⟨hwidth entry item h, hroom item hitem⟩
  have hchunks := hfills _ (pack_forall₂ hof hentries)
  obtain ⟨hplanned, hplaced⟩ := emitted_planned hchunks htrees (prefix_refl pages) hpages
  refine ⟨_, _, emitLoop_eq (fun entry h => (hitem entry h).1) (fun entry h => (hitem entry h).2)
    le_rfl pages, hplanned, hplaced, allNew_emitted _ _, ?_⟩
  rw [length_map, hchunks.length_eq]

theorem emitPages_leaf {entries : List Record} (hsorted : Sorted Record.key entries)
    (hholds : ∀ record ∈ entries, snapshot.layout.Holds record)
    (hpages : AllPlaced blake3 file snapshot pages) :
    Emits blake3 file snapshot pages 0 (pack (entryWidth snapshot 0) pageRoom entries)
      (emitPages snapshot 0 (entries.map plannedRecord) pages) := by
  have hentries : List.Forall₂
      (fun entry record => entry = plannedRecord record ∧ snapshot.layout.Holds record)
      (entries.map plannedRecord) entries := by
    refine forall₂_map_left_iff.mpr (forall₂_same.mpr fun record hrecord => ?_)
    exact ⟨rfl, hholds record hrecord⟩
  refine emits_of_fills (entryWidth snapshot 0) hentries ?_ ?_ ?_ ?_ hpages
  · grind [plannedWidth_record]
  · exact fun record hrecord => entryWidth_le_pageRoom snapshot (hholds record hrecord)
  · intro chunks hchunks
    refine forall₂_imp_mem hchunks fun chunk tree htree h => ?_
    have hchunk : List.Forall₂ (· = ·) chunk (tree.map plannedRecord) :=
      forall₂_map_right_iff.mpr (h.imp fun _ _ h => h.1)
    rw [forall₂_eq_eq_eq] at hchunk
    rw [hchunk]
    refine ⟨?_, fun pages' pageId _ _ hpage => ⟨hpage, (of_mem_pack htree).2⟩⟩
    rw [getLast?_map, Option.map_map]
    rfl
  · exact fun tree htree => (forest_pack_records snapshot hsorted hholds).wellFormed htree

theorem Planned.lt_length {entry : PlannedEntry} {tree : BTree level}
    (h : Planned blake3 file snapshot pages level entry tree) {pageId : Nat}
    (hentry : entry.value = .child (.new pageId)) : pageId < pages.length := by
  obtain ⟨_, reference, hvalue, hplaced⟩ := h
  cases hentry.symm.trans hvalue
  cases level with
  | zero => exact (List.getElem?_eq_some_iff.mp hplaced.1).1
  | succ level =>
    obtain ⟨_, _, hpage, _⟩ := hplaced
    exact (List.getElem?_eq_some_iff.mp hpage).1

theorem emitPages_branch
    (hentries : List.Forall₂ (Planned blake3 file snapshot pages level) entries trees)
    (htrees : Forest snapshot.layout level trees) (hlevel : level + 1 ≤ maxLevel)
    (hpages : AllPlaced blake3 file snapshot pages) :
    Emits blake3 file snapshot pages (level + 1)
      (pack (fun _ => stride snapshot.layout (level + 1)) pageRoom trees)
      (emitPages snapshot (level + 1) entries pages) := by
  have hforest := htrees.pack snapshot hlevel
  refine emits_of_fills (fun _ => stride snapshot.layout (level + 1)) hentries ?_ ?_ ?_
    (fun tree htree => hforest.wellFormed htree) hpages
  · rintro entry tree ⟨_, reference, hvalue, _⟩
    simp [plannedWidth, hvalue]
  · exact fun _ _ => stride_le_pageRoom snapshot level
  · intro chunks hchunks
    refine forall₂_imp_mem hchunks fun chunk children hchildren h => ?_
    obtain ⟨hne, hused⟩ := of_mem_pack hchildren
    rw [used_const] at hused
    refine ⟨?_, ?_⟩
    · rw [getLast?_maxKey (fun _ _ h => h.1) h hne (hforest.wellFormed hchildren).full.2]
      rfl
    · intro pages' pageId hprefix hid hpage
      refine ⟨hused, chunk, hpage, ?_⟩
      refine h.imp fun entry tree hplanned => ?_
      have hlt := @Planned.lt_length blake3 file snapshot pages level entry tree hplanned
      obtain ⟨hkey, reference, hvalue, hplaced⟩ := hplanned
      obtain ⟨more, rfl⟩ := hprefix
      refine ⟨hkey, reference, hvalue, ?_, hplaced.append more⟩
      grind

end Emission

def orDuplicate {α : Type} : Option α → Result α
  | some a => .ok a
  | none => .error .duplicate

theorem changeRecord_eq (entries : List Record) (mutation : Mutation) :
    changeRecord entries mutation = orDuplicate (recordEditing.apply entries mutation) := by
  cases mutation with
  | insert record =>
    unfold changeRecord Editing.apply
    cases hfound : lookup Record.key entries record.key with
    | none | some => simp only [recordEditing, Mutation.key, hfound]; rfl
  | put | delete => rfl

theorem changeRecords_eq (entries : List Record) (mutations : List Mutation) :
    changeRecords entries mutations = orDuplicate (recordEditing.run entries mutations) := by
  unfold changeRecords
  induction mutations generalizing entries with
  | nil => rfl
  | cons mutation mutations ih =>
    rw [foldlM_cons, changeRecord_eq, Editing.run_cons]
    cases recordEditing.apply entries mutation with
    | none => rfl
    | some next => exact ih next

section Change

variable (blake3 : List UInt8 → Digest) (file : File) (snapshot : Snapshot)

/-- A planning step follows a change of trees: both refuse, or it plans the changed trees. -/
def Follows (fresh : List PlannedEntry → Prop) (pages : List PlannedPage) (before level : Nat)
    (program : ReadM (List PlannedEntry × List PlannedPage)) : Option (List (BTree level)) → Prop
  | none => Gives (Coherent blake3 file snapshot) program (.error .duplicate)
  | some trees =>
    ∃ entries added,
      Gives (Coherent blake3 file snapshot) program (.ok (entries, pages ++ added)) ∧
      List.Forall₂ (Planned blake3 file snapshot (pages ++ added) level) entries trees ∧
      AllPlaced blake3 file snapshot (pages ++ added) ∧ fresh entries ∧
      (trees.flatMap (records level)).length ≤ before + pageRoom * added.length

variable {blake3 file snapshot} {pages : List PlannedPage} {level : Nat}

theorem follows_none {fresh : List PlannedEntry → Prop}
    {before : Nat} {program : ReadM (List PlannedEntry × List PlannedPage)} :
    Follows blake3 file snapshot fresh pages before level program none ↔
      Gives (Coherent blake3 file snapshot) program (.error .duplicate) :=
  Iff.rfl

theorem changeChildren_follows {level : Nat} {planChange : Node → List Mutation → List PlannedPage →
      ReadM (List PlannedEntry × List PlannedPage)}
    {treeChange : BTree level → List Mutation → Option (List (BTree level))}
    {entries : List Record} {trees : List (BTree level)}
    (hentries : List.Forall₂ (Refers blake3 file snapshot level) entries trees)
    (hchange : ∀ tree ∈ trees, ∀ node mutations pages, Held blake3 file snapshot level node tree →
      Ordered mutations → (∀ mutation ∈ mutations, snapshot.layout.Accepts mutation) →
      AllPlaced blake3 file snapshot pages →
        Follows blake3 file snapshot AllNew pages (records level tree).length level
          (planChange node mutations pages) (treeChange tree mutations))
    (hfull : ∀ tree ∈ trees, Full level tree)
    (hsorted : Sorted Record.key (records (level + 1) trees)) {previous : Option Record}
    (habove : Above previous (records (level + 1) trees)) {mutations : List Mutation}
    (hordered : Ordered mutations)
    (haccepts : ∀ mutation ∈ mutations, snapshot.layout.Accepts mutation)
    {pages : List PlannedPage} (hpages : AllPlaced blake3 file snapshot pages) :
    Follows blake3 file snapshot (fun _ => True) pages (records (level + 1) trees).length level
      (changeChildren blake3 file snapshot planChange (level + 1) previous entries mutations pages)
      (changeForest treeChange trees mutations) := by
  induction hentries generalizing previous mutations pages with
  | nil =>
    refine ⟨[], [], ?_, .nil, ?_, trivial, Nat.zero_le _⟩
    · rw [append_nil]
      exact gives_pure _
    · rwa [append_nil]
  | @cons entry tree entries trees hrefers hentries ih =>
    obtain ⟨htree, hchange⟩ := forall_mem_cons.mp hchange
    obtain ⟨hfullTree, hfull⟩ := forall_mem_cons.mp hfull
    rw [records_cons] at hsorted habove ⊢
    obtain ⟨hsortedTree, hsortedTrees, hlt⟩ := sorted_append.mp hsorted
    have hkey := hrefers.1
    have habove' := above_entry hkey hfullTree hsorted
    have hempty : entries.isEmpty = trees.isEmpty := by cases hentries <;> rfl
    unfold changeChildren changeForest
    rw [hempty, hkey]
    split
    next hnone =>
      have hrest := ih hchange hfull hsortedTrees habove' hordered haccepts hpages
      cases hforest : changeForest treeChange trees mutations with
      | none =>
        rw [hforest] at hrest
        exact .bind_error hrest
      | some trees' =>
        rw [hforest] at hrest
        obtain ⟨entries', added, hgives, hplanned, hplaced, _, hcount⟩ := hrest
        refine ⟨_, added, hgives.bind (gives_pure _), .cons ⟨rfl, _, rfl, ?_⟩ hplanned,
          hplaced, trivial, ?_⟩
        · cases level <;> exact hrefers.2
        · rw [flatMap_cons, length_append, length_append]
          omega
    next hsome =>
      obtain ⟨_, node, hnode, hheld⟩ := hrefers
      set count := share trees.isEmpty (maxKey level tree) mutations
      have hread := readChild_gives hkey hnode hheld hfullTree hsortedTree habove.left
      have hfirst := htree node (mutations.take count) pages hheld
        (hordered.sublist (take_sublist count mutations))
        (fun mutation h => haccepts mutation (mem_of_mem_take h)) hpages
      cases hchanged : treeChange tree (mutations.take count) with
      | none =>
        rw [hchanged] at hfirst
        refine follows_none.mpr (hread.bind ?_)
        exact .bind_error hfirst
      | some changed =>
        rw [hchanged] at hfirst
        obtain ⟨first, added, hgives, hplanned, hplaced, _, hcount⟩ := hfirst
        have hrest := ih hchange hfull hsortedTrees habove'
          (hordered.sublist (drop_sublist count mutations))
          (fun mutation h => haccepts mutation (mem_of_mem_drop h)) hplaced
        rw [Option.bind_some]
        cases hforest : changeForest treeChange trees (mutations.drop count) with
        | none =>
          rw [hforest] at hrest
          refine follows_none.mpr (hread.bind ?_)
          refine hgives.bind ?_
          exact .bind_error hrest
        | some trees' =>
          rw [hforest] at hrest
          obtain ⟨rest, added', hgives', hplanned', hplaced', _, hcount'⟩ := hrest
          refine ⟨first ++ rest, added ++ added', ?_, ?_, ?_, trivial, ?_⟩
          · rw [← append_assoc]
            refine hread.bind ?_
            refine hgives.bind ?_
            exact hgives'.bind (gives_pure _)
          · rw [← append_assoc]
            exact rel_append (hplanned.imp fun _ _ h => h.append added') hplanned'
          · rwa [← append_assoc]
          · rw [flatMap_append, length_append, length_append,
              length_append, Nat.mul_add]
            omega

/-- Planning a batch follows the change of the tree. -/
theorem changeBatch_follows {node : Node} {tree : BTree level}
    (hheld : Held blake3 file snapshot level node tree) (htree : Changeable level tree)
    (hlevel : level ≤ maxLevel) (hsorted : Sorted Record.key (records level tree))
    (hholds : ∀ record ∈ records level tree, snapshot.layout.Holds record)
    {mutations : List Mutation} (hordered : Ordered mutations)
    (haccepts : ∀ mutation ∈ mutations, snapshot.layout.Accepts mutation)
    (hpages : AllPlaced blake3 file snapshot pages) :
    Follows blake3 file snapshot AllNew pages (records level tree).length level
      (changeBatch blake3 file snapshot level node mutations pages)
      (change snapshot level tree mutations) := by
  induction level generalizing node mutations pages with
  | zero =>
    cases (show node = _ from hheld)
    unfold changeBatch change
    rw [changeRecords_eq]
    cases hrun : recordEditing.run tree mutations with
    | none => exact .bind_error (gives_lift _)
    | some entries =>
      have hsorted' := Editing.sorted_run hsorted hrun
      have hholds' := holds_of_mem_run hholds haccepts hrun
      obtain ⟨result, added, hemit, hplanned, hplaced, hnew, hlength⟩ :=
        @emitPages_leaf blake3 file snapshot pages entries hsorted' hholds' hpages
      refine ⟨result, added, ?_, hplanned, hplaced, hnew, ?_⟩
      · refine (gives_lift (.ok entries)).bind ?_
        rw [hemit]
        exact gives_lift _
      · rw [hlength]
        refine le_trans ?_ (Nat.le_add_left _ _)
        have hpos : ∀ record, 0 < entryWidth snapshot 0 record := fun record =>
          lt_of_lt_of_le (minimumWidth_pos snapshot 0) (minimumWidth_le_entryWidth record)
        have hflatten := @length_flatten_pack_le _ _ pageRoom hpos entries
        rwa [← flatMap_id] at hflatten
  | succ level ih =>
    obtain ⟨hnode, hentries⟩ := held_succ.mp hheld
    obtain ⟨hne, hfull⟩ := htree.resolve_left (Nat.succ_ne_zero level)
    have hchildren := @changeChildren_follows blake3 file snapshot level
      (changeBatch blake3 file snapshot level) (change snapshot level) _ _ hentries ?_ hfull
      hsorted none (above_none _) mutations hordered haccepts pages hpages
    · unfold changeBatch change
      rw [hnode]
      cases hforest : changeForest (change snapshot level) tree mutations with
      | none =>
        rw [hforest] at hchildren
        exact .bind_error hchildren
      | some trees =>
        rw [hforest] at hchildren
        obtain ⟨entries, added, hgives, hplanned, hplaced, _, hcount⟩ := hchildren
        have hforest' := forest_changeForest snapshot ⟨⟨hne, hfull⟩, hlevel, hsorted, hholds⟩
          hordered haccepts hforest
        obtain ⟨result, added', hemit, hplanned', hplaced', hnew, _⟩ :=
          emitPages_branch hplanned hforest' hlevel hplaced
        refine ⟨result, added ++ added', ?_, ?_, ?_, hnew, ?_⟩
        · rw [← append_assoc]
          refine hgives.bind ?_
          simp [*, gives_lift]
        · rwa [← append_assoc]
        · rwa [← append_assoc]
        · rw [flatMap_pack, length_append, Nat.mul_add]
          omega
    · intro below hbelow node mutations pages hheld hordered haccepts hpages
      have hsub := sublist_records hbelow
      exact ih hheld (.inr (hfull below hbelow)) (Nat.le_of_succ_le hlevel)
        (hsorted.sublist hsub) (fun record hrecord => hholds record (hsub.mem hrecord)) hordered
        haccepts hpages

end Change

section Prepare

variable (blake3 : List UInt8 → Digest) (file : File) (snapshot : Snapshot)

structure PlanHolds (pages : List PlannedPage) (root : Option PageRef)
    (tree : (level : Nat) × BTree level) : Prop where
  placed : AllPlaced blake3 file snapshot pages
  root : (root = none ∧ tree = ⟨0, []⟩) ∨
    ∃ pageId, root = some (.new pageId) ∧ WellFormed snapshot.layout tree.1 tree.2 ∧
      Placed blake3 file snapshot pages tree.1 (.new pageId) tree.2

def GrowFollows (pages : List PlannedPage)
    (result : Result (List PlannedEntry × List PlannedPage)) :
    Option ((level : Nat) × BTree level) → Prop
  | none => result = .error (.invalid "tree depth exhausted")
  | some grown => ∃ entries added, result = .ok (entries, pages ++ added) ∧
      PlanHolds blake3 file snapshot (pages ++ added) (planRoot entries) grown

variable {blake3 file snapshot} {room level : Nat} {pages : List PlannedPage}

theorem growRoot_nil (hpages : AllPlaced blake3 file snapshot pages) :
    GrowFollows blake3 file snapshot pages (growRoot snapshot room level [] pages)
      (grow snapshot room level []) := by
  have hgrow : grow snapshot room level [] = some ⟨0, []⟩ := by cases room <;> rfl
  have hroot : growRoot snapshot room level [] pages = .ok ([], pages ++ []) := by
    rw [append_nil]
    cases room <;> rfl
  rw [hgrow]
  refine ⟨[], [], hroot, ?_, .inl ⟨rfl, rfl⟩⟩
  rwa [append_nil]

theorem growRoot_singleton {entry : PlannedEntry} {tree : BTree level}
    (hentry : Planned blake3 file snapshot pages level entry tree)
    (htree : WellFormed snapshot.layout level tree) (hpages : AllPlaced blake3 file snapshot pages)
    (hnew : AllNew [entry]) :
    GrowFollows blake3 file snapshot pages (growRoot snapshot room level [entry] pages)
      (grow snapshot room level [tree]) := by
  have hgrow : grow snapshot room level [tree] = some ⟨level, tree⟩ := by cases room <;> rfl
  have hroot : growRoot snapshot room level [entry] pages = .ok ([entry], pages ++ []) := by
    rw [append_nil]
    cases room <;> rfl
  obtain ⟨pageId, hvalue⟩ := hnew entry mem_cons_self
  obtain ⟨_, reference, hvalue', hplaced⟩ := hentry
  rw [hgrow]
  refine ⟨[entry], [], hroot, ?_, .inr ⟨pageId, ?_, htree, ?_⟩⟩
  · rwa [append_nil]
  · obtain ⟨key, value⟩ := entry
    cases hvalue
    rfl
  · grind

theorem growRoot_follows (hroom : level + room = maxLevel)
    {changed : List PlannedEntry} {trees : List (BTree level)}
    (hchanged : List.Forall₂ (Planned blake3 file snapshot pages level) changed trees)
    (htrees : Forest snapshot.layout level trees)
    (hpages : AllPlaced blake3 file snapshot pages) (hnew : AllNew changed) :
    GrowFollows blake3 file snapshot pages (growRoot snapshot room level changed pages)
      (grow snapshot room level trees) := by
  induction room generalizing level changed pages with
  | zero =>
    match hchanged with
    | .nil => exact growRoot_nil hpages
    | .cons hentry .nil =>
      exact growRoot_singleton hentry (htrees.wellFormed mem_cons_self) hpages hnew
    | .cons _ (.cons _ _) => exact rfl
  | succ room ih =>
    match hchanged with
    | .nil => exact growRoot_nil hpages
    | .cons hentry .nil =>
      exact growRoot_singleton hentry (htrees.wellFormed mem_cons_self) hpages hnew
    | .cons hfirst (.cons hsecond hrest) =>
      have hlevel : level + 1 ≤ maxLevel := by omega
      obtain ⟨entries, added, hemit, hplanned, hplaced, hnew', _⟩ :=
        emitPages_branch (.cons hfirst (.cons hsecond hrest)) htrees hlevel hpages
      have hgrown := ih (by omega) hplanned (htrees.pack snapshot hlevel) hplaced hnew'
      have hmany : ∀ {α : Type} (a b : α) (rest : List α), (a :: b :: rest).length > 1 :=
        fun _ _ rest => Nat.succ_lt_succ (Nat.succ_pos rest.length)
      rw [grow, growRoot, if_pos (hmany _ _ _), hemit, ok_bind]
      cases hgrow : grow snapshot room (level + 1) _ with
      | none =>
        rw [hgrow] at hgrown
        exact hgrown
      | some grown =>
        rw [hgrow] at hgrown
        obtain ⟨root, added', hroot, hholds⟩ := hgrown
        refine ⟨root, added ++ added', ?_, ?_⟩
        · simp [*]
        · rwa [← append_assoc]

/-- Preparing a batch follows the change of the tree that the snapshot holds. -/
theorem prepareBatch_follows {tree : (level : Nat) × BTree level}
    (h : Represents blake3 file snapshot tree) {mutations : List Mutation}
    (haccepts : ∀ mutation ∈ mutations, snapshot.layout.Accepts mutation) :
    match applyBatch snapshot tree mutations with
    | .error error =>
      Gives (Coherent blake3 file snapshot) (prepareBatch blake3 file snapshot mutations)
        (.error error)
    | .ok grown => ∃ plan,
        Gives (Coherent blake3 file snapshot) (prepareBatch blake3 file snapshot mutations)
          (.ok plan) ∧
        PlanHolds blake3 file snapshot plan.pages plan.root grown ∧
        (records grown.1 grown.2).length ≤
          (records tree.1 tree.2).length + pageRoom * plan.pages.length := by
  obtain ⟨node, hnode, hheld⟩ := h.rootNode_gives
  have hempty : AllPlaced blake3 file snapshot [] := by
    intro pageId page hpage
    cases hpage
  have haccepts' : ∀ mutation ∈ mutations.mergeSort fun a b => a.key ≤ b.key,
      snapshot.layout.Accepts mutation :=
    fun mutation hm => haccepts mutation (mem_mergeSort.mp hm)
  have hordered := ordered_mergeSort mutations
  have hchange := changeBatch_follows hheld h.changeable h.level_le h.sorted h.holds hordered
    haccepts' hempty
  unfold applyBatch prepareBatch
  cases hchanged : change snapshot tree.1 tree.2 (mutations.mergeSort fun a b => a.key ≤ b.key) with
  | none =>
    rw [hchanged] at hchange
    refine hnode.bind ?_
    rw [hheld.level_eq]
    exact .bind_error hchange
  | some trees =>
    rw [hchanged] at hchange
    obtain ⟨entries, added, hgives, hplanned, hplaced, hnew, hcount⟩ := hchange
    rw [nil_append] at hgives hplanned hplaced
    have hforest := forest_change snapshot h.changeable h.level_le h.sorted h.holds hordered
      haccepts' hchanged
    have hgrow := growRoot_follows (Nat.add_sub_cancel' h.level_le) hplanned hforest hplaced hnew
    dsimp only
    cases hgrown : grow snapshot (maxLevel - tree.1) tree.1 trees with
    | none =>
      rw [hgrown] at hgrow
      refine hnode.bind ?_
      rw [hheld.level_eq]
      refine hgives.bind ?_
      dsimp only
      rw [show growRoot _ _ _ _ _ = _ from hgrow]
      exact .bind_error (gives_lift _)
    | some grown =>
      rw [hgrown] at hgrow
      obtain ⟨root, added', hroot, hholds⟩ := hgrow
      refine ⟨⟨added ++ added', planRoot root⟩, ?_, hholds, ?_⟩
      · refine hnode.bind ?_
        rw [hheld.level_eq]
        refine hgives.bind ?_
        dsimp only
        rw [hroot]
        exact (gives_lift _).bind (gives_pure _)
      · rw [records_grow snapshot hgrown]
        refine hcount.trans (Nat.add_le_add_left (Nat.mul_le_mul_left pageRoom ?_) _)
        exact length_append.symm ▸ Nat.le_add_right _ _

end Prepare

end BriskDB.Isam
