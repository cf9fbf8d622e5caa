import BriskDB.Isam.Plan

/-!
# Writing plans

The page writes of a plan put the planned tree into any file that carries them and still
has the pages of the base snapshot. Nothing below the append position is overwritten.
-/

namespace BriskDB.Isam

open ByteOrder KeyedList Transparent BTree Result List

namespace File

def Carries (file : File) (writes : List (Nat × Page)) : Prop :=
  ∀ write ∈ writes, file.readExactAt write.1 = some write.2

/-- Every page between two offsets reads the same in a later file. -/
def AgreesOn (first limit : Nat) (file later : File) : Prop :=
  ∀ offset page, first ≤ offset → offset < limit → offset % pageBytes = 0 →
    file.readExactAt offset = some page → later.readExactAt offset = some page

theorem AgreesOn.refl (first limit : Nat) (file : File) : AgreesOn first limit file file :=
  fun _ _ _ _ _ h => h

variable {first : Nat} {file : File} {writes : List (Nat × Page)}
  {limit offset offset' : Nat} {later : File} {page : Page}

theorem AgreesOn.trans {a b c : File} (hab : AgreesOn first limit a b)
    (hbc : AgreesOn first limit b c) : AgreesOn first limit a c :=
  fun offset page hfirst hlt haligned hpage =>
    hbc offset page hfirst hlt haligned (hab offset page hfirst hlt haligned hpage)

theorem AgreesOn.mono {first' limit' : Nat}
    (h : AgreesOn first limit file later) (hfirst : first ≤ first') (hlimit : limit' ≤ limit) :
    AgreesOn first' limit' file later :=
  fun offset page hle hlt => h offset page (le_trans hfirst hle) (lt_of_lt_of_le hlt hlimit)

@[simp] theorem len_writeAllAt (file : File) (page : Page) (offset : Nat) :
    (file.writeAllAt page offset).len = max file.len (offset + pageBytes) := rfl

theorem readExactAt_eq_some :
    file.readExactAt offset = some page ↔
      offset + pageBytes ≤ file.len ∧ file.page (offset / pageBytes) = page := by
  unfold readExactAt
  split <;> simp_all

theorem readExactAt_writeAllAt_same (file : File) (page : Page) (offset : Nat) :
    (file.writeAllAt page offset).readExactAt offset = some page := by
  refine readExactAt_eq_some.mpr ⟨le_max_right _ _, ?_⟩
  exact Function.update_self _ _ _

theorem readExactAt_writeAllAt_other {page' : Page}
    (hne : offset' / pageBytes ≠ offset / pageBytes) (h : file.readExactAt offset' = some page') :
    (file.writeAllAt page offset).readExactAt offset' = some page' := by
  obtain ⟨hlen, hpage⟩ := readExactAt_eq_some.mp h
  refine readExactAt_eq_some.mpr ⟨le_trans hlen (le_max_left _ _), ?_⟩
  exact (Function.update_of_ne hne _ _).trans hpage

theorem readExactAt_writeAll_other
    (hne : ∀ write ∈ writes, offset / pageBytes ≠ write.1 / pageBytes)
    (h : file.readExactAt offset = some page) :
    (file.writeAll writes).readExactAt offset = some page := by
  induction writes generalizing file with
  | nil => exact h
  | cons write writes ih =>
    obtain ⟨hwrite, hwrites⟩ := forall_mem_cons.mp hne
    exact ih hwrites (readExactAt_writeAllAt_other hwrite h)

theorem carries_writeAll (file : File)
    (hdistinct : writes.Pairwise fun a b => a.1 / pageBytes ≠ b.1 / pageBytes) :
    (file.writeAll writes).Carries writes := by
  induction writes generalizing file with
  | nil => exact nofun
  | cons write writes ih =>
    obtain ⟨hwrite, hwrites⟩ := pairwise_cons.mp hdistinct
    refine forall_mem_cons.mpr ⟨?_, ih _ hwrites⟩
    exact @readExactAt_writeAll_other _ writes _ _ hwrite
      (readExactAt_writeAllAt_same file write.2 write.1)

theorem div_ne_of_lt (haligned : offset % pageBytes = 0)
    (haligned' : offset' % pageBytes = 0) (hlt : offset < offset') :
    offset / pageBytes ≠ offset' / pageBytes := by
  intro heq
  have hoffset := Nat.div_add_mod offset pageBytes
  have hoffset' := Nat.div_add_mod offset' pageBytes
  grind

theorem agreesOn_writeAll (file : File)
    (h : ∀ write ∈ writes, limit ≤ write.1 ∧ write.1 % pageBytes = 0) :
    AgreesOn first limit file (file.writeAll writes) := by
  intro offset page _ hlt haligned hpage
  refine readExactAt_writeAll_other ?_ hpage
  intro write hwrite
  obtain ⟨hle, haligned'⟩ := h write hwrite
  exact div_ne_of_lt haligned haligned' (lt_of_lt_of_le hlt hle)

theorem agreesOn_writeAllAt (file : File) (page : Page)
    (haligned : offset % pageBytes = 0) (hlt : offset < first) :
    AgreesOn first limit file (file.writeAllAt page offset) := by
  intro offset' page' hfirst _ haligned' hpage
  exact readExactAt_writeAllAt_other
    (div_ne_of_lt haligned haligned' (lt_of_lt_of_le hlt hfirst)).symm hpage

theorem agreesOn_setLen (file : File) {len : Nat} (h : file.len ≤ len) :
    AgreesOn first limit file (file.setLen len) := by
  intro offset page _ _ _ hpage
  obtain ⟨hlen, hpage⟩ := readExactAt_eq_some.mp hpage
  refine readExactAt_eq_some.mpr ⟨le_trans hlen h, ?_⟩
  have hlt : offset / pageBytes * pageBytes < len := by
    have := Nat.div_mul_le_self offset pageBytes
    have hpos : 0 < pageBytes := by decide
    omega
  exact (if_pos hlt).trans hpage

end File

section Agrees

variable {blake3 : List UInt8 → Digest} {file later : File} {base next : Snapshot}

theorem Held.extends {level : Nat} {node : Node} {tree : BTree level}
    (h : Held blake3 file base level node tree) (hextends : base.Extends next)
    (hagrees : File.AgreesOn (dataStart base.formatVersion) base.end_ file later) :
    Held blake3 later next level node tree := by
  induction level generalizing node with
  | zero => exact h
  | succ level ih =>
    refine ⟨h.1, h.2.imp ?_⟩
    rintro entry below ⟨hkey, node', hnode, hheld⟩
    obtain ⟨⟨hstart, hend, haligned⟩, page, hpage, hdecode⟩ := readNode_eq_ok.mp hnode
    refine ⟨hkey, node', ?_, ih hheld⟩
    refine readNode_extends hextends ?_ hnode
    rw [hpage, hagrees _ page hstart hend haligned hpage]

theorem Stored.extends {level offset : Nat} {tree : BTree level}
    (h : Stored blake3 file base level offset tree) (hextends : base.Extends next)
    (hagrees : File.AgreesOn (dataStart base.formatVersion) base.end_ file later) :
    Stored blake3 later next level offset tree := by
  obtain ⟨node, hnode, hheld⟩ := h
  obtain ⟨⟨hstart, hend, haligned⟩, page, hpage, hdecode⟩ := readNode_eq_ok.mp hnode
  refine ⟨node, ?_, hheld.extends hextends hagrees⟩
  refine readNode_extends hextends ?_ hnode
  rw [hpage, hagrees _ page hstart hend haligned hpage]

end Agrees

/-- The offset a reference resolves to when the planned pages start at `start`. -/
def PageRef.offset (start : Nat) : PageRef → Nat
  | .existing offset => offset
  | .new pageId => start + pageId * pageBytes

def PlannedValue.resolved (start : Nat) : PlannedValue → List UInt8
  | .inline value => value
  | .child reference => Bytes.ofLe 8 (reference.offset start)

def PlannedEntry.resolved (start : Nat) (entry : PlannedEntry) : Record :=
  ⟨entry.key, entry.value.resolved start⟩

theorem planOffsets_getElem? {start count pageId : Nat} (h : pageId < count) :
    (planOffsets start count)[pageId]? = some (start + pageId * pageBytes) := by
  rw [planOffsets, getElem?_map, getElem?_range h, Option.map_some]

theorem resolve_planOffsets {start count : Nat} {reference : PageRef}
    (h : ∀ pageId, reference = .new pageId → pageId < count) :
    resolve (planOffsets start count) reference = .ok (reference.offset start) := by
  cases reference with
  | existing offset => rfl
  | new pageId => rw [resolve, planOffsets_getElem? (h pageId rfl)]; rfl

theorem resolveEntries_eq {next : Snapshot} {level start count entryStart : Nat}
    {entries : List PlannedEntry} {width : Record → Nat}
    (hwidth : ∀ entry ∈ entries, plannedWidth next level entry = .ok (width (entry.resolved start)))
    (hkey : ∀ entry ∈ entries, entry.key.length = next.layout.keyBytes)
    (hvalue : ∀ entry ∈ entries, resolveValue level (planOffsets start count) entry.value =
      .ok (entry.value.resolved start))
    (hused : entryStart + Packing.used width (entries.map (·.resolved start)) ≤ checksumStart) :
    resolveEntries next level (planOffsets start count) entryStart entries =
      .ok (entries.map (·.resolved start)) := by
  induction entries generalizing entryStart with
  | nil => rfl
  | cons entry entries ih =>
    obtain ⟨hwidthHead, hwidth⟩ := forall_mem_cons.mp hwidth
    obtain ⟨hkeyHead, hkey⟩ := forall_mem_cons.mp hkey
    obtain ⟨hvalueHead, hvalue⟩ := forall_mem_cons.mp hvalue
    rw [map_cons, Packing.used, map_cons, sum_cons, ← Packing.used,
      ← Nat.add_assoc] at hused
    have hfits : ¬ (entryStart + width (entry.resolved start) > checksumStart ∨
        entry.key.length ≠ next.layout.keyBytes) := by
      rintro (h | h)
      · omega
      · exact h hkeyHead
    rw [resolveEntries, hwidthHead, ok_bind, if_neg hfits, hvalueHead, ok_bind,
      ih hwidth hkey hvalue hused]
    rfl

section Pages

variable {blake3 : List UInt8 → Digest} {file : File} {base next : Snapshot}
  {pages : List PlannedPage} {start : Nat}

/-- Where the pages of a plan may go: page boundaries behind the committed end. -/
structure Reserved (base next : Snapshot) (start count : Nat) : Prop where
  formatVersion_eq : next.formatVersion = base.formatVersion
  layout_eq : next.layout = base.layout
  dataStart_le : dataStart base.formatVersion ≤ base.end_
  end_le : base.end_ ≤ start
  aligned : start % pageBytes = 0
  bounded : start + count * pageBytes ≤ i64Max

variable {pageId level : Nat}
  {count offset : Nat} {tree : BTree level} {reference : PageRef} {later : File}

theorem Reserved.offset_lt (h : Reserved base next start count)
    (hlt : pageId < count) : start + pageId * pageBytes < 2 ^ 64 := by
  have hbounded := h.bounded
  have hmul : pageId * pageBytes ≤ count * pageBytes := Nat.mul_le_mul_right _ hlt.le
  have h64 : i64Max < 2 ^ 64 := by decide
  omega

theorem child_ofLe {key : List UInt8} (h : offset < 2 ^ 64) :
    child ⟨key, Bytes.ofLe 8 offset⟩ = offset := by
  have hread := @u64At_zero [] offset h
  rw [append_nil] at hread
  exact hread

theorem Stored.offset_spec (h : Stored blake3 file base level offset tree) :
    dataStart base.formatVersion ≤ offset ∧ offset < base.end_ ∧ offset % pageBytes = 0 := by
  obtain ⟨node, hnode, _⟩ := h
  exact (readNode_eq_ok.mp hnode).1

theorem Placed.existing :
    Placed blake3 file base pages level (.existing offset) tree ↔
      Stored blake3 file base level offset tree := by
  cases level <;> rfl

theorem Placed.new_lt
    (h : Placed blake3 file base pages level (.new pageId) tree) : pageId < pages.length := by
  cases level with
  | zero => exact (List.getElem?_eq_some_iff.mp h.1).1
  | succ level =>
    obtain ⟨_, _, hpage, _⟩ := h
    exact (List.getElem?_eq_some_iff.mp hpage).1

/-- A reference from page `pageId` of a plan resolves to an earlier page of the file. -/
theorem Placed.pointer_spec (h : Placed blake3 file base pages level reference tree)
    (hreserved : Reserved base next start pages.length)
    (hearlier : ∀ id, reference = .new id → id < pageId) :
    dataStart base.formatVersion ≤ reference.offset start ∧
      reference.offset start < start + pageId * pageBytes ∧
      reference.offset start % pageBytes = 0 := by
  have hstart := hreserved.dataStart_le
  have hend := hreserved.end_le
  have haligned := hreserved.aligned
  cases reference with
  | existing offset =>
    obtain ⟨hle, hlt, hoffset⟩ := (Placed.existing.mp h).offset_spec
    exact ⟨hle, by simp only [PageRef.offset]; omega, hoffset⟩
  | new id =>
    have hid := hearlier id rfl
    simp only [PageRef.offset, pageBytes] at haligned ⊢
    omega

theorem sorted_maxKey {ε : Type} {key : ε → List UInt8} {entries : List ε}
    {trees : List (BTree level)}
    (h : List.Forall₂ (fun entry tree => key entry = maxKey level tree) entries trees)
    (htrees : Forest base.layout level trees) : Sorted key entries := by
  induction h with
  | nil => exact List.Pairwise.nil
  | @cons entry tree entries trees hentry hrest ih =>
    obtain ⟨hfull, hfulls⟩ := forall_mem_cons.mp htrees.full
    have hsorted := htrees.sorted
    rw [flatMap_cons] at hsorted
    obtain ⟨hhead, htail, hcross⟩ := sorted_append.mp hsorted
    have hforest : Forest base.layout level trees :=
      ⟨hfulls, htrees.level_le, htail, fun record hrecord => htrees.holds record (by
        simp [*])⟩
    refine sorted_cons.mpr ⟨?_, ih hforest⟩
    intro other hother
    obtain ⟨tree', htree', hkey⟩ := exists_of_forall₂ hrest hother
    obtain ⟨⟨record, hrecord, hrecordKey⟩, _⟩ := hfull.maxKey_spec hhead
    obtain ⟨⟨record', hrecord', hrecordKey'⟩, _⟩ :=
      (hfulls tree' htree').maxKey_spec (htail.sublist (sublist_records htree'))
    grind

theorem length_maxKey (h : WellFormed base.layout level tree) :
    (maxKey level tree).length = base.layout.keyBytes := by
  obtain ⟨⟨record, hrecord, hkey⟩, _⟩ := h.full.maxKey_spec h.sorted
  rw [← hkey]
  exact (h.holds record hrecord).1

/-- A page of a plan resolves to entries that fit into its place. -/
def PageResolves (next : Snapshot) (start count offset : Nat) (page : PlannedPage) : Prop :=
  resolveEntries next page.level (planOffsets start count) pagePrefix page.entries =
      .ok (page.entries.map (·.resolved start)) ∧
    PageFits next offset page.level (page.entries.map (·.resolved start))

theorem entryWidth_eq (h : Reserved base next start pages.length) (level : Nat) :
    entryWidth next level = entryWidth base level := by
  funext entry
  unfold entryWidth packedLeaf
  rw [h.formatVersion_eq, h.layout_eq]

theorem map_resolved_plannedRecord (start : Nat) (entries : List Record) :
    (entries.map plannedRecord).map (·.resolved start) = entries := by
  rw [map_map]
  exact map_id entries

theorem leaf_resolves {entries : List Record}
    (hreserved : Reserved base next start pages.length) (htree : WellFormed base.layout 0 entries)
    (hroom : Packing.used (entryWidth base 0) entries ≤ pageRoom) :
    PageResolves next start pages.length offset ⟨0, entries.map plannedRecord⟩ := by
  have hholds : ∀ record ∈ entries, next.layout.Holds record := by
    rw [hreserved.layout_eq]
    exact htree.holds
  rw [← entryWidth_eq hreserved] at hroom
  refine ⟨?_, ?_⟩
  · refine @resolveEntries_eq next 0 start pages.length pagePrefix _ (entryWidth next 0) ?_ ?_ ?_ ?_
    · intro entry hentry
      obtain ⟨record, hrecord, rfl⟩ := mem_map.mp hentry
      exact plannedWidth_record (hholds record hrecord)
    · intro entry hentry
      obtain ⟨record, hrecord, rfl⟩ := mem_map.mp hentry
      exact (hholds record hrecord).1
    · intro entry hentry
      obtain ⟨record, hrecord, rfl⟩ := mem_map.mp hentry
      rfl
    · rw [map_resolved_plannedRecord]
      exact Nat.add_le_of_le_sub' (by decide) hroom
  · dsimp only
    rw [map_resolved_plannedRecord]
    exact ⟨Nat.zero_le _, htree.full, fun record hrecord => hholds record hrecord, htree.sorted,
      hroom⟩

/-- What the entries of a planned branch refer to. -/
def PlannedBelow (blake3 : List UInt8 → Digest) (file : File) (base : Snapshot)
    (pages : List PlannedPage) (pageId level : Nat) (entry : PlannedEntry) (tree : BTree level) :
    Prop :=
  entry.key = maxKey level tree ∧
    ∃ below, entry.value = .child below ∧ (∀ id, below = .new id → id < pageId) ∧
      Placed blake3 file base pages level below tree

theorem entryWidth_succ (snapshot : Snapshot) (level : Nat) (entry : Record) :
    entryWidth snapshot (level + 1) entry = stride snapshot.layout (level + 1) := by
  unfold entryWidth packedLeaf
  simp

theorem branch_resolves {entries : List PlannedEntry}
    {children : List (BTree level)} (hreserved : Reserved base next start pages.length)
    (hpageId : pageId < pages.length) (htree : WellFormed base.layout (level + 1) children)
    (hroom : children.length * stride base.layout (level + 1) ≤ pageRoom)
    (hentries : List.Forall₂ (PlannedBelow blake3 file base pages pageId level) entries children) :
    PageResolves next start pages.length (start + pageId * pageBytes) ⟨level + 1, entries⟩ := by
  have hbounded := hreserved.offset_lt hpageId
  have hspec : ∀ entry ∈ entries, entry.key.length = next.layout.keyBytes ∧
      ∃ below : PageRef, entry.value = .child below ∧ (∀ id, below = .new id → id < pageId) ∧
        dataStart base.formatVersion ≤ below.offset start ∧
        below.offset start < start + pageId * pageBytes ∧
        below.offset start % pageBytes = 0 := by
    intro entry hentry
    obtain ⟨tree, hmem, hkey, below, hvalue, hearlier, hplaced⟩ := exists_of_forall₂ hentries hentry
    refine ⟨?_, below, hvalue, hearlier, hplaced.pointer_spec hreserved hearlier⟩
    rw [hkey, hreserved.layout_eq, length_maxKey (htree.forest.wellFormed hmem)]
  have hused : Packing.used (entryWidth next (level + 1)) (entries.map (·.resolved start)) ≤
      pageRoom := by
    rw [Packing.used, map_map]
    have hconst : entryWidth next (level + 1) ∘ (·.resolved start) =
        fun _ : PlannedEntry => stride base.layout (level + 1) := by
      funext entry
      rw [Function.comp_apply, entryWidth_succ, hreserved.layout_eq]
    rw [hconst, map_const', sum_replicate, smul_eq_mul, hentries.length_eq]
    exact hroom
  refine ⟨?_, Nat.succ_le_of_lt htree.level_le, ?_, ?_, ?_, hused⟩
  · refine @resolveEntries_eq next (level + 1) start pages.length pagePrefix entries
      (entryWidth next (level + 1)) ?_ (fun entry hentry => (hspec entry hentry).1) ?_ ?_
    · intro entry hentry
      grind [plannedWidth, entryWidth_succ]
    · intro entry hentry
      obtain ⟨_, below, hvalue, hearlier, _⟩ := hspec entry hentry
      rw [hvalue, resolveValue, if_pos (Nat.succ_ne_zero level),
        resolve_planOffsets fun id hid => lt_trans (hearlier id hid) hpageId]
      rfl
    · exact Nat.add_le_of_le_sub' (by decide) hused
  · have hne : entries ≠ [] := by
      rintro rfl
      cases hentries
      exact htree.full.1 rfl
    simpa using hne
  · intro record hrecord
    obtain ⟨entry, hentry, rfl⟩ := mem_map.mp hrecord
    obtain ⟨hkey, below, hvalue, _, hstart, hlt, haligned⟩ := hspec entry hentry
    refine ⟨hkey, ?_⟩
    rw [if_neg (Nat.succ_ne_zero level)]
    refine ⟨below.offset start, ?_, lt_trans hlt hbounded, ?_, hlt, haligned⟩
    · rw [PlannedEntry.resolved, hvalue]
      rfl
    · rw [hreserved.formatVersion_eq]
      exact hstart
  · refine sorted_maxKey (forall₂_map_left_iff.mpr (hentries.imp ?_)) htree.forest
    exact fun entry tree h => h.1

theorem Placed.resolves (h : Placed blake3 file base pages level (.new pageId) tree)
    (htree : WellFormed base.layout level tree)
    (hreserved : Reserved base next start pages.length) :
    ∃ page, pages[pageId]? = some page ∧
      PageResolves next start pages.length (start + pageId * pageBytes) page := by
  have hlt := h.new_lt
  cases level with
  | zero => exact ⟨_, h.1, leaf_resolves hreserved htree h.2⟩
  | succ level =>
    obtain ⟨hroom, entries, hpage, hentries⟩ := h
    exact ⟨_, hpage, branch_resolves hreserved hlt htree hroom hentries⟩

def plannedWrite (blake3 : List UInt8 → Digest) (next : Snapshot) (start : Nat)
    (page : PlannedPage × Nat) : Nat × Page :=
  (page.2, pageImage blake3 next page.2 page.1.level (page.1.entries.map (·.resolved start)))

theorem planWrites_eq {placed : List (PlannedPage × Nat)}
    (h : ∀ page ∈ placed, PageResolves next start count page.2 page.1) :
    planWrites blake3 next (planOffsets start count) placed =
      .ok (placed.map (plannedWrite blake3 next start)) := by
  induction placed with
  | nil => rfl
  | cons page placed ih =>
    obtain ⟨hpage, hplaced⟩ := forall_mem_cons.mp h
    obtain ⟨page, offset⟩ := page
    rw [planWrites, hpage.1, ok_bind, ih hplaced]
    rfl

theorem mem_zip_planOffsets {page : PlannedPage} :
    (page, offset) ∈ pages.zip (planOffsets start pages.length) ↔
      ∃ pageId, pages[pageId]? = some page ∧ offset = start + pageId * pageBytes := by
  rw [mem_iff_getElem?]
  refine exists_congr fun pageId => ?_
  rw [getElem?_zip_eq_some]
  refine and_congr_right fun hpage => ?_
  rw [planOffsets_getElem? (List.getElem?_eq_some_iff.mp hpage).1, Option.some_inj]
  exact eq_comm

theorem AllPlaced.resolves (h : AllPlaced blake3 file base pages)
    (hreserved : Reserved base next start pages.length) :
    ∀ page ∈ pages.zip (planOffsets start pages.length),
      PageResolves next start pages.length page.2 page.1 := by
  rintro ⟨page, offset⟩ hmem
  obtain ⟨pageId, hpage, rfl⟩ := mem_zip_planOffsets.mp hmem
  obtain ⟨level, tree, htree, hplaced⟩ := h pageId page hpage
  obtain ⟨page', hpage', hresolves⟩ := hplaced.resolves htree hreserved
  grind

def plannedWrites (blake3 : List UInt8 → Digest) (next : Snapshot) (start : Nat)
    (pages : List PlannedPage) : List (Nat × Page) :=
  (pages.zip (planOffsets start pages.length)).map (plannedWrite blake3 next start)

theorem of_mem_plannedWrites (hreserved : Reserved base next start pages.length)
    {write : Nat × Page} (h : write ∈ plannedWrites blake3 next start pages) :
    start ≤ write.1 ∧ write.1 + pageBytes ≤ start + pages.length * pageBytes ∧
      write.1 % pageBytes = 0 := by
  obtain ⟨⟨page, offset⟩, hmem, rfl⟩ := List.mem_map.mp h
  obtain ⟨pageId, hpage, rfl⟩ := mem_zip_planOffsets.mp hmem
  have hlt := (List.getElem?_eq_some_iff.mp hpage).1
  have hmul : (pageId + 1) * pageBytes ≤ pages.length * pageBytes := Nat.mul_le_mul_right _ hlt
  have haligned := hreserved.aligned
  simp only [plannedWrite, pageBytes] at haligned hmul ⊢
  omega

theorem plannedWrites_distinct (hreserved : Reserved base next start pages.length) :
    (plannedWrites blake3 next start pages).Pairwise
      fun a b => a.1 / pageBytes ≠ b.1 / pageBytes := by
  have hoffsets : (plannedWrites blake3 next start pages).map Prod.fst =
      planOffsets start pages.length := by
    rw [plannedWrites, map_map]
    exact map_snd_zip (by simp [planOffsets])
  have haligned := hreserved.aligned
  have hdistinct : (planOffsets start pages.length).Pairwise
      fun a b => a / pageBytes ≠ b / pageBytes := by
    refine pairwise_map.mpr (nodup_range.imp ?_)
    intro a b hne
    simp only [pageBytes] at haligned ⊢
    omega
  rw [← hoffsets, pairwise_map] at hdistinct
  exact hdistinct

/-- A file with the pages of the base snapshot and the writes of the plan has the tree. -/
theorem Placed.stored {final : Snapshot} (h : Placed blake3 file base pages level reference tree)
    (htree : WellFormed base.layout level tree)
    (hreserved : Reserved base next start pages.length) (hextends : base.Extends final)
    (hnext : next.Extends final) (hpos : next.generation ≠ 0)
    (hgeneration : next.generation < 2 ^ 64) (hend : start + pages.length * pageBytes ≤ final.end_)
    (hagrees : File.AgreesOn (dataStart base.formatVersion) base.end_ file later)
    (hcarries : later.Carries (plannedWrites blake3 next start pages)) :
    Stored blake3 later final level (reference.offset start) tree := by
  have hnode : ∀ {level pageId} {tree : BTree level},
      Placed blake3 file base pages level (.new pageId) tree →
        WellFormed base.layout level tree → ∃ page, pages[pageId]? = some page ∧
          readNode blake3 later final (start + pageId * pageBytes) =
            .ok ⟨page.level, page.entries.map (·.resolved start)⟩ := by
    intro level pageId tree hplaced htree
    obtain ⟨page, hpage, hresolves⟩ := hplaced.resolves htree hreserved
    have hmem : plannedWrite blake3 next start (page, start + pageId * pageBytes) ∈
        plannedWrites blake3 next start pages :=
      mem_map_of_mem (mem_zip_planOffsets.mpr ⟨pageId, hpage, rfl⟩)
    obtain ⟨hstart, hstop, haligned⟩ := of_mem_plannedWrites hreserved hmem
    have hread := hcarries _ hmem
    have hle := hreserved.end_le
    have hdata := hreserved.dataStart_le
    have hbytes : 0 < pageBytes := by decide
    simp only [plannedWrite] at hstart hstop haligned hread
    refine ⟨page, hpage, readNode_eq_ok.mpr ⟨⟨?_, by omega, haligned⟩, _, hread, ?_⟩⟩
    · rw [hextends.formatVersion_eq]
      omega
    · exact decodeNode_extends hnext
        (decodeNode_pageImage hresolves.2 (hreserved.offset_lt hplaced.new_lt) hgeneration hpos)
  induction level generalizing reference with
  | zero =>
    cases reference with
    | existing offset => exact h.extends hextends hagrees
    | new pageId =>
      obtain ⟨page, hpage, hread⟩ := hnode h htree
      cases hpage.symm.trans h.1
      refine ⟨_, hread, ?_⟩
      simp only [map_resolved_plannedRecord, Held]
  | succ level ih =>
    cases reference with
    | existing offset => exact Stored.extends h hextends hagrees
    | new pageId =>
      obtain ⟨page, hpage, hread⟩ := hnode h htree
      have hplanned := h.new_lt
      obtain ⟨_, entries, hpage', hentries⟩ := h
      cases hpage.symm.trans hpage'
      refine ⟨_, hread, rfl, forall₂_map_left_iff.mpr ?_⟩
      refine forall₂_imp_mem hentries ?_
      rintro entry below hbelow ⟨hkey, reference, hvalue, hearlier, hplaced⟩
      have hpointer := hplaced.pointer_spec hreserved hearlier
      have hstored := ih hplaced (htree.forest.wellFormed hbelow)
      refine ⟨hkey, ?_⟩
      rw [PlannedEntry.resolved, hvalue, PlannedValue.resolved,
        child_ofLe (lt_trans hpointer.2.1 (hreserved.offset_lt hplanned))]
      exact hstored

theorem resolveRoot_planOffsets {root : Option PageRef}
    (h : root = none ∨ ∃ pageId, root = some (.new pageId) ∧ pageId < count) :
    resolveRoot (planOffsets start count) root =
      .ok ((root.map (PageRef.offset start)).getD 0) := by
  rcases h with rfl | ⟨pageId, rfl, hlt⟩
  · rfl
  · rw [resolveRoot, planOffsets_getElem? hlt]
    rfl

def plannedSnapshot (next : Snapshot) (start : Nat) (plan : BatchPlan) : Snapshot :=
  { next with
    root := (plan.root.map (PageRef.offset start)).getD 0
    end_ := start + plan.pages.length * pageBytes }

variable {plan : BatchPlan} {tree : (level : Nat) × BTree level}

theorem writePlan_eq (h : PlanHolds blake3 file base plan.pages plan.root tree)
    (hreserved : Reserved base next start plan.pages.length) (hend : next.end_ = base.end_)
    (hempty : plan.pages = [] → start = base.end_) :
    writePlan blake3 base next start plan =
      .ok (plannedWrites blake3 next start plan.pages, plannedSnapshot next start plan) := by
  have hroot : plan.root = none ∨
      ∃ pageId, plan.root = some (.new pageId) ∧ pageId < plan.pages.length :=
    h.root.imp And.left fun ⟨pageId, hroot, _, hplaced⟩ => ⟨pageId, hroot, hplaced.new_lt⟩
  unfold writePlan
  by_cases hpages : plan.pages = []
  · have hnone : plan.root = none := by
      rcases hroot with hroot | ⟨pageId, _, hlt⟩
      · exact hroot
      · grind
    simp [*, plannedWrites, plannedSnapshot]
  · have hbounded := hreserved.bounded
    have h64 : i64Max < 2 ^ 64 := by decide
    have hplace : ¬ (start < base.end_ ∨ start % pageBytes ≠ 0) := by
      rintro (hlt | hne)
      · exact absurd hreserved.end_le (Nat.not_le.mpr hlt)
      · exact hne hreserved.aligned
    rw [if_neg hpages, if_neg hplace, if_neg (by omega), if_neg (by omega)]
    simp only [planWrites_eq (h.placed.resolves hreserved), resolveRoot_planOffsets hroot]
    rfl

/-- A file that keeps the base snapshot's pages and carries the writes represents the plan. -/
theorem PlanHolds.represents (h : PlanHolds blake3 file base plan.pages plan.root tree)
    (hreserved : Reserved base next start plan.pages.length)
    (hle : base.generation ≤ next.generation) (hpos : next.generation ≠ 0)
    (hgeneration : next.generation < 2 ^ 64) (hend : next.end_ = base.end_)
    (hagrees : File.AgreesOn (dataStart base.formatVersion) base.end_ file later)
    (hcarries : later.Carries (plannedWrites blake3 next start plan.pages)) :
    Represents blake3 later (plannedSnapshot next start plan) tree := by
  have hstart : base.end_ ≤ start + plan.pages.length * pageBytes :=
    le_trans hreserved.end_le (Nat.le_add_right _ _)
  have hextends : base.Extends (plannedSnapshot next start plan) :=
    ⟨hreserved.formatVersion_eq, hreserved.layout_eq, hle, hstart⟩
  have hnext : next.Extends (plannedSnapshot next start plan) :=
    ⟨rfl, rfl, le_rfl, by rw [hend]; exact hstart⟩
  have hlayout : (plannedSnapshot next start plan).layout = base.layout := hreserved.layout_eq
  rcases h.root with ⟨hroot, rfl⟩ | ⟨pageId, hroot, htree, hplaced⟩
  · refine ⟨.inl ⟨?_, rfl⟩, Nat.zero_le _, List.Pairwise.nil, nofun⟩
    rw [plannedSnapshot, hroot]
    rfl
  · have hstored := hplaced.stored htree hreserved hextends hnext hpos hgeneration le_rfl hagrees
      hcarries
    have hoffset : (plannedSnapshot next start plan).root = start + pageId * pageBytes := by
      rw [plannedSnapshot, hroot]
      rfl
    refine ⟨.inr ⟨?_, htree.full, ?_⟩, htree.level_le, htree.sorted, ?_⟩
    · have hdata := hstored.offset_spec.1
      have hpositive : ∀ version, 0 < dataStart version := by
        intro version
        cases version <;> decide
      grind [PageRef.offset]
    · rw [hoffset]
      exact hstored
    · rw [hlayout]
      exact htree.holds

end Pages

end BriskDB.Isam
