import BriskDB.Lib.Transparent
import BriskDB.Isam.BTree

/-!
# Trees in a file

When the pages of a snapshot hold a tree, lookups, ranges and verification return what
the records of the tree say, with or without a cache, and never report corruption.
-/

namespace BriskDB.Isam

open ByteOrder KeyedList Transparent BTree List Option

section Held

variable (blake3 : List UInt8 → Digest) (file : File) (snapshot : Snapshot)

/-- A node and the pages below it hold a tree. -/
def Held : (level : Nat) → Node → BTree level → Prop
  | 0, node, entries => node = ⟨0, entries⟩
  | level + 1, node, children =>
    node.level = level + 1 ∧
      List.Forall₂ (fun entry tree => entry.key = maxKey level tree ∧
        ∃ below, readNode blake3 file snapshot (child entry) = .ok below ∧
          Held level below tree) node.entries children

def Stored (level offset : Nat) (tree : BTree level) : Prop :=
  ∃ node, readNode blake3 file snapshot offset = .ok node ∧
    Held blake3 file snapshot level node tree

def Refers (level : Nat) (entry : Record) (tree : BTree level) : Prop :=
  entry.key = maxKey level tree ∧ Stored blake3 file snapshot level (child entry) tree

end Held

section Cache

variable (blake3 : List UInt8 → Digest) (file : File) (snapshot : Snapshot)

def Coherent (cache : Option CachedPages) : Prop :=
  ∀ pages ∈ cache, ∀ page ∈ pages.pages, readNode blake3 file snapshot page.1 = .ok page.2

variable {blake3 file snapshot}

theorem mem_of_mem_evict {bytes : Nat} {pages : List (Nat × Node)} {page : Nat × Node}
    (h : page ∈ evict bytes pages) : page ∈ pages := by
  induction pages with
  | nil => exact h
  | cons victim pages ih =>
    grind [evict]

theorem Coherent.admitPage {cache : Option CachedPages} (h : Coherent blake3 file snapshot cache)
    {offset : Nat} {node : Node} (hnode : readNode blake3 file snapshot offset = .ok node) :
    Coherent blake3 file snapshot (cache.map (·.admitPage offset node)) := by
  intro pages hpages page hpage
  obtain ⟨pages, hcache, rfl⟩ := mem_map.mp hpages
  unfold CachedPages.admitPage at hpage
  split at hpage
  · rcases mem_append.mp hpage with hpage | hpage
    · exact h pages hcache page (mem_of_mem_evict hpage)
    · grind
  · exact h pages hcache page hpage

/-- A cached read returns what an uncached one does. -/
theorem cachedNode_gives {offset : Nat} {result : Result Node}
    (hresult : readNode blake3 file snapshot offset = result) :
    Gives (Coherent blake3 file snapshot) (cachedNode blake3 file snapshot offset) result := by
  have hrun : ∀ cache, Coherent blake3 file snapshot cache →
      (∃ node, result = .ok node ∧ cachedNode blake3 file snapshot offset cache = .ok
        (node, cache)) ∨
      cachedNode blake3 file snapshot offset cache =
        result.map fun node => (node, cache.map (·.admitPage offset node)) := by
    intro cache hcache
    unfold cachedNode
    cases hget : cache.bind (·.get offset) with
    | none =>
      right
      rw [hresult]
      cases result <;> rfl
    | some node =>
      left
      refine ⟨node, ?_, rfl⟩
      obtain ⟨pages, hpages, hget⟩ := bind_eq_some_iff.mp hget
      obtain ⟨page, hpage, rfl⟩ := map_eq_some_iff.mp hget
      have hoffset := find?_some hpage
      rw [← hresult, ← of_decide_eq_true hoffset]
      exact hcache pages hpages page (mem_of_find?_eq_some hpage)
  cases result with
  | ok node =>
    intro cache hcache
    rcases hrun cache hcache with ⟨node', heq, h⟩ | h
    · grind
    · exact ⟨_, hcache.admitPage hresult, h⟩
  | error error =>
    intro cache hcache
    rcases hrun cache hcache with ⟨node', heq, h⟩ | h
    · cases heq
    · exact h

end Cache

theorem exists_of_forall₂ {α β : Type} {r : α → β → Prop} {left : List α} {right : List β}
    (h : List.Forall₂ r left right) {a : α} (ha : a ∈ left) : ∃ b ∈ right, r a b := by
  induction h with
  | nil => cases ha
  | cons hab _ ih =>
    grind

section Nodes

variable {blake3 : List UInt8 → Digest} {file : File} {snapshot : Snapshot} {level : Nat}
  {node : Node} {tree : BTree level}

theorem held_succ {children : List (BTree level)} :
    Held blake3 file snapshot (level + 1) node children ↔
      node.level = level + 1 ∧
        List.Forall₂ (Refers blake3 file snapshot level) node.entries children :=
  Iff.rfl

theorem Held.level_eq (h : Held blake3 file snapshot level node tree) : node.level = level := by
  cases level with
  | zero => rw [show node = _ from h]
  | succ level => exact h.1

/-- The entries of a node are the records, or the maximum keys of the subtrees. -/
theorem Held.key_entry (h : Held blake3 file snapshot level node tree) (hfull : Full level tree)
    (hsorted : Sorted Record.key (records level tree)) :
    ∀ entry ∈ node.entries, ∃ record ∈ records level tree, record.key = entry.key := by
  intro entry hentry
  cases level with
  | zero =>
    cases (show node = _ from h)
    exact ⟨entry, hentry, rfl⟩
  | succ level =>
    obtain ⟨_, hentries⟩ := held_succ.mp h
    obtain ⟨below, hbelow, hkey, _⟩ := exists_of_forall₂ hentries hentry
    have hsub := sublist_records hbelow
    obtain ⟨⟨record, hrecord, hmax⟩, _⟩ :=
      (hfull.2 below hbelow).maxKey_spec (hsorted.sublist hsub)
    exact ⟨record, hsub.mem hrecord, hmax.trans hkey.symm⟩

def Above (previous : Option Record) (entries : List Record) : Prop :=
  ∀ entry ∈ previous, ∀ record ∈ entries, entry.key < record.key

theorem above_none (entries : List Record) : Above none entries := by
  intro entry hentry
  cases hentry

theorem Held.key_last (h : Held blake3 file snapshot level node tree) (hfull : Full level tree) :
    node.entries.getLast?.map Record.key = some (maxKey level tree) := by
  cases level with
  | zero =>
    cases (show node = _ from h)
    have hne : tree ≠ [] := hfull
    simp [maxKey, records, getLast?_eq_some_getLast hne]
  | succ level => exact getLast?_maxKey (fun _ _ h => h.1) (held_succ.mp h).2 hfull.1 hfull.2

variable {entry : Record} {previous : Option Record}

theorem above_entry (hkey : entry.key = maxKey level tree)
    (hfull : Full level tree) {following : List Record}
    (hsorted : Sorted Record.key (records level tree ++ following)) :
    Above (some entry) following := by
  obtain ⟨hsortedTree, _, hlt⟩ := sorted_append.mp hsorted
  obtain ⟨⟨top, htop, hmax⟩, _⟩ := hfull.maxKey_spec hsortedTree
  rintro _ ⟨⟩ record hrecord
  grind

theorem Above.left {before after : List Record}
    (h : Above previous (before ++ after)) : Above previous before :=
  fun entry hentry record hrecord => h entry hentry record (mem_append_left after hrecord)

theorem readChild_gives (hkey : entry.key = maxKey level tree)
    (hnode : readNode blake3 file snapshot (child entry) = .ok node)
    (hheld : Held blake3 file snapshot level node tree) (hfull : Full level tree)
    (hsorted : Sorted Record.key (records level tree))
    (habove : Above previous (records level tree)) :
    Gives (Coherent blake3 file snapshot)
      (readChild blake3 file snapshot (level + 1) previous entry) (.ok node) := by
  refine (cachedNode_gives hnode).bind ?_
  have hfence : previous.any (fun previous =>
      node.entries.head?.any fun first => first.key ≤ previous.key) = false := by
    cases previous with
    | none => rfl
    | some previous =>
      cases hhead : node.entries.head? with
      | none => rfl
      | some first =>
        obtain ⟨record, hrecord, hfirst⟩ :=
          hheld.key_entry hfull hsorted first (mem_of_mem_head? hhead)
        have hlt := habove previous rfl record hrecord
        grind [decide_eq_false]
  rw [if_neg]
  · exact gives_pure node
  · simp [hheld.level_eq, hheld.key_last hfull, hkey, hfence]

end Nodes

section Get

variable {blake3 : List UInt8 → Digest} {file : File} {snapshot : Snapshot}

theorem forall₂_append_left {α β : Type} {r : α → β → Prop} {left left' : List α} {right : List β}
    (h : List.Forall₂ r (left ++ left') right) :
    ∃ before after, right = before ++ after ∧ List.Forall₂ r left before ∧
      List.Forall₂ r left' after := by
  induction left generalizing right with
  | nil => exact ⟨[], right, rfl, .nil, h⟩
  | cons a left ih =>
    cases h with
    | cons hab h =>
      obtain ⟨before, after, rfl, hbefore, hafter⟩ := ih h
      exact ⟨_ :: before, after, rfl, .cons hab hbefore, hafter⟩

variable {level : Nat} {entries : List Record}

theorem lt_of_forall₂_refers {trees : List (BTree level)}
    (h : List.Forall₂ (Refers blake3 file snapshot level) entries trees)
    (hfull : ∀ tree ∈ trees, Full level tree)
    (hsorted : Sorted Record.key (records (level + 1) trees)) {key : List UInt8}
    (hkey : ∀ entry ∈ entries, entry.key < key) :
    ∀ record ∈ records (level + 1) trees, record.key < key := by
  intro record hrecord
  obtain ⟨tree, htree, hrecord⟩ := mem_flatMap.mp hrecord
  obtain ⟨entry, hentry, hrefers⟩ := exists_of_forall₂ h.flip htree
  exact lt_of_le_of_lt
    (hrefers.1 ▸ ((hfull tree htree).maxKey_spec
      (hsorted.sublist (sublist_records htree))).2 record hrecord)
    (hkey entry hentry)

theorem above_getLast? {trees : List (BTree level)}
    (h : List.Forall₂ (Refers blake3 file snapshot level) entries trees)
    (hfull : ∀ tree ∈ trees, Full level tree) {following : List Record}
    (hsorted : Sorted Record.key (records (level + 1) trees ++ following)) :
    Above entries.getLast? following := by
  obtain ⟨hsortedTrees, _, hlt⟩ := sorted_append.mp hsorted
  intro entry hentry record hrecord
  obtain ⟨tree, htree, hrefers⟩ := exists_of_forall₂ h (mem_of_getLast? hentry)
  have hsub := sublist_records htree
  obtain ⟨⟨top, htop, hmax⟩, _⟩ := (hfull tree htree).maxKey_spec (hsortedTrees.sublist hsub)
  rw [hrefers.1, ← hmax]
  exact hlt top (hsub.mem htop) record hrecord

theorem getAt_gives (key : List UInt8) {node : Node} {tree : BTree level}
    (hheld : Held blake3 file snapshot level node tree) (htree : Changeable level tree)
    (hsorted : Sorted Record.key (records level tree)) :
    Gives (Coherent blake3 file snapshot) (getAt blake3 file snapshot key level node)
      (.ok ((lookup Record.key (records level tree) key).map Record.value)) := by
  induction level generalizing node with
  | zero =>
    cases (show node = _ from hheld)
    unfold getAt
    exact gives_pure _
  | succ level ih =>
    obtain ⟨hlevel, hentries⟩ := held_succ.mp hheld
    obtain ⟨_, hfull⟩ := htree.resolve_left (Nat.succ_ne_zero level)
    have hpassed : ∀ entry ∈ node.entries.takeWhile fun record => record.key < key,
        entry.key < key := by
      intro entry hentry
      have hlt := mem_takeWhile_imp hentry
      exact of_decide_eq_true hlt
    have hstop := @List.head?_dropWhile_not Record (fun record => record.key < key) node.entries
    have hsplit := @List.takeWhile_append_dropWhile Record (fun record => record.key < key)
      node.entries
    rw [← hsplit] at hentries
    obtain ⟨before, after, rfl, hbefore, hafter⟩ := forall₂_append_left hentries
    obtain ⟨hfullBefore, hfullAfter⟩ := forall_mem_append.mp hfull
    have hrecords : records (level + 1) (before ++ after) =
        records (level + 1) before ++ records (level + 1) after := flatMap_append
    rw [hrecords] at hsorted ⊢
    obtain ⟨hsortedBefore, hsortedAfter, _⟩ := sorted_append.mp hsorted
    -- Nothing before the partition point has the key.
    have hmiss : lookup Record.key (records (level + 1) before) key = none :=
      lookup_eq_none.mpr fun record hrecord =>
        (lt_of_forall₂_refers hbefore hfullBefore hsortedBefore hpassed record hrecord).ne
    rw [KeyedList.lookup_append, hmiss, none_or]
    unfold getAt
    cases hrest : node.entries.dropWhile fun record => record.key < key with
    | nil =>
      rw [hrest] at hafter
      cases hafter
      exact gives_pure _
    | cons reference rest =>
      rw [hrest] at hafter hstop
      cases hafter with
      | @cons _ below _ trees hrefers hafter =>
        obtain ⟨hfullBelow, hfullTrees⟩ := forall_mem_cons.mp hfullAfter
        obtain ⟨hkey, node', hnode', hheld'⟩ := hrefers
        rw [records_cons] at hsorted hsortedAfter ⊢
        obtain ⟨hsortedBelow, hsortedTrees, hlt⟩ := sorted_append.mp hsortedAfter
        have hle : key ≤ reference.key := by simpa using hstop
        -- Everything after the first entry that is not below the key is above it.
        have hmiss' : lookup Record.key (records (level + 1) trees) key = none := by
          refine lookup_eq_none.mpr fun record hrecord => ?_
          obtain ⟨⟨top, htop, hmax⟩, _⟩ := hfullBelow.maxKey_spec hsortedBelow
          rw [hkey, ← hmax] at hle
          exact (lt_of_le_of_lt hle (hlt top htop record hrecord)).ne'
        have habove := (above_getLast? hbefore hfullBefore hsorted).left
        rw [KeyedList.lookup_append, hmiss', or_none, hlevel]
        exact (readChild_gives hkey hnode' hheld' hfullBelow hsortedBelow habove).bind
          (ih hheld' (.inr hfullBelow) hsortedBelow)

end Get

section Range

variable {blake3 : List UInt8 → Digest} {file : File} {snapshot : Snapshot}
  {start : List UInt8} {stop : Option (List UInt8)} {limit : Nat}
  {entries found : List Record} {level : Nat}

theorem visitLeaf_eq_self
    (h : found.length = limit ∨ ∀ entry ∈ entries, stop.any (fun stop => stop ≤ entry.key)) :
    visitLeaf start stop limit entries found = found := by
  cases entries with
  | nil => rfl
  | cons entry entries =>
    rw [visitLeaf, if_pos]
    exact h.symm.imp_left fun h => h entry mem_cons_self

theorem visitLeaf_below (h : ∀ entry ∈ entries, entry.key < start) :
    visitLeaf start stop limit entries found = found := by
  induction entries with
  | nil => rfl
  | cons entry entries ih =>
    obtain ⟨hentry, hentries⟩ := forall_mem_cons.mp h
    rw [visitLeaf, if_neg hentry.not_ge, ih hentries, ite_self]

theorem visitLeaf_append {left right : List Record} (hsorted : Sorted Record.key (left ++ right)) :
    visitLeaf start stop limit (left ++ right) found =
      visitLeaf start stop limit right (visitLeaf start stop limit left found) := by
  induction left generalizing found with
  | nil => rfl
  | cons entry left ih =>
    obtain ⟨hlt, hsorted⟩ := sorted_cons.mp hsorted
    rw [cons_append, visitLeaf, visitLeaf]
    split
    next hstop =>
      refine (visitLeaf_eq_self (hstop.symm.imp_right ?_)).symm
      intro hstop record hrecord
      cases stop with
      | none => cases hstop
      | some stop =>
        have hle := of_decide_eq_true hstop
        exact decide_eq_true (hle.trans (hlt record (mem_append_right left hrecord)).le)
    · exact ih hsorted

theorem visitChildren_gives {visit : Node → List Record → ReadM (List Record)}
    {trees : List (BTree level)}
    (hentries : List.Forall₂ (Refers blake3 file snapshot level) entries trees)
    (hvisit : ∀ tree ∈ trees, ∀ node found, Held blake3 file snapshot level node tree →
      Gives (Coherent blake3 file snapshot) (visit node found)
        (.ok (visitLeaf start stop limit (records level tree) found)))
    (hfull : ∀ tree ∈ trees, Full level tree)
    (hsorted : Sorted Record.key (records (level + 1) trees)) {previous : Option Record}
    (habove : Above previous (records (level + 1) trees)) (found : List Record) :
    Gives (Coherent blake3 file snapshot)
      (visitChildren blake3 file snapshot start stop limit visit (level + 1) previous entries found)
      (.ok (visitLeaf start stop limit (records (level + 1) trees) found)) := by
  induction hentries generalizing previous found with
  | nil => exact gives_pure found
  | @cons entry tree entries trees hrefers hentries ih =>
    obtain ⟨htree, hvisit⟩ := forall_mem_cons.mp hvisit
    obtain ⟨hfullTree, hfull⟩ := forall_mem_cons.mp hfull
    obtain ⟨hkey, node, hnode, hheld⟩ := hrefers
    rw [records_cons] at hsorted habove ⊢
    obtain ⟨hsortedTree, hsortedTrees, hlt⟩ := sorted_append.mp hsorted
    obtain ⟨_, hbelow⟩ := hfullTree.maxKey_spec hsortedTree
    have habove' := above_entry hkey hfullTree hsorted
    unfold visitChildren
    split
    next hstop =>
      rw [visitLeaf_eq_self]
      · exact gives_pure found
      · refine hstop.imp_right fun hstop record hrecord => ?_
        cases previous with
        | none => cases hstop
        | some previous =>
          cases stop with
          | none => cases hstop
          | some stop =>
            have hle : stop ≤ previous.key := of_decide_eq_true hstop
            exact decide_eq_true (hle.trans (habove previous rfl record hrecord).le)
    · split
      next hstart =>
        refine (readChild_gives hkey hnode hheld hfullTree hsortedTree habove.left).bind ?_
        rw [visitLeaf_append hsorted]
        exact (htree node found hheld).bind (ih hvisit hfull hsortedTrees habove' _)
      next hstart =>
        have hskip : ∀ record ∈ records level tree, record.key < start := by
          intro record hrecord
          refine lt_of_le_of_lt (hbelow record hrecord) ?_
          rw [← hkey]
          exact not_le.mp hstart
        rw [visitLeaf_append hsorted, visitLeaf_below hskip]
        exact ih hvisit hfull hsortedTrees habove' found

theorem visit_gives {node : Node} {tree : BTree level}
    (hheld : Held blake3 file snapshot level node tree) (htree : Changeable level tree)
    (hsorted : Sorted Record.key (records level tree)) (found : List Record) :
    Gives (Coherent blake3 file snapshot)
      (visit blake3 file snapshot start stop limit level node found)
      (.ok (visitLeaf start stop limit (records level tree) found)) := by
  induction level generalizing node found with
  | zero =>
    cases (show node = _ from hheld)
    exact gives_pure _
  | succ level ih =>
    obtain ⟨hlevel, hentries⟩ := held_succ.mp hheld
    obtain ⟨_, hfull⟩ := htree.resolve_left (Nat.succ_ne_zero level)
    unfold visit
    rw [hlevel]
    refine visitChildren_gives hentries ?_ hfull hsorted (above_none _) found
    intro below hbelow node found hheld
    exact ih hheld (.inr (hfull below hbelow)) (hsorted.sublist (sublist_records hbelow)) found

def inRange (start : List UInt8) (stop : Option (List UInt8)) (record : Record) : Bool :=
  start ≤ record.key ∧ stop.all fun stop => record.key < stop

/-- A visit collects the records of the range up to the limit. -/
theorem visitLeaf_eq (hsorted : Sorted Record.key entries) (hfound : found.length ≤ limit) :
    visitLeaf start stop limit entries found =
      found ++ (entries.filter (inRange start stop)).take (limit - found.length) := by
  induction entries generalizing found with
  | nil => simp [visitLeaf]
  | cons entry entries ih =>
    obtain ⟨hlt, hsorted⟩ := sorted_cons.mp hsorted
    unfold visitLeaf
    split
    next hend =>
      rcases hend with hend | hend
      · -- Beyond the end of the range nothing is in it.
        have hout : (entry :: entries).filter (inRange start stop) = [] := by
          cases stop with
          | none => cases hend
          | some stop =>
            have hle : stop ≤ entry.key := of_decide_eq_true hend
            refine filter_eq_nil_iff.mpr (forall_mem_cons.mpr ⟨?_, ?_⟩)
            · simp [inRange, hle]
            · intro record hrecord
              simp [inRange, hle.trans (hlt record hrecord).le]
        rw [hout, take_nil, append_nil]
      · simp [*]
    next hend =>
      obtain ⟨hstop, hlimit⟩ := not_or.mp hend
      have hbefore : (stop.all fun stop => entry.key < stop) = true := by
        cases stop with
        | none => rfl
        | some stop =>
          grind
      split
      next hstart =>
        have hroom : limit - found.length = limit - (found ++ [entry]).length + 1 := by
          rw [length_append, length_singleton]
          omega
        have hlength : (found ++ [entry]).length ≤ limit := by
          rw [length_append, length_singleton]
          omega
        rw [ih hsorted hlength, hroom, filter_cons_of_pos, take_succ_cons,
          append_assoc, singleton_append]
        simp [inRange, hstart, hbefore]
      · simp [*, inRange]

end Range

section Verify

variable {blake3 : List UInt8 → Digest} {file : File} {snapshot : Snapshot}

theorem walkChildren_gives {level : Nat} {walk : Node → ReadM (Nat × List UInt8)}
    {entries : List Record} {trees : List (BTree level)}
    (hentries : List.Forall₂ (Refers blake3 file snapshot level) entries trees)
    (hwalk : ∀ tree ∈ trees, ∀ node, Held blake3 file snapshot level node tree →
      Gives (Coherent blake3 file snapshot) (walk node)
        (.ok ((records level tree).length, ((records level tree).head?.map Record.key).getD [])))
    (hfull : ∀ tree ∈ trees, Full level tree)
    (hsorted : Sorted Record.key (records (level + 1) trees)) {previous : Option Record}
    (habove : Above previous (records (level + 1) trees)) {total : Nat}
    (htotal : total + (records (level + 1) trees).length < 2 ^ 64) (first : List UInt8) :
    Gives (Coherent blake3 file snapshot)
      (walkChildren blake3 file snapshot walk (level + 1) previous entries total first)
      (.ok (total + (records (level + 1) trees).length,
        if previous.isNone then ((records (level + 1) trees).head?.map Record.key).getD first
        else first)) := by
  induction hentries generalizing previous total first with
  | nil =>
    unfold walkChildren
    simp only [records, flatMap_nil, length_nil, head?_nil, map_none,
      getD_none, ite_self, Nat.add_zero]
    exact gives_pure _
  | @cons entry tree entries trees hrefers hentries ih =>
    obtain ⟨htree, hwalk⟩ := forall_mem_cons.mp hwalk
    obtain ⟨hfullTree, hfull⟩ := forall_mem_cons.mp hfull
    obtain ⟨hkey, node, hnode, hheld⟩ := hrefers
    rw [records_cons] at hsorted habove htotal ⊢
    rw [length_append] at htotal ⊢
    obtain ⟨hsortedTree, hsortedTrees, hlt⟩ := sorted_append.mp hsorted
    have habove' := above_entry hkey hfullTree hsorted
    obtain ⟨least, rest, hleast⟩ := exists_cons_of_ne_nil hfullTree.records_ne_nil
    have hminimum : ((records level tree).head?.map Record.key).getD [] = least.key := by
      rw [hleast]
      rfl
    have hfirst : ((records level tree ++ records (level + 1) trees).head?.map Record.key).getD
        first = least.key := by
      rw [hleast]
      rfl
    have hordered : ¬ previous.any (fun previous => least.key ≤ previous.key) = true := by
      cases previous with
      | none => exact Bool.false_ne_true
      | some passed =>
        have hlt := habove passed rfl least (by simp [*])
        simpa using hlt
    unfold walkChildren
    refine (readChild_gives hkey hnode hheld hfullTree hsortedTree habove.left).bind ?_
    refine (htree node hheld).bind ?_
    simp only [hminimum]
    rw [if_neg hordered, if_neg (by omega)]
    have hrest := @ih hwalk hfull hsortedTrees _ habove' (total + (records level tree).length)
      (by omega) (if previous.isNone then least.key else first)
    rw [Nat.add_assoc] at hrest
    simp only [isNone_some, Bool.false_eq_true, if_false] at hrest
    rw [hfirst]
    exact hrest

theorem walk_gives {level : Nat} {node : Node} {tree : BTree level}
    (hheld : Held blake3 file snapshot level node tree) (htree : Changeable level tree)
    (hsorted : Sorted Record.key (records level tree))
    (hlength : (records level tree).length < 2 ^ 64) :
    Gives (Coherent blake3 file snapshot) (walk blake3 file snapshot level node)
      (.ok ((records level tree).length,
        ((records level tree).head?.map Record.key).getD [])) := by
  induction level generalizing node with
  | zero =>
    cases (show node = _ from hheld)
    exact gives_pure _
  | succ level ih =>
    obtain ⟨hlevel, hentries⟩ := held_succ.mp hheld
    obtain ⟨_, hfull⟩ := htree.resolve_left (Nat.succ_ne_zero level)
    unfold walk
    rw [hlevel]
    have hchildren := @walkChildren_gives blake3 file snapshot level
      (walk blake3 file snapshot level) _ _ hentries ?_ hfull hsorted none (above_none _) 0
      (by rwa [Nat.zero_add]) []
    · grind
    · intro below hbelow node hheld
      have hsub := sublist_records hbelow
      exact ih hheld (.inr (hfull below hbelow)) (hsorted.sublist hsub)
        (lt_of_le_of_lt hsub.length_le hlength)

end Verify

section Represents

variable (blake3 : List UInt8 → Digest) (file : File) (snapshot : Snapshot)

/-- The pages of a snapshot hold a tree of sorted records within the layout. -/
structure Represents (tree : (level : Nat) × BTree level) : Prop where
  root : (snapshot.root = 0 ∧ tree = ⟨0, []⟩) ∨
    (snapshot.root ≠ 0 ∧ Full tree.1 tree.2 ∧
      Stored blake3 file snapshot tree.1 snapshot.root tree.2)
  level_le : tree.1 ≤ maxLevel
  sorted : Sorted Record.key (records tree.1 tree.2)
  holds : ∀ record ∈ records tree.1 tree.2, snapshot.layout.Holds record

variable {blake3 file snapshot} {tree : (level : Nat) × BTree level}

section

variable (h : Represents blake3 file snapshot tree)
include h

theorem Represents.get_gives (key : List UInt8) :
    Gives (Coherent blake3 file snapshot) (get blake3 file snapshot key)
      (.ok ((lookup Record.key (records tree.1 tree.2) key).map Record.value)) := by
  unfold get
  rcases h.root with ⟨hroot, rfl⟩ | ⟨hroot, hfull, node, hnode, hheld⟩
  · rw [if_pos hroot]
    exact gives_pure _
  · rw [if_neg hroot]
    refine (cachedNode_gives hnode).bind ?_
    rw [hheld.level_eq]
    exact getAt_gives key hheld (.inr hfull) h.sorted

theorem Represents.range_gives (start : List UInt8) (stop : Option (List UInt8)) (limit : Nat) :
    Gives (Coherent blake3 file snapshot) (range blake3 file snapshot start stop limit)
      (.ok (((records tree.1 tree.2).filter (inRange start stop)).take limit)) := by
  unfold range
  split
  next hread =>
    obtain ⟨hroot, hlimit, hstop⟩ := hread
    obtain ⟨_, hfull, node, hnode, hheld⟩ := h.root.resolve_left fun h => hroot h.1
    refine (cachedNode_gives hnode).bind ?_
    rw [hheld.level_eq]
    have hvisit := @visit_gives blake3 file snapshot start stop limit _ _ _ hheld (.inr hfull)
      h.sorted []
    rw [visitLeaf_eq h.sorted (Nat.zero_le limit)] at hvisit
    exact hvisit
  next hread =>
    have hempty : ((records tree.1 tree.2).filter (inRange start stop)).take limit = [] := by
      by_cases hroot : snapshot.root = 0
      · obtain ⟨_, rfl⟩ := h.root.resolve_right fun h => h.1 hroot
        exact take_nil
      · by_cases hlimit : limit = 0
        · rw [hlimit, take_zero]
        · have hstop : stop = some start := by
            by_contra hstop
            exact hread ⟨hroot, hlimit, hstop⟩
          have hnone : (records tree.1 tree.2).filter (inRange start stop) = [] := by
            refine filter_eq_nil_iff.mpr fun record _ => ?_
            simp only [inRange, hstop, all_some, decide_eq_true_eq, not_and, not_lt]
            exact id
          rw [hnone, take_nil]
    rw [hempty]
    exact gives_pure _

theorem Represents.verify_gives (hlength : (records tree.1 tree.2).length < 2 ^ 64) :
    Gives (Coherent blake3 file snapshot) (verify blake3 file snapshot)
      (.ok (records tree.1 tree.2).length) := by
  unfold verify
  rcases h.root with ⟨hroot, rfl⟩ | ⟨hroot, hfull, node, hnode, hheld⟩
  · rw [if_pos hroot]
    exact gives_pure _
  · rw [if_neg hroot, hnode]
    refine (gives_lift (.ok node)).bind ?_
    rw [hheld.level_eq]
    exact (walk_gives hheld (.inr hfull) h.sorted hlength).bind (gives_pure _)

theorem Represents.changeable : Changeable tree.1 tree.2 := by
  rcases h.root with ⟨_, rfl⟩ | ⟨_, hfull, _⟩
  · exact .inl rfl
  · exact .inr hfull

theorem Represents.rootNode_gives :
    ∃ node, Gives (Coherent blake3 file snapshot) (rootNode blake3 file snapshot) (.ok node) ∧
      Held blake3 file snapshot tree.1 node tree.2 := by
  unfold rootNode
  rcases h.root with ⟨hroot, rfl⟩ | ⟨hroot, _, node, hnode, hheld⟩
  · rw [if_pos hroot]
    exact ⟨_, gives_pure _, rfl⟩
  · rw [if_neg hroot]
    exact ⟨node, cachedNode_gives hnode, hheld⟩

end

end Represents

end BriskDB.Isam
