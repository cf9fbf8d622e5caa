import BriskDB.Document.Edit
import BriskDB.Lib.Charged
import BriskDB.Lib.PrefixFree

/-! # The frame of an update

Every operation of an updater is an edit at its path, a rename an edit at its source
and one at its target. Compilation leaves no path that is a prefix of another one, so
no operation undoes what another one did, and everything off the paths is kept.
-/

namespace BriskDB.Document.DocumentUpdater

open Charged Result BsonDocument List

def Located (name : String) (document : BsonDocument) :
    Option (BsonDocument × BsonValue × BsonDocument) → Prop
  | none => name ∉ document.names
  | some (before, value, after) => document = before ++ (name, value) :: after ∧ name ∉ before.names

theorem locate_ensures (name : String) (document : BsonDocument) :
    Ensures (locate name document) (Located name document) := by
  induction document with
  | nil => exact .pure not_mem_nil
  | cons entry document ih =>
    obtain ⟨field, value⟩ := entry
    refine .after fun _ => .ite ?_ ?_
    · rintro rfl
      exact .pure ⟨rfl, not_mem_nil⟩
    · intro hne
      refine .bind ih ?_
      rintro (_ | ⟨before, found, after⟩) hlocated
      · refine .pure ?_
        rw [Located, names_cons, mem_cons, not_or]
        exact ⟨Ne.symm hne, hlocated⟩
      · refine .pure ⟨by rw [hlocated.1, cons_append], ?_⟩
        rw [names_cons, mem_cons, not_or]
        exact ⟨Ne.symm hne, hlocated.2⟩

theorem push_ensures (document : BsonDocument) (name : String) (value : BsonValue) :
    Ensures (liftM ((push document name value).toEngine .clientInput) :
      Work BsonDocument) (· = document ++ [(name, value)]) := by
  refine .lift ?_
  grind [BsonResult.toEngine_eq_ok, push]

def Deepens (rest : List String) : Option (BsonValue → Work BsonValue) → Prop
  | none => rest = []
  | some deeper => ∀ value, Ensures (deeper value) (Edits rest value)

variable {rest path place original : List String} {deeper : Option (BsonValue → Work BsonValue)}
    {document next result : BsonDocument} {paths done : List (List String)}
    {found value : BsonValue} {name : String}

variable (action : Action)

theorem writeEntry_ensures (component : String) (hdeeper : Deepens rest deeper)
    (document : BsonDocument) :
    Ensures (writeEntry action component deeper document) fun next =>
      Edits (component :: rest) (.document document) (.document next) := by
  refine .after fun _ => .bind (locate_ensures component document) ?_
  intro located hlocated
  cases deeper with
  | none =>
    obtain rfl : rest = [] := hdeeper
    rcases located with _ | ⟨before, current, after⟩
    · cases action.value with
      | none => exact .pure (.keep _ _)
      | some value =>
        refine .after fun _ => .after fun value => ?_
        exact (push_ensures document component value).mono fun _ hnext =>
          hnext ▸ .append hlocated [] value
    · obtain ⟨rfl, hfirst⟩ := hlocated
      cases action.value with
      | none => exact .pure (.remove hfirst current)
      | some value =>
        refine .after fun replaces => .ite (fun _ => ?_) fun _ => .pure (.keep _ _)
        exact .after fun value => .pure (.field hfirst (.whole current value))
  | some deeper =>
    rcases located with _ | ⟨before, current, after⟩
    · cases action.value with
      | none => exact .pure (.keep _ _)
      | some value =>
        refine .after fun _ => .after fun _ => .after fun next => ?_
        exact .pure (.append hlocated rest next)
    · obtain ⟨rfl, hfirst⟩ := hlocated
      refine .bind (hdeeper current) fun next hnext => ?_
      exact .pure (.field hfirst hnext)

theorem writeElement_ensures (arrayPaths : Bool) (component : String)
    (hdeeper : Deepens rest deeper) (values : List BsonValue) :
    Ensures (writeElement action arrayPaths component deeper values) fun next =>
      Edits (component :: rest) (.array values) (.array next) := by
  refine .ite (fun _ => .ite (fun _ => .pure (.keep _ _)) fun _ => .throw) ?_
  intro hcomponent
  refine .ite (fun _ => .throw) fun _ => ?_
  rw [Bool.not_eq_true', Bool.not_eq_false] at hcomponent
  cases hparse : parseIndex component with
  | none =>
    cases action.value with
    | none => exact .pure (.keep _ _)
    | some value => exact .throw
  | some index =>
    have hindex : arrayIndex component = some index := by rw [arrayIndex, if_pos hcomponent, hparse]
    simp only
    cases hvalue : values[index]? with
    | none =>
      have hlength : (values ++ List.replicate (index - values.length)
          BsonValue.null).length = index := by
        have hle := getElem?_eq_none_iff.mp hvalue
        simp only [length_append, length_replicate]
        omega
      have hextend : ∀ next, Edits (component :: rest) (.array values)
          (.array (values ++ List.replicate (index - values.length) .null ++ [next])) :=
        fun next => .extend rest (by rw [hindex, hlength]) next
      cases action.value with
      | none => exact .pure (.keep _ _)
      | some value =>
        refine .after fun _ => ?_
        cases deeper with
        | none | some => exact .after fun next => .pure (hextend next)
    | some current =>
      cases deeper with
      | none =>
        obtain rfl : rest = [] := hdeeper
        cases action.value with
        | none => exact .pure (.element hindex hvalue (.whole current .null))
        | some value =>
          refine .after fun replaces => .ite (fun _ => ?_) fun _ => .pure (.keep _ _)
          exact .after fun value => .pure (.element hindex hvalue (.whole current value))
      | some deeper =>
        refine .bind (hdeeper current) fun next hnext => ?_
        exact .pure (.element hindex hvalue hnext)

theorem writeValue_ensures (arrayPaths : Bool) (path : List String) (target : BsonValue) :
    Ensures (writeValue action arrayPaths path target) (Edits path target) := by
  induction path generalizing target with
  | nil => exact .pure (.whole target target)
  | cons component rest ih =>
    refine .after fun _ => ?_
    cases target with
    | document document =>
      refine .bind (writeEntry_ensures action component ?_ document) fun next hnext => .pure hnext
      cases rest with
      | nil => rfl
      | cons next rest => exact ih
    | array values =>
      refine .bind (writeElement_ensures action arrayPaths component ?_ values)
        fun next hnext => .pure hnext
      cases rest with
      | nil => rfl
      | cons next rest => exact ih
    | _ => exact .ite (fun _ => .pure (.keep _ _)) fun _ => .throw

theorem writeDocument_ensures (arrayPaths : Bool) (path : List String) (document : BsonDocument) :
    Ensures (writeDocument action arrayPaths path document) fun next =>
      Edits path (.document document) (.document next) := by
  rcases path with _ | ⟨component, _ | ⟨next, rest⟩⟩
  · exact .pure (.keep _ _)
  · have hdeeper : Deepens [] none := rfl
    exact writeEntry_ensures action component hdeeper document
  · have hdeeper : Deepens (next :: rest) (some (writeValue action arrayPaths (next :: rest))) :=
      writeValue_ensures action arrayPaths (next :: rest)
    exact writeEntry_ensures action component hdeeper document

variable {α : Type}

theorem existingEntry_ensures {deeper : BsonValue → Work (Option α × BsonValue)}
    (hdeeper : ∀ value, Ensures (deeper value) fun next => Edits rest value next.2)
    (component : String) (document : BsonDocument) :
    Ensures (existingEntry deeper component document) fun next =>
      Edits (component :: rest) (.document document) (.document next.2) := by
  refine .after fun _ => .bind (locate_ensures component document) ?_
  rintro (_ | ⟨before, value, after⟩) hlocated
  · exact .pure (.keep _ _)
  · obtain ⟨rfl, hfirst⟩ := hlocated
    refine .bind (hdeeper value) fun next hnext => ?_
    exact .pure (.field hfirst hnext)

theorem existingValue_ensures (use : BsonValue → Work (α × BsonValue)) (arrayPaths : Bool)
    (path : List String) (value : BsonValue) :
    Ensures (existingValue use arrayPaths path value) fun next => Edits path value next.2 := by
  induction path generalizing value with
  | nil => exact .after fun _ => .after fun next => .pure (.whole value next.2)
  | cons component rest ih =>
    refine .after fun _ => ?_
    cases value with
    | document document =>
      exact .bind (existingEntry_ensures ih component document) fun next hnext => .pure hnext
    | array values =>
      refine .ite (fun _ => .throw) fun hcomponent => .ite (fun _ => .throw) fun _ => ?_
      rw [Bool.not_eq_true', Bool.not_eq_false] at hcomponent
      cases hfound : (parseIndex component).bind fun index =>
          values[index]?.map fun current => (index, current) with
      | none => exact .pure (.keep _ _)
      | some found =>
        obtain ⟨index, current⟩ := found
        simp only [Option.bind_eq_some_iff, Option.map_eq_some_iff, Prod.mk.injEq] at hfound
        obtain ⟨index, hparse, current, hvalue, rfl, rfl⟩ := hfound
        have hindex : arrayIndex component = some index := by
          rw [arrayIndex, if_pos hcomponent, hparse]
        refine .bind (ih current) fun next hnext => ?_
        exact .pure (.element hindex hvalue hnext)
    | _ => exact .throw

theorem existingDocumentValue_ensures (use : BsonValue → Work (α × BsonValue))
    (arrayPaths : Bool) (path : List String) (document : BsonDocument) :
    Ensures (existingDocumentValue use arrayPaths path document) fun next =>
      Edits path (.document document) (.document next.2) := by
  cases path with
  | nil => exact .pure (.keep _ _)
  | cons component rest =>
    exact existingEntry_ensures (existingValue_ensures use arrayPaths rest) component document

inductive EditRun : List (List String) → BsonDocument → BsonDocument → Prop
  | nil (document : BsonDocument) : EditRun [] document document
  | cons {path : List String} {paths : List (List String)} {document middle next : BsonDocument}
      (hedit : Edits path (.document document) (.document middle))
      (hrest : EditRun paths middle next) : EditRun (path :: paths) document next

theorem EditRun.append {left right : List (List String)} {middle : BsonDocument}
    (hleft : EditRun left document middle) (hright : EditRun right middle next) :
    EditRun (left ++ right) document next := by
  induction hleft with
  | nil document => exact hright
  | cons hedit hrest ih => exact .cons hedit (ih hright)

theorem EditRun.single
    (hedit : Edits path (.document document) (.document next)) : EditRun [path] document next :=
  .cons hedit (.nil next)

theorem existing_or_write {use : BsonValue → Work (Unit × BsonValue)} {write : Work BsonDocument}
    (hwrite : Ensures write fun next => Edits path (.document document) (.document next)) :
    Ensures (do
        match ← existingDocumentValue use true path document with
        | (some _, document) => return document
        | (none, _) => write) fun next => Edits path (.document document) (.document next) := by
  refine .bind (existingDocumentValue_ensures use true path document) ?_
  rintro ⟨_ | _, next⟩ hnext
  · exact hwrite
  · exact .pure hnext

theorem renameDocument_ensures (source target : List String) (document : BsonDocument) :
    Ensures (renameDocument source target document) (EditRun [source, target] document) := by
  refine .after fun found => ?_
  rcases found with ⟨_ | value, _⟩
  · exact .pure (.cons (.keep _ _) (.single (.keep _ _)))
  · refine .ite (fun _ => .throw) fun _ => .after fun value => ?_
    refine .bind (writeDocument_ensures .unset false source document) fun middle hmiddle => ?_
    exact (writeDocument_ensures (.set value) false target middle).mono fun next hnext =>
      .cons hmiddle (.single hnext)

variable {Matcher : Type} (services : Services Matcher)

theorem incrementDocument_ensures (path : List String) (operand : BsonValue)
    (document : BsonDocument) :
    Ensures (incrementDocument services path operand document) fun next =>
      Edits path (.document document) (.document next.2) := by
  refine .after fun _ => .after fun _ => ?_
  refine .bind (existingDocumentValue_ensures _ true path document) ?_
  rintro ⟨_ | force, next⟩ hnext
  · exact .bind (writeDocument_ensures (.set operand) true path document)
      fun next hnext => .pure hnext
  · exact .pure hnext

theorem applyOperation_ensures (state : BsonDocument × Bool) (operation : Operation Matcher) :
    Ensures (applyOperation services state operation) fun next =>
      EditRun operation.paths state.1 next.1 := by
  obtain ⟨document, force⟩ := state
  obtain ⟨path, action⟩ := operation
  cases action with
  | increment value =>
    exact .bind (incrementDocument_ensures services path value document)
      fun next hnext => .pure (.single hnext)
  | field action =>
    exact .bind (writeDocument_ensures action true path document)
      fun next hnext => .pure (.single hnext)
  | pop | pull =>
    refine .bind (Q := fun next => Edits path (.document document) (.document next)) ?_
      fun next hnext => .pure (.single hnext)
    exact .bind (existingDocumentValue_ensures _ true path document)
      fun next hnext => .pure hnext
  | rename target =>
    exact .bind (renameDocument_ensures path target document) fun next hnext => .pure hnext
  | arrayMembership values remove =>
    refine .bind (Q := fun next => Edits path (.document document) (.document next)) ?_
      fun next hnext => .pure (.single hnext)
    refine existing_or_write (.ite (fun _ => .pure (.keep _ _)) fun _ => .after fun values => ?_)
    exact writeDocument_ensures (.set (.array values)) true path document
  | push push =>
    refine .bind (Q := fun next => Edits path (.document document) (.document next)) ?_
      fun next hnext => .pure (.single hnext)
    refine existing_or_write (.after fun values => ?_)
    exact writeDocument_ensures (.set (.array values)) true path document

theorem operations_ensures (operations : List (Operation Matcher)) (document : BsonDocument)
    (force : Bool) :
    Ensures (operations.foldlM (applyOperation services) (document, force)) fun next =>
      EditRun (operations.flatMap Operation.paths) document next.1 := by
  induction operations generalizing document force with
  | nil => exact .pure (.nil document)
  | cons operation operations ih =>
    rw [foldlM_cons, flatMap_cons]
    refine .bind (applyOperation_ensures services (document, force) operation) ?_
    rintro ⟨middle, force⟩ hmiddle
    exact (ih middle force).mono fun next hnext => hmiddle.append hnext

/-- A path that is off every edit keeps its value. -/
theorem EditRun.valueAt_eq (hrun : EditRun paths document next) {other : List String}
    (hother : ∀ path ∈ paths, Incomparable path other)
    (hfound : document.valueAt other = some found) : next.valueAt other = some found := by
  induction hrun with
  | nil document => exact hfound
  | cons hedit hrest ih =>
    rw [forall_mem_cons] at hother
    exact ih hother.2 (hedit.valueAt_eq hother.1 hfound)

/-- The original fields left are in order; every field gone was removed at its own path. -/
structure InOrder (place : List String) (done : List (List String))
    (original names : List String) : Prop where
  ordered : (names.filter (· ∈ original)).Sublist original
  removed : ∀ name ∈ original, name ∉ names → place ++ [name] ∈ done

theorem InOrder.refl (place : List String) (names : List String) : InOrder place [] names names :=
  ⟨filter_sublist, fun _ hname hgone => absurd hname hgone⟩

theorem InOrder.step {names next : List String} (h : InOrder place done original names)
    (hfree : ∀ other ∈ done, ¬ other <+: path) (hstep : NamesStep path place names next) :
    InOrder place (done ++ [path]) original next := by
  have hkept : ∀ name ∈ original, name ∉ names → place ++ [name] ∈ done ++ [path] :=
    fun name hname hgone => mem_append_left _ (h.removed name hname hgone)
  cases hstep with
  | same => exact ⟨h.ordered, hkept⟩
  | erase name hpath =>
    refine ⟨(erase_sublist.filter _).trans h.ordered, ?_⟩
    grind
  | append name hpath hnew =>
    -- a field that was removed is not added again: its path is one of the edits before
    have hname : name ∉ original := fun hmem => hfree _ (h.removed name hmem hnew) hpath
    refine ⟨?_, ?_⟩
    · rw [filter_append, filter_singleton]
      simpa [hname] using h.ordered
    · grind

theorem EditRun.inOrder (hrun : EditRun paths document next)
    (hplace : ∀ path ∈ paths, ¬ path <+: place)
    (hfree : (done ++ paths).Pairwise Incomparable) {current : BsonDocument}
    (hcurrent : document.valueAt place = some (.document current))
    (h : InOrder place done original current.names) :
    ∃ after : BsonDocument, next.valueAt place = some (.document after) ∧
      InOrder place (done ++ paths) original after.names := by
  induction hrun generalizing done current with
  | nil document =>
    simp [*]
  | @cons path paths document middle next hedit hrest ih =>
    rw [forall_mem_cons] at hplace
    obtain ⟨document', hfound, hnames⟩ := hedit.names_step hplace.1 hcurrent
    rw [append_cons] at hfree ⊢
    have hdone : ∀ other ∈ done, ¬ other <+: path := by
      intro other hother
      rw [append_assoc, pairwise_append] at hfree
      exact (hfree.2.2 other hother path mem_cons_self).1
    exact ih hplace.2 hfree hfound (h.step hdone hnames)

@[simp] theorem names_replaceFirst (name : String) (value : BsonValue) (document : BsonDocument) :
    (replaceFirst name value document).names = document.names := by
  induction document with
  | nil => rfl
  | cons entry document ih =>
    rw [replaceFirst]
    split
    · rfl
    · rw [names_cons, ih, names_cons]

theorem getFirst_replaceFirst (h : name ∈ document.names) (value : BsonValue) :
    (replaceFirst name value document).getFirst name = some value := by
  induction document with
  | nil => cases h
  | cons entry document ih =>
    rw [replaceFirst]
    split
    next hname => rw [getFirst_cons, if_pos hname]
    next hname =>
      rw [getFirst_cons, if_neg hname]
      exact ih ((mem_cons.mp h).resolve_left (Ne.symm hname))

theorem getFirst_replaceFirst_of_ne {other : String} (hne : other ≠ name)
    (value : BsonValue) (document : BsonDocument) :
    (replaceFirst name value document).getFirst other = document.getFirst other := by
  induction document with
  | nil => rfl
  | cons entry document ih =>
    rw [replaceFirst]
    split
    next hname =>
      have hother : entry.1 ≠ other := fun heq => hne (heq.symm.trans hname)
      rw [getFirst_cons, getFirst_cons, if_neg hother, if_neg hother]
    next => rw [getFirst_cons, getFirst_cons, ih]

theorem replaceFirst_self
    (h : document.getFirst name = some value) : replaceFirst name value document = document := by
  induction document with
  | nil => rfl
  | cons entry document ih =>
    rw [getFirst_cons] at h
    rw [replaceFirst]
    split
    next hname =>
      grind
    next hname =>
      grind

theorem restoreId_eq {original restored : BsonDocument}
    (h : restoreId original result = .ok restored) :
    (original.getFirst "_id" = none ∧ restored = result) ∨
      ∃ id, original.getFirst "_id" = some id ∧ "_id" ∈ result.names ∧
        restored = replaceFirst "_id" id result := by
  unfold restoreId at h
  cases horiginal : original.getFirst "_id" with
  | none =>
    rw [horiginal] at h
    grind
  | some originalId =>
    rw [horiginal] at h
    cases hresult : result.getFirst "_id" with
    | none =>
      grind
    | some id =>
      rw [hresult] at h
      obtain ⟨key, -, h⟩ := bind_eq_ok.mp h
      obtain ⟨originalKey, -, h⟩ := bind_eq_ok.mp h
      simp only [ite_throw_eq_ok] at h
      cases h.2
      refine Or.inr ⟨originalId, rfl, ?_, rfl⟩
      by_contra hnot
      rw [getFirst_eq_none.mpr hnot] at hresult
      cases hresult

theorem valueAt_replaceFirst {component : String} (hne : component ≠ name)
    (value : BsonValue) (document : BsonDocument) (rest : List String) :
    (replaceFirst name value document).valueAt (component :: rest) =
      document.valueAt (component :: rest) := by
  simp [valueAt, BsonValue.valueAt, getFirst_replaceFirst_of_ne hne]

theorem valueAt_replaceFirst_self {original : BsonDocument}
    (horiginal : original.getFirst name = some value)
    (hresult : name ∈ result.names) (rest : List String) :
    (replaceFirst name value result).valueAt (name :: rest) = original.valueAt (name :: rest) := by
  simp [valueAt, BsonValue.valueAt, getFirst_replaceFirst hresult, horiginal]

theorem isChain_of_not_overlaps (h : overlaps paths = false) :
    paths.IsChain fun left right => ¬ left <+: right := by
  fun_induction overlaps paths with
  | case1 first second paths ih =>
    rw [Bool.or_eq_false_iff] at h
    refine isChain_cons_cons.mpr ⟨?_, ih h.2⟩
    rw [← isPrefixOf_iff_prefix, h.1]
    exact Bool.false_ne_true
  | case2 paths hshort =>
    match paths, hshort with
    | [], _ => exact isChain_nil
    | [path], _ => exact isChain_singleton path
    | first :: second :: paths, hshort => exact absurd rfl (hshort first second paths)

theorem pairwise_incomparable
    (h : overlaps (paths.mergeSort pathLe) = false) : paths.Pairwise Incomparable := by
  have hsorted : (paths.mergeSort pathLe).Pairwise fun left right => pathLe left right = true := by
    apply pairwise_mergeSort
    · intro first second third hfirst hsecond
      simp only [pathLe, decide_eq_true_eq] at hfirst hsecond ⊢
      exact List.le_trans hfirst hsecond
    · simp [pathLe, List.le_total]
  have hextends : ∀ left right : List String,
      left.map Utf8.bytes <+: right.map Utf8.bytes ↔ left <+: right := fun left right =>
    prefix_map_iff_of_injective (fun _ _ => Utf8.bytes_injective)
  have hfamily := PrefixFree.pairwise_of_isChain
    (pairwise_map.mpr (hsorted.imp fun hle => of_decide_eq_true hle))
    ((isChain_map _).mpr ((isChain_of_not_overlaps h).imp fun left right hnot =>
      mt (hextends left right).mp hnot))
  rw [pairwise_map] at hfamily
  refine ((mergeSort_perm paths pathLe).pairwise_iff ?_).mp (hfamily.imp ?_)
  · exact fun hincomparable => ⟨hincomparable.2, hincomparable.1⟩
  · intro left right hnot
    rw [hextends, hextends] at hnot
    exact hnot

variable {updater : DocumentUpdater Matcher}

theorem compile_incomparable [BsonWire.Crate] {spec : BsonDocument}
    (h : compile services spec = .ok updater) : updater.paths.Pairwise Incomparable := by
  obtain ⟨_, -, h⟩ := bind_eq_ok.mp h
  simp only [ite_throw_eq_ok] at h
  obtain ⟨-, h⟩ := h
  obtain ⟨⟨retained, _⟩, -, h⟩ := bind_eq_ok.mp h
  obtain ⟨⟨operations, retained⟩, -, h⟩ := bind_eq_ok.mp h
  simp only [ite_throw_eq_ok] at h
  obtain ⟨hoverlaps, h⟩ := h
  cases h
  exact pairwise_incomparable (Bool.not_eq_true _ ▸ hoverlaps)

/-- A successful update is a run of edits at its paths, before the identity is restored. -/
theorem apply_editRun [BsonWire.Crate] (h : updater.apply services document = .ok result) :
    ∃ edited : BsonDocument, EditRun updater.paths document edited ∧
      restoreId document edited = .ok result := by
  obtain ⟨⟨written, force⟩, hwrite, hresult⟩ := bind_eq_ok.mp h
  obtain rfl : written = result := Except.ok.inj hresult
  obtain ⟨_, -, h⟩ := bind_eq_ok.mp hwrite
  obtain ⟨⟨inputBytes, _⟩, -, h⟩ := bind_eq_ok.mp h
  obtain ⟨⟨⟨edited, _⟩, budget⟩, hrun, h⟩ := bind_eq_ok.mp h
  obtain ⟨restored, hrestored, h⟩ := bind_eq_ok.mp h
  obtain ⟨_, -, h⟩ := bind_eq_ok.mp h
  cases h
  have hensures : Ensures (do
      Budget.charge (inputBytes * 2)
      updater.operations.foldlM (applyOperation services) (document, false) :
        Work (BsonDocument × Bool)) fun next => EditRun updater.paths document next.1 :=
    .after fun _ => operations_ensures services updater.operations document false
  exact ⟨edited, hensures _ _ _ hrun, hrestored⟩

theorem apply_valueAt [BsonWire.Crate] (h : updater.apply services document = .ok result)
    (hpath : ∀ other ∈ updater.paths, Incomparable other path)
    (hfound : document.valueAt path = some found) : result.valueAt path = some found := by
  obtain ⟨edited, hrun, hrestore⟩ := apply_editRun services h
  rcases restoreId_eq hrestore with ⟨-, rfl⟩ | ⟨id, horiginal, hresult, rfl⟩
  · exact hrun.valueAt_eq hpath hfound
  · cases path with
    | nil =>
      -- only an updater without operations leaves the whole document alone
      have hpaths : updater.paths = [] := eq_nil_iff_forall_not_mem.mpr
        fun other hother => (hpath other hother).2 nil_prefix
      rw [hpaths] at hrun
      cases hrun
      rwa [replaceFirst_self horiginal]
    | cons component rest =>
      by_cases hid : component = "_id"
      · grind [valueAt_replaceFirst_self]
      · rw [valueAt_replaceFirst hid]
        exact hrun.valueAt_eq hpath hfound

theorem apply_order [BsonWire.Crate]
    (hfree : updater.paths.Pairwise Incomparable) (h : updater.apply services document = .ok result)
    (hplace : ∀ other ∈ updater.paths, ¬ other <+: place) {before : BsonDocument}
    (hbefore : document.valueAt place = some (.document before)) :
    ∃ after : BsonDocument, result.valueAt place = some (.document after) ∧
      (after.names.filter (· ∈ before.names)).Sublist before.names := by
  obtain ⟨edited, hrun, hrestore⟩ := apply_editRun services h
  obtain ⟨after, hafter, horder⟩ :=
    hrun.inOrder hplace hfree hbefore (InOrder.refl place before.names)
  rcases restoreId_eq hrestore with ⟨-, rfl⟩ | ⟨id, horiginal, hresult, rfl⟩
  · exact ⟨after, hafter, horder.ordered⟩
  · cases place with
    | nil =>
      simp only [valueAt, BsonValue.valueAt, Option.some.injEq,
        BsonValue.document.injEq] at hafter ⊢
      subst hafter
      exact ⟨_, rfl, by simpa using horder.ordered⟩
    | cons component rest =>
      by_cases hid : component = "_id"
      · subst hid
        rw [valueAt_replaceFirst_self horiginal hresult, hbefore]
        exact ⟨before, rfl, filter_sublist⟩
      · rw [valueAt_replaceFirst hid]
        exact ⟨after, hafter, horder.ordered⟩

theorem apply_id [BsonWire.Crate] (h : updater.apply services document = .ok result) {id : BsonValue}
    (hid : document.getFirst "_id" = some id) : result.getFirst "_id" = some id := by
  obtain ⟨edited, -, hrestore⟩ := apply_editRun services h
  rcases restoreId_eq hrestore with ⟨hnone, -⟩ | ⟨originalId, horiginal, hresult, rfl⟩
  · cases hid.symm.trans hnone
  · rw [getFirst_replaceFirst hresult, ← horiginal, hid]

/-- The paths of a compiled updater do not overlap. -/
theorem update_frame [BsonWire.Crate] {spec : BsonDocument} {updater : DocumentUpdater Matcher}
    (hcompile : compile services spec = .ok updater) :
    updater.paths.Pairwise Incomparable ∧
      ∀ document result : BsonDocument, updater.apply services document = .ok result →
        (∀ path found, (∀ other ∈ updater.paths, Incomparable other path) →
          document.valueAt path = some found → result.valueAt path = some found) ∧
        (∀ (place : List String) (before : BsonDocument),
          (∀ other ∈ updater.paths, ¬ other <+: place) →
          document.valueAt place = some (.document before) →
            ∃ after : BsonDocument, result.valueAt place = some (.document after) ∧
              (after.names.filter (· ∈ before.names)).Sublist before.names) ∧
        (∀ id, document.getFirst "_id" = some id → result.getFirst "_id" = some id) := by
  have hfree := compile_incomparable services hcompile
  refine ⟨hfree, fun document result happly => ⟨?_, ?_, ?_⟩⟩
  · exact fun path found hpath hfound => apply_valueAt services happly hpath hfound
  · exact fun place before hplace hbefore => apply_order services hfree happly hplace hbefore
  · exact fun id hid => apply_id services happly hid

def plainServices : Services Empty where
  compilePull _ _ := .error DocumentUpdateError.unsupportedOperator.error
  matchesPull condition _ := nomatch condition
  addF64 left _ := left
  f64OfInt _ := F64.nan
  incrementDecimal left _ := left

section Nested

def nestedSpec : BsonDocument :=
  [("$set", .document [("a.b", .int32 1)]), ("$rename", .document [("e", .string "f")])]

def nestedUpdater : DocumentUpdater Empty :=
  ⟨[⟨["a", "b"], .field (.set (.int32 1))⟩, ⟨["e"], .rename ["f"]⟩], 1813⟩

def nestedBefore : BsonDocument :=
  [("_id", .int32 7), ("e", .boolean true), ("c", .int64 1), ("a", .document [("d", .null)])]

theorem compile_nested :
    letI := BsonWire.specified
    compile plainServices nestedSpec = .ok nestedUpdater := by
  let := BsonWire.specified
  have hsorted : [["a", "b"], ["e"], ["f"]].mergeSort pathLe = [["a", "b"], ["e"], ["f"]] :=
    mergeSort_of_pairwise (by decide +kernel)
  change (if overlaps ([["a", "b"], ["e"], ["f"]].mergeSort pathLe) then
      throw DocumentUpdateError.conflictingPaths.error
    else (pure ⟨_, _⟩ : EngineResult (DocumentUpdater Empty))) = _
  rw [hsorted]
  rfl

/-- A field set inside `a` and `e` renamed, around an identity, a field `c` and a field of `a`
that was there. -/
theorem update_frame_nested :
    letI := BsonWire.specified
    ∃ updater : DocumentUpdater Empty, compile plainServices nestedSpec = .ok updater ∧
      updater.paths.Pairwise Incomparable ∧
      ∃ result : BsonDocument, updater.apply plainServices nestedBefore = .ok result ∧
        result.names = ["_id", "c", "a", "f"] ∧
        result.valueAt ["c"] = some (.int64 1) ∧
        result.valueAt ["a", "d"] = some .null ∧
        result.getFirst "_id" = some (.int32 7) := by
  let := BsonWire.specified
  obtain ⟨hfree, hframe⟩ := update_frame plainServices compile_nested
  have hnames : (nestedUpdater.apply plainServices nestedBefore).map BsonDocument.names =
      .ok ["_id", "c", "a", "f"] := by decide +kernel
  obtain ⟨result, happly, hnames⟩ := Result.map_eq_ok.mp hnames
  obtain ⟨hvalues, -, hid⟩ := hframe _ _ happly
  have hoff : ∀ path ∈ [["c"], ["a", "d"]], ∀ other ∈ nestedUpdater.paths,
      Incomparable other path := by
    simp [nestedUpdater, paths, Operation.paths, Incomparable]
  refine ⟨_, compile_nested, hfree, result, happly, hnames, ?_, ?_, hid (.int32 7) rfl⟩
  · exact hvalues ["c"] (.int64 1) (hoff _ (by simp)) rfl
  · exact hvalues ["a", "d"] .null (hoff _ (by simp)) rfl

end Nested

/-- A document that the update replaces as a whole takes the order of its operand. -/
theorem update_reorders_replaced :
    letI := BsonWire.specified
    ∃ (updater : DocumentUpdater Empty) (result : BsonDocument),
      compile plainServices
          [("$set", .document [("a", .document [("y", .int32 2), ("x", .int32 1)])])] =
            .ok updater ∧
        updater.apply plainServices
            [("a", .document [("x", .int32 1), ("y", .int32 2)])] = .ok result ∧
        result.valueAt ["a"] = some (.document [("y", .int32 2), ("x", .int32 1)]) ∧
        ¬ (["y", "x"].filter (· ∈ ["x", "y"])).Sublist ["x", "y"] := by
  let := BsonWire.specified
  have hcompile : compile plainServices
      [("$set", .document [("a", .document [("y", .int32 2), ("x", .int32 1)])])] =
        .ok ⟨[⟨["a"], .field (.set (.document [("y", .int32 2), ("x", .int32 1)]))⟩], 1160⟩ := by
    with_unfolding_all rfl
  have happly : DocumentUpdater.apply plainServices
      ⟨[⟨["a"], .field (.set (.document [("y", .int32 2), ("x", .int32 1)]))⟩], 1160⟩
      [("a", .document [("x", .int32 1), ("y", .int32 2)])] =
        .ok [("a", .document [("y", .int32 2), ("x", .int32 1)])] := by with_unfolding_all rfl
  exact ⟨_, _, hcompile, happly, rfl, by decide⟩

end BriskDB.Document.DocumentUpdater
