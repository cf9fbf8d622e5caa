import BriskDB.Document.CodecBudget
import BriskDB.Document.MatcherMeaning

/-! # Partial-index membership proofs

A query may use a partial index if it implies the index's filter. The proof is syntactic:
every condition of the filter is an equality with a scalar or an existence that the query
states itself, for the same path. A field may match through different members of an array, so
nothing weaker is inferred. Charges of the proof to the caller, which can only end it with an
error, are not part of the model.
-/

namespace BriskDB.Document.Matcher

open Charged

variable {Expression : Type}

def partialScalar : BsonValue → Bool
  | .array _ | .document _ | .javaScript _ _ | .regularExpression _ => false
  | _ => true

/-- The comparison of representations, for the scalars to which the proof applies it. -/
def representationEq : BsonValue → BsonValue → Bool
  | .double left, .double right => left = right
  | .string left, .string right => left = right
  | .binary left, .binary right => left = right
  | .uuid left, .uuid right => left = right
  | .objectId left, .objectId right => left = right
  | .boolean left, .boolean right => left = right
  | .dateTime left, .dateTime right => left = right
  | .int32 left, .int32 right => left = right
  | .timestamp left, .timestamp right => left = right
  | .int64 left, .int64 right => left = right
  | .decimal128 left, .decimal128 right => left = right
  | .null, .null | .minKey, .minKey | .maxKey, .maxKey => true
  | _, _ => false

def sameFact : Predicate Expression → Predicate Expression → Bool
  | .present true, .present true => true
  | .equal left, .equal right =>
    partialScalar left && partialScalar right && representationEq left right
  | _, _ => false

section Facts

variable (part : String) (remaining : List String) (exactId : Bool)
  (required : Predicate Expression)

mutual

def DocumentMatcher.requiresPartialFact : DocumentMatcher Expression → Bool
  | ⟨clauses, _⟩ => someClauseRequires clauses

def someClauseRequires : List (Clause Expression) → Bool
  | [] => false
  | clause :: clauses => clause.requiresPartialFact || someClauseRequires clauses

def Clause.requiresPartialFact : Clause Expression → Bool
  | .field part' remaining' exactId' predicates =>
    exactId' = exactId && part' :: remaining' = part :: remaining &&
      predicates.any (sameFact required)
  | .logical .and children => someChildRequires children
  | .logical .or children => !children.isEmpty && everyChildRequires children
  | .logical .nor _ => false

def someChildRequires : List (DocumentMatcher Expression) → Bool
  | [] => false
  | child :: children => child.requiresPartialFact || someChildRequires children

def everyChildRequires : List (DocumentMatcher Expression) → Bool
  | [] => true
  | child :: children => child.requiresPartialFact && everyChildRequires children

end

end Facts

mutual

def DocumentMatcher.isImpliedByIndexQuery :
    DocumentMatcher Expression → DocumentMatcher Expression → Bool
  | ⟨clauses, _⟩, query => everyClauseImplied clauses query
termination_by structural filter => filter

def everyClauseImplied : List (Clause Expression) → DocumentMatcher Expression → Bool
  | [], _ => true
  | clause :: clauses, query => clause.isImplied query && everyClauseImplied clauses query
termination_by structural filter => filter

def Clause.isImplied : Clause Expression → DocumentMatcher Expression → Bool
  | .field part remaining exactId predicates, query =>
    predicates.all (query.requiresPartialFact part remaining exactId)
  | .logical .and children, query => everyChildImplied children query
  | .logical .or children, query => someChildImplied children query
  | .logical .nor _, _ => false
termination_by structural filter => filter

def everyChildImplied : List (DocumentMatcher Expression) → DocumentMatcher Expression → Bool
  | [], _ => true
  | child :: children, query =>
    child.isImpliedByIndexQuery query && everyChildImplied children query
termination_by structural filter => filter

def someChildImplied : List (DocumentMatcher Expression) → DocumentMatcher Expression → Bool
  | [], _ => false
  | child :: children, query => child.isImpliedByIndexQuery query || someChildImplied children query
termination_by structural filter => filter

end

theorem eq_of_representationEq {left right : BsonValue}
    (h : representationEq left right = true) : left = right := by
  cases left <;> cases right <;> simp_all [representationEq]

theorem eq_of_sameFact {required predicate : Predicate Expression}
    (h : sameFact required predicate = true) : predicate = required := by
  unfold sameFact at h
  split at h
  · rfl
  · rw [eq_of_representationEq (Bool.and_eq_true_iff.mp h).2]
  · cases h

variable (engine : RegexEngine Expression) (root : BsonValue) (fieldId arrayDocument : Bool)

def FactHolds (part : String) (remaining : List String) (exactId : Bool)
    (predicate : Predicate Expression) : Prop :=
  amongCandidates predicate.negative (candidatesOf part remaining root arrayDocument)
    (fun candidate => predicate.holds engine candidate.value
      ((fieldId && exactId) || candidate.indexed)) = true

theorem fieldHolds_iff {predicates : List (Predicate Expression)} {part : String}
    {remaining : List String} {exactId : Bool} :
    fieldHolds engine predicates (candidatesOf part remaining root arrayDocument)
        (fieldId && exactId) = true ↔
      ∀ predicate ∈ predicates,
        FactHolds engine root fieldId arrayDocument part remaining exactId predicate := by
  induction predicates with
  | nil => simp [fieldHolds]
  | cons predicate predicates ih =>
    rw [fieldHolds, Bool.and_eq_true, ih, List.forall_mem_cons]
    rfl

section RequiredFacts

variable {part : String} {remaining : List String} {exactId : Bool}
  {required : Predicate Expression}

mutual

theorem DocumentMatcher.fact_of_requires : ∀ matcher : DocumentMatcher Expression,
    matcher.requiresPartialFact part remaining exactId required = true →
    matcher.holds engine root fieldId arrayDocument = true →
    FactHolds engine root fieldId arrayDocument part remaining exactId required
  | ⟨clauses, _⟩, hrequires, hholds => fact_of_someClause clauses hrequires hholds

theorem fact_of_someClause : ∀ clauses : List (Clause Expression),
    someClauseRequires part remaining exactId required clauses = true →
    clausesHold engine clauses root fieldId arrayDocument = true →
    FactHolds engine root fieldId arrayDocument part remaining exactId required
  | clause :: clauses, hrequires, hholds => by
    obtain ⟨hclause, hclauses⟩ := Bool.and_eq_true_iff.mp hholds
    rcases Bool.or_eq_true_iff.mp hrequires with hrequires | hrequires
    · exact clause.fact_of_requires hrequires hclause
    · exact fact_of_someClause clauses hrequires hclauses

theorem Clause.fact_of_requires : ∀ clause : Clause Expression,
    clause.requiresPartialFact part remaining exactId required = true →
    clause.holds engine root fieldId arrayDocument = true →
    FactHolds engine root fieldId arrayDocument part remaining exactId required
  | .field part' remaining' exactId' predicates, hrequires, hholds => by
    simp only [Clause.requiresPartialFact, Bool.and_eq_true, decide_eq_true_eq, List.cons.injEq,
      List.any_eq_true] at hrequires
    obtain ⟨⟨rfl, rfl, rfl⟩, predicate, hmem, hsame⟩ := hrequires
    rw [← eq_of_sameFact hsame]
    exact (fieldHolds_iff engine root fieldId arrayDocument).mp hholds predicate hmem
  | .logical .and children, hrequires, hholds => fact_of_someChild children hrequires hholds
  | .logical .or children, hrequires, hholds =>
    fact_of_everyChild children (Bool.and_eq_true_iff.mp hrequires).2 hholds

theorem fact_of_someChild : ∀ children : List (DocumentMatcher Expression),
    someChildRequires part remaining exactId required children = true →
    (!someFails engine children root fieldId arrayDocument) = true →
    FactHolds engine root fieldId arrayDocument part remaining exactId required
  | child :: children, hrequires, hholds => by
    simp only [someFails, Bool.not_or, Bool.not_not, Bool.and_eq_true] at hholds
    rcases Bool.or_eq_true_iff.mp hrequires with hrequires | hrequires
    · exact child.fact_of_requires hrequires hholds.1
    · exact fact_of_someChild children hrequires hholds.2

theorem fact_of_everyChild : ∀ children : List (DocumentMatcher Expression),
    everyChildRequires part remaining exactId required children = true →
    someHolds engine children root fieldId arrayDocument = true →
    FactHolds engine root fieldId arrayDocument part remaining exactId required
  | child :: children, hrequires, hholds => by
    obtain ⟨hchild, hchildren⟩ := Bool.and_eq_true_iff.mp hrequires
    rcases Bool.or_eq_true_iff.mp hholds with hholds | hholds
    · exact child.fact_of_requires hchild hholds
    · exact fact_of_everyChild children hchildren hholds

end

end RequiredFacts

section ImpliedFilters

variable {engine root fieldId arrayDocument} {query : DocumentMatcher Expression}

mutual

theorem DocumentMatcher.holds_of_implied
    (hquery : query.holds engine root fieldId arrayDocument = true) :
    ∀ filter : DocumentMatcher Expression, filter.isImpliedByIndexQuery query = true →
      filter.holds engine root fieldId arrayDocument = true
  | ⟨clauses, _⟩, himplied => holds_of_everyClause hquery clauses himplied

theorem holds_of_everyClause (hquery : query.holds engine root fieldId arrayDocument = true) :
    ∀ clauses : List (Clause Expression), everyClauseImplied clauses query = true →
      clausesHold engine clauses root fieldId arrayDocument = true
  | [], _ => rfl
  | clause :: clauses, himplied => by
    obtain ⟨hclause, hclauses⟩ := Bool.and_eq_true_iff.mp himplied
    exact Bool.and_eq_true_iff.mpr
      ⟨clause.holds_of_implied hquery hclause, holds_of_everyClause hquery clauses hclauses⟩

theorem Clause.holds_of_implied (hquery : query.holds engine root fieldId arrayDocument = true) :
    ∀ clause : Clause Expression, clause.isImplied query = true →
      clause.holds engine root fieldId arrayDocument = true
  | .field part remaining exactId predicates, himplied => by
    refine (fieldHolds_iff engine root fieldId arrayDocument).mpr fun predicate hmem => ?_
    exact query.fact_of_requires engine root fieldId arrayDocument
      (List.all_eq_true.mp himplied predicate hmem) hquery
  | .logical .and children, himplied => holds_of_everyChild hquery children himplied
  | .logical .or children, himplied => holds_of_someChild hquery children himplied

theorem holds_of_everyChild (hquery : query.holds engine root fieldId arrayDocument = true) :
    ∀ children : List (DocumentMatcher Expression), everyChildImplied children query = true →
      (!someFails engine children root fieldId arrayDocument) = true
  | [], _ => rfl
  | child :: children, himplied => by
    obtain ⟨hchild, hchildren⟩ := Bool.and_eq_true_iff.mp himplied
    rw [someFails, child.holds_of_implied hquery hchild]
    exact holds_of_everyChild hquery children hchildren

theorem holds_of_someChild (hquery : query.holds engine root fieldId arrayDocument = true) :
    ∀ children : List (DocumentMatcher Expression), someChildImplied children query = true →
      someHolds engine children root fieldId arrayDocument = true
  | child :: children, himplied => by
    rw [someHolds, Bool.or_eq_true]
    rcases Bool.or_eq_true_iff.mp himplied with himplied | himplied
    · exact .inl (child.holds_of_implied hquery himplied)
    · exact .inr (holds_of_someChild hquery children himplied)

end

end ImpliedFilters

/-- A document that the query matches is matched by every filter that the query implies,
unless a limit stops the filter. -/
theorem implied_filter_matches [BsonWire.Crate] (filter query : DocumentMatcher Expression)
    (himplied : filter.isImpliedByIndexQuery query = true) (document : BsonDocument)
    (hquery : query.matchesInput engine document = .ok true) :
    filter.matchesInput engine document = .ok true ∨
      ∃ error, filter.matchesInput engine document = .error error ∧ error.Limited := by
  obtain ⟨hvalid, hholds⟩ := query.matchesInput_eq_ok engine hquery
  have hfilter := DocumentMatcher.holds_of_implied hholds.symm filter himplied
  rw [← hfilter]
  exact filter.matchesInput_cases engine hvalid

def textFilter : DocumentMatcher Unit := ⟨[.field "a" [] false [.equal (.string "x")]], 0⟩

/-- The same documents, as far as they have a `b`. -/
def textQuery : DocumentMatcher Unit :=
  ⟨[.field "b" [] false [.present true], .field "a" [] false [.equal (.string "x")]], 0⟩

theorem implied_filter_matches_text :
    letI := BsonWire.specified
    textFilter.isImpliedByIndexQuery textQuery = true ∧
      textQuery.matchesInput ⟨fun _ _ => .error limit, fun _ _ => none⟩
        [("a", .array [.string "x"]), ("b", .null)] = .ok true ∧
      (textFilter.matchesInput ⟨fun _ _ => .error limit, fun _ _ => none⟩
        [("a", .array [.string "x"]), ("b", .null)] = .ok true ∨
        ∃ error, textFilter.matchesInput ⟨fun _ _ => .error limit, fun _ _ => none⟩
          [("a", .array [.string "x"]), ("b", .null)] = .error error ∧ error.Limited) :=
  letI := BsonWire.specified
  ⟨by decide +kernel, by decide +kernel,
    implied_filter_matches _ textFilter textQuery (by decide +kernel) _ (by decide +kernel)⟩

/-- More candidates than the limit are never returned. -/
theorem clauseCandidates_stops {part : String} {remaining : List String} {arrayDocument : Bool}
    (h : maxPathCandidates < (candidatesOf part remaining root arrayDocument).length) :
    Ensures (clauseCandidates part remaining root arrayDocument) fun _ => False :=
  (clauseCandidates_within part remaining root arrayDocument).ensures.mono
    fun _ hresult => absurd (hresult.1 ▸ hresult.2) (not_le.mpr h)

def presenceQuery : DocumentMatcher Unit := ⟨[.field "a" [] false [.present true]], 0⟩

/-- The filter `{$or: [{"a.b": 5}, {a: {$exists: true}}]}`. -/
def longPathFirst : DocumentMatcher Unit :=
  ⟨[.logical .or [⟨[.field "a" ["b"] false [.equal (.int32 5)]], 0⟩, presenceQuery]], 0⟩

theorem candidatesOf_crowded (count : Nat) :
    (candidatesOf "a" ["b"] (.document (crowdedDocument count)) false).length = count := by
  have hindex : arrayIndex "b" = none := by decide +kernel
  simp [candidatesOf, closedTo, crowdedDocument, namelessDocument, candidates, hindex,
    BsonDocument.getFirst_cons]

theorem longPathFirst_stops (engine : RegexEngine Unit) {count : Nat}
    (hcount : maxPathCandidates < count) :
    Ensures (longPathFirst.evaluate engine (.document (crowdedDocument count)) true false)
      fun _ => False := by
  have hstops := clauseCandidates_stops (.document (crowdedDocument count))
    (hcount.trans_eq (candidatesOf_crowded count).symm)
  have hfield : Ensures (Clause.evaluate engine (.field "a" ["b"] false [.equal (.int32 5)])
      (.document (crowdedDocument count)) true false) fun _ => False :=
    hstops.stops
  have hchild : Ensures (DocumentMatcher.evaluate engine
      ⟨[.field "a" ["b"] false [.equal (.int32 5)]], 0⟩ (.document (crowdedDocument count))
      true false) fun _ => False :=
    .after fun _ => .after fun _ => hfield.stops
  have hclause : Ensures (Clause.evaluate engine (.logical .or
      [⟨[.field "a" ["b"] false [.equal (.int32 5)]], 0⟩, presenceQuery])
      (.document (crowdedDocument count)) true false) fun _ => False :=
    .stops hchild.stops
  exact .after fun _ => .after fun _ => hclause.stops

/-- An array of 16385 documents, one more than a path may have candidates. -/
theorem implied_filter_stops :
    letI := BsonWire.specified
    longPathFirst.isImpliedByIndexQuery presenceQuery = true ∧
      presenceQuery.matchesInput ⟨fun _ _ => .error limit, fun _ _ => none⟩
        (crowdedDocument 16385) = .ok true ∧
      ∃ error, longPathFirst.matchesInput ⟨fun _ _ => .error limit, fun _ _ => none⟩
        (crowdedDocument 16385) = .error error ∧ error.Limited := by
  let := BsonWire.specified
  obtain ⟨bytes, hbytes⟩ := @encodeDocument_crowded 16385 _ (by decide)
  refine ⟨by decide, ?_, ?_⟩
  · unfold DocumentMatcher.matchesInput
    rw [BsonResult.toEngine_eq_ok.mpr hbytes]
    rfl
  · rcases longPathFirst.matchesInput_cases _ ⟨bytes, hbytes⟩ with h | h
    · obtain ⟨⟨found, steps⟩, hrun, -⟩ := Result.bind_eq_ok.mp
        (Result.bind_eq_ok.mp h).choose_spec.2
      exact (longPathFirst_stops _ (by decide) _ _ _ hrun).elim
    · exact h

end BriskDB.Document.Matcher
