import BriskDB.Document.MatcherMeaning

/-! # Negated predicates

A negated operator must hold on every candidate of its path and the operator it negates on
one candidate, so that the two are complements. `$not` of several operators is different:
each of the operators may hold on a candidate of its own, while `$not` asks of every single
candidate that one of them fails.
-/

namespace BriskDB.Document.Matcher

open Charged Result List

variable {Expression : Type} (engine : RegexEngine Expression)

theorem compileRegex_agree (operand : BsonValue) (options : String) :
    Agree (compileRegex engine operand options) (compileRegex engine operand options) := by
  unfold compileRegex
  refine .ite (.throw _) (.bind (.lift _) fun parts => ?_)
  exact .ite (.throw _) (.bind (.charge _ _) fun _ => .lift _)

theorem regexPredicate_agree (regex : BsonRegex) :
    Agree (regexPredicate engine regex) (regexPredicate engine regex) :=
  .bind (compileRegex_agree engine _ _) fun _ => .pure _

theorem simplePredicate_agree (expression : BsonDocument)
    (operator : Operator) (operand : BsonValue) :
    Agree (simplePredicate engine expression operator operand)
      (simplePredicate engine expression operator operand) := by
  refine .ite (.bind (.lift _) fun options => ?_) (.lift _)
  exact .bind (compileRegex_agree engine operand options) fun _ => .pure _

variable {predicates predicates' : Compile (List (Predicate Expression))}

theorem clauseOf_agree {inside : Bool} {name : String}
    {children children' : Compile (List (DocumentMatcher Expression))}
    (hchildren : Agree children children') (hpredicates : Agree predicates predicates') :
    Agree (clauseOf inside name children predicates)
      (clauseOf inside name children' predicates') := by
  unfold clauseOf
  refine .ite (.pure _) ?_
  split
  · exact .bind hchildren fun _ => .pure _
  · refine .ite (.throw _) (.ite (.throw _) ?_)
    exact .bind hpredicates fun _ => .pure _

theorem predicateOf_agree {operator : Operator}
    {members members' : Bool → Compile (List (Member Expression))}
    {element element' : Compile (Element Expression)}
    {nested nested' : Compile (List (Predicate Expression))}
    {simple : Compile (Option (Predicate Expression))}
    (hmembers : ∀ all, Agree (members all) (members' all)) (helement : Agree element element')
    (hnested : Agree nested nested') (hsimple : Agree simple simple) :
    Agree (predicateOf operator members element nested simple)
      (predicateOf operator members' element' nested' simple) := by
  unfold predicateOf
  cases operator with
  | member negative => exact .bind (hmembers false) fun _ => .pure _
  | all => exact .bind (hmembers true) fun _ => .pure _
  | elemMatch => exact .bind helement fun _ => .pure _
  | not => exact .bind hnested fun _ => .pure _
  | _ => exact hsimple

theorem elementOf_agree {document : BsonDocument}
    {clauses clauses' : Compile (List (Clause Expression))}
    (hpredicates : Agree predicates predicates') (hclauses : Agree clauses clauses') :
    Agree (elementOf document predicates clauses) (elementOf document predicates' clauses') :=
  .ite (.bind hpredicates fun _ => .pure _) (.bind hclauses fun _ => .pure _)

abbrev DepthFree {α : Type} (compile : Nat → Compile α) : Prop :=
  ∀ depth depth', Agree (compile depth) (compile depth')

mutual

theorem compileClauses_agree :
    ∀ (inside : Bool) (filter : List (String × BsonValue)),
      DepthFree (compileClauses engine inside filter)
  | _, [], _, _ => .pure _
  | inside, (name, value) :: filter, _, _ =>
    .bind (.charge _ _) fun _ => .bind (compileClause_agree inside name value _ _) fun _ =>
      .bind (compileClauses_agree inside filter _ _) fun _ => .pure _

theorem compileClause_agree :
    ∀ (inside : Bool) (name : String) (value : BsonValue),
      DepthFree (compileClause engine inside name value)
  | inside, name, value, _, _ => by
    cases value with
    | array values =>
      unfold compileClause
      exact clauseOf_agree (.ite (.throw _) (compileFilters_agree inside values _ _)) (.pure _)
    | document expression =>
      unfold compileClause
      have hpredicates := compilePredicates_agree inside expression expression
      exact clauseOf_agree (.throw _)
        (.ite (.bind (.charge _ _) fun _ => hpredicates _ _) (.pure _))
    | regularExpression regex => exact clauseOf_agree (.throw _) (regexPredicate_agree engine regex)
    | _ => exact clauseOf_agree (.throw _) (.pure _)

theorem compileFilters_agree :
    ∀ (inside : Bool) (values : List BsonValue), DepthFree (compileFilters engine inside values)
  | _, [], _, _ => .pure _
  | inside, value :: values, _, _ => by
    cases value with
    | document filter =>
      exact .bind (.charge _ _) fun _ => .bind (compileClauses_agree inside filter _ _) fun _ =>
        .bind (compileFilters_agree inside values _ _) fun _ => .pure _
    | _ => exact .throw _

theorem compilePredicates_agree :
    ∀ (inside : Bool) (expression : BsonDocument) (entries : List (String × BsonValue)),
      DepthFree (compilePredicates engine inside expression entries)
  | _, _, [], _, _ => .pure _
  | inside, expression, (name, operand) :: entries, _, _ => by
    unfold compilePredicates
    refine .bind (.charge _ _) fun _ => ?_
    cases fieldOperator name with
    | none => exact .throw _
    | some operator =>
      exact .bind (compilePredicate_agree inside expression operator operand _ _) fun _ =>
        .bind (compilePredicates_agree inside expression entries _ _) fun _ => .pure _

theorem compilePredicate_agree :
    ∀ (inside : Bool) (expression : BsonDocument) (operator : Operator) (operand : BsonValue),
      DepthFree (compilePredicate engine inside expression operator operand)
  | inside, expression, operator, operand, _, _ => by
    have hsimple := simplePredicate_agree engine expression operator operand
    cases operand with
    | array values =>
      exact predicateOf_agree (fun all => compileEach_agree all values _ _)
        (.throw _) (.throw _) hsimple
    | document document =>
      unfold compilePredicate
      have hpredicates := fun inside => compilePredicates_agree inside document document
      have hclauses := compileClauses_agree true document
      exact predicateOf_agree (fun _ => .throw _)
        (.bind (.charge _ _) fun _ => elementOf_agree (hpredicates true _ _) (hclauses _ _))
        (.ite (.throw _) (.bind (.charge _ _) fun _ => hpredicates inside _ _)) hsimple
    | regularExpression regex =>
      exact predicateOf_agree (fun _ => .throw _) (.throw _)
        (regexPredicate_agree engine regex) hsimple
    | _ => exact predicateOf_agree (fun _ => .throw _) (.throw _) (.throw _) hsimple

theorem compileEach_agree :
    ∀ (all : Bool) (values : List BsonValue), DepthFree (compileEach engine all values)
  | _, [], _, _ => .pure _
  | all, value :: values, _, _ =>
    .bind (.charge _ _) fun _ => .bind (compileMember_agree all value _ _) fun _ =>
      .bind (compileEach_agree all values _ _) fun _ => .pure _

theorem compileMember_agree :
    ∀ (all : Bool) (value : BsonValue), DepthFree (compileMember engine all value)
  | all, value, _, _ => by
    cases value with
    | regularExpression regex => exact .bind (compileRegex_agree engine _ _) fun _ => .pure _
    | document document =>
      unfold compileMember
      refine .ite ?_ (.pure _)
      cases document with
      | nil => exact .throw _
      | cons entry rest =>
        obtain ⟨name, value⟩ := entry
        cases value with
        | document element =>
          have hpredicates := compilePredicates_agree true element element
          have hclauses := compileClauses_agree true element
          cases rest with
          | cons _ _ => exact .throw _
          | nil =>
            exact .ite (.bind (.charge _ _) fun _ =>
              .bind (elementOf_agree (hpredicates _ _) (hclauses _ _)) fun _ =>
                .pure _) (.throw _)
        | _ => cases rest <;> exact .throw _
    | _ => exact .pure _

end

def answer [BsonWire.Crate] (filter document : BsonDocument) : EngineResult Bool := do
  let matcher ← compile engine filter
  matcher.matchesInput engine document

def Expresses (expression : BsonDocument) (predicates : List (Predicate Expression)) : Prop :=
  ∃ depth compiler compiler',
    compilePredicates engine false expression expression depth compiler =
      .ok (predicates, compiler')

section Answers

variable {engine} {filter document expression : BsonDocument} {name : String} {operand : BsonValue}
  {predicates : List (Predicate Expression)} {result : Bool}

theorem Expresses.unique {predicates' : List (Predicate Expression)}
    (h : Expresses engine expression predicates) (h' : Expresses engine expression predicates') :
    predicates = predicates' := by
  obtain ⟨depth, _, _, h⟩ := h
  obtain ⟨depth', _, _, h'⟩ := h'
  exact compilePredicates_agree engine false expression expression depth depth' _ _ _ _ _ _ h h'

theorem splitPath_eq_cons (name : String) :
    (splitPath name).headD "" :: (splitPath name).tail = splitPath name := by
  cases hsplit : splitPath name with
  | cons part remaining => rfl
  | nil => exact absurd (map_eq_nil_iff.mp hsplit) (splitOn_ne_nil _ _)

/-- An answer is the truth of the compiled clauses. -/
theorem answer_eq_ok [BsonWire.Crate] (h : answer engine filter document = .ok result) :
    ∃ compiler clauses compiler',
      compileClauses engine false filter 0 compiler = .ok (clauses, compiler') ∧
        result = clausesHold engine clauses (.document document) true false := by
  obtain ⟨matcher, hcompile, h⟩ := bind_eq_ok.mp h
  obtain ⟨-, hdecides⟩ := matcher.matchesInput_eq_ok engine h
  obtain ⟨_, _, hcompile⟩ := bind_eq_ok.mp hcompile
  obtain ⟨⟨clauses, compiler⟩, hclauses, hcompile⟩ := bind_eq_ok.mp hcompile
  obtain ⟨_, _, _, hclauses⟩ := run_bind_eq_ok.mp hclauses
  cases hcompile
  exact ⟨_, clauses, compiler, hclauses, hdecides⟩

theorem answer_single [BsonWire.Crate] (h : answer engine [(name, operand)] document = .ok result) :
    ∃ compiler clause compiler',
      compileClause engine false name operand 0 compiler = .ok (clause, compiler') ∧
        result = clausesHold engine clause.toList (.document document) true false := by
  obtain ⟨_, clauses, _, hclauses, hresult⟩ := answer_eq_ok h
  obtain ⟨_, _, _, hclauses⟩ := run_bind_eq_ok.mp hclauses
  obtain ⟨clause, _, hclause, hclauses⟩ := run_bind_eq_ok.mp hclauses
  obtain ⟨_, _, hnil, hclauses⟩ := run_bind_eq_ok.mp hclauses
  cases hnil
  cases hclauses
  grind

/-- A field with an expression asks each predicate of the candidates of its path. -/
theorem answer_expression [BsonWire.Crate] (hcomment : name ≠ "$comment")
    (hoperator : operatorDocument expression = true)
    (h : answer engine [(name, .document expression)] document = .ok result) :
    ∃ predicates, Expresses engine expression predicates ∧
      result = fieldHolds engine predicates (candidates (splitPath name) (.document document))
        (name = "_id") := by
  obtain ⟨compiler, clause, _, hclause, hresult⟩ := answer_single h
  unfold compileClause clauseOf at hclause
  rw [if_neg hcomment, if_pos hoperator] at hclause
  cases hkind : logicalKind name with
  | some kind =>
    rw [hkind] at hclause
    cases hclause
  | none =>
    simp only [hkind] at hclause
    split at hclause
    · cases hclause
    split at hclause
    · cases hclause
    obtain ⟨predicates, _, hpredicates, hclause⟩ := run_bind_eq_ok.mp hclause
    obtain ⟨_, _, _, hpredicates⟩ := run_bind_eq_ok.mp hpredicates
    cases hclause
    refine ⟨predicates, ⟨_, _, _, hpredicates⟩, ?_⟩
    rw [hresult, ← splitPath_eq_cons name]
    exact Bool.and_true _

theorem operatorDocument_single (h : DocumentSorter.startsWithDollar name = true) :
    operatorDocument [(name, operand)] = true := by
  simp [operatorDocument, h]

theorem Expresses.single {operator : Operator} (hname : fieldOperator name = some operator)
    (h : Expresses engine [(name, operand)] predicates) :
    ∃ depth compiler predicate compiler',
      compilePredicate engine false [(name, operand)] operator operand depth compiler =
        .ok (predicate, compiler') ∧ predicates = predicate.toList := by
  obtain ⟨depth, _, _, h⟩ := h
  obtain ⟨_, _, _, h⟩ := run_bind_eq_ok.mp h
  rw [hname] at h
  obtain ⟨predicate, _, hpredicate, h⟩ := run_bind_eq_ok.mp h
  obtain ⟨_, _, hnil, h⟩ := run_bind_eq_ok.mp h
  cases hnil
  cases h
  exact ⟨depth, _, predicate, _, hpredicate, append_nil _⟩

theorem Expresses.eq (h : Expresses engine [("$eq", operand)] predicates) :
    predicates = [.equal operand] := by
  obtain ⟨_, _, predicate, _, hpredicate, rfl⟩ := h.single (rfl : fieldOperator "$eq" = some .eq)
  cases operand <;> cases hpredicate <;> rfl

theorem Expresses.ne (h : Expresses engine [("$ne", operand)] predicates) :
    predicates = [.notEqual operand] := by
  obtain ⟨_, _, predicate, _, hpredicate, rfl⟩ := h.single (rfl : fieldOperator "$ne" = some .ne)
  cases operand <;> cases hpredicate <;> rfl

theorem Expresses.exists (h : Expresses engine [("$exists", operand)] predicates) :
    predicates = [.present (truthy operand)] := by
  obtain ⟨_, _, predicate, _, hpredicate, rfl⟩ :=
    h.single (rfl : fieldOperator "$exists" = some .exists)
  cases operand <;> cases hpredicate <;> rfl

theorem Expresses.member {negative : Bool} (hname : fieldOperator name = some (.member negative))
    (h : Expresses engine [(name, operand)] predicates) :
    ∃ values depth compiler members compiler', operand = .array values ∧
      compileEach engine false values depth compiler = .ok (members, compiler') ∧
        predicates = [.member members negative] := by
  obtain ⟨depth, _, predicate, _, hpredicate, rfl⟩ := h.single hname
  cases operand with
  | array values =>
    obtain ⟨members, _, hmembers, h⟩ := run_bind_eq_ok.mp hpredicate
    cases h
    exact ⟨values, depth, _, members, _, rfl, hmembers, rfl⟩
  | _ => cases hpredicate

theorem Expresses.not (h : Expresses engine [("$not", .document expression)] predicates) :
    ∃ nested, Expresses engine expression nested ∧ predicates = [.not nested] := by
  obtain ⟨_, _, predicate, _, hpredicate, rfl⟩ := h.single (rfl : fieldOperator "$not" = some .not)
  obtain ⟨nested, _, hnested, h⟩ := run_bind_eq_ok.mp hpredicate
  cases h
  split at hnested
  · cases hnested
  · obtain ⟨_, _, _, hnested⟩ := run_bind_eq_ok.mp hnested
    exact ⟨nested, ⟨_, _, _, hnested⟩, rfl⟩

variable {queries : List BsonDocument} {answers : List Bool}

/-- The filters below a logical operator are those that compile on their own. -/
theorem someHolds_of_answers [BsonWire.Crate]
    (hanswers : List.Forall₂ (fun query result => answer engine query document = .ok result)
      queries answers)
    {depth : Nat} {compiler compiler' : Compiler} {children : List (DocumentMatcher Expression)}
    (h : compileFilters engine false (queries.map .document) depth compiler =
      .ok (children, compiler')) :
    someHolds engine children (.document document) true false = answers.any id := by
  induction hanswers generalizing compiler children with
  | nil =>
    cases h
    rfl
  | @cons query result queries answers hanswer _ ih =>
    obtain ⟨_, _, _, h⟩ := run_bind_eq_ok.mp h
    obtain ⟨clauses, _, hclauses, h⟩ := run_bind_eq_ok.mp h
    obtain ⟨rest, _, hrest, h⟩ := run_bind_eq_ok.mp h
    cases h
    obtain ⟨_, clauses', _, hclauses', hresult⟩ := answer_eq_ok hanswer
    have hsame := compileClauses_agree engine false query depth 0 _ _ _ _ _ _ hclauses hclauses'
    rw [any_cons, ← ih hrest, hresult, ← hsame]
    rfl

theorem answer_nor [BsonWire.Crate]
    (hanswers : List.Forall₂ (fun query result => answer engine query document = .ok result)
      queries answers)
    (h : answer engine [("$nor", .array (queries.map .document))] document = .ok result) :
    result = !answers.any id := by
  obtain ⟨_, clause, _, hclause, hresult⟩ := answer_single h
  obtain ⟨children, _, hchildren, hclause⟩ := run_bind_eq_ok.mp hclause
  cases hclause
  split at hchildren
  · cases hchildren
  · rw [hresult, ← someHolds_of_answers hanswers hchildren]
    exact Bool.and_true _

end Answers

section Complements

variable (candidates : List Candidate) (exact : Bool)

theorem fieldHolds_singleton (predicate : Predicate Expression) :
    fieldHolds engine [predicate] candidates exact =
      amongCandidates predicate.negative candidates fun candidate =>
        predicate.holds engine candidate.value (exact || candidate.indexed) :=
  Bool.and_true _

/-- A negative predicate is the complement of its positive one. -/
theorem fieldHolds_complement {positive negative : Predicate Expression}
    (hpositive : positive.negative = false) (hnegative : negative.negative = true)
    (h : ∀ actual exact, negative.holds engine actual exact = !positive.holds engine actual exact) :
    fieldHolds engine [negative] candidates exact =
      !fieldHolds engine [positive] candidates exact := by
  simp [*, fieldHolds_singleton, amongCandidates, not_any_eq_all_not]

theorem fieldHolds_one (predicates : List (Predicate Expression)) (candidate : Candidate) :
    fieldHolds engine predicates [candidate] exact =
      allHold engine predicates candidate.value (exact || candidate.indexed) := by
  induction predicates with
  | nil => rfl
  | cons predicate predicates ih =>
    unfold fieldHolds allHold
    rw [ih]
    congr 1
    simp [amongCandidates]

end Complements

theorem allHold_eq_all (predicates : List (Predicate Expression))
    (actual : Option BsonValue) (exact : Bool) :
    allHold engine predicates actual exact =
      predicates.all fun predicate => predicate.holds engine actual exact := by
  induction predicates with
  | nil => rfl
  | cons predicate predicates ih => rw [allHold, ih, all_cons]

/-- `$ne`, `$nin`, `$exists` and `$nor` are complements. -/
theorem negations_complement [BsonWire.Crate] (document : BsonDocument)
    (name : String) (hcomment : name ≠ "$comment") :
    (∀ (operand : BsonValue) (negated positive : Bool),
      answer engine [(name, .document [("$ne", operand)])] document = .ok negated →
      answer engine [(name, .document [("$eq", operand)])] document = .ok positive →
      negated = !positive) ∧
    (∀ (operand : BsonValue) (negated positive : Bool),
      answer engine [(name, .document [("$nin", operand)])] document = .ok negated →
      answer engine [(name, .document [("$in", operand)])] document = .ok positive →
      negated = !positive) ∧
    (∀ negated positive : Bool,
      answer engine [(name, .document [("$exists", .boolean false)])] document = .ok negated →
      answer engine [(name, .document [("$exists", .boolean true)])] document = .ok positive →
      negated = !positive) ∧
    (∀ (expression : BsonDocument) (negated positive : Bool),
      operatorDocument expression = true →
      answer engine [(name, .document [("$not", .document expression)])] document =
        .ok negated →
      answer engine [(name, .document expression)] document = .ok positive →
      ∃ predicates, Expresses engine expression predicates ∧
        (negated = (candidates (splitPath name) (.document document)).all fun candidate =>
          predicates.any fun predicate =>
            !predicate.holds engine candidate.value ((name = "_id") || candidate.indexed)) ∧
        ((candidates (splitPath name) (.document document)).length = 1 →
          negated = !positive) ∧
        ∀ predicate, predicates = [predicate] → predicate.negative = false →
          negated = !positive) ∧
    (∀ (queries : List BsonDocument) (answers : List Bool) (negated : Bool),
      answer engine [("$nor", .array (queries.map .document))] document = .ok negated →
      List.Forall₂ (fun query result => answer engine query document = .ok result)
        queries answers →
      negated = !answers.any id) := by
  refine ⟨?_, ?_, ?_, ?_, fun queries answers negated h hanswers => answer_nor hanswers h⟩
  · intro operand negated positive hnegated hpositive
    obtain ⟨_, hne, rfl⟩ := answer_expression hcomment (operatorDocument_single rfl) hnegated
    obtain ⟨_, heq, rfl⟩ := answer_expression hcomment (operatorDocument_single rfl) hpositive
    rw [hne.ne, heq.eq]
    exact fieldHolds_complement engine _ _ rfl rfl fun _ _ => rfl
  · intro operand negated positive hnegated hpositive
    obtain ⟨_, hnin, rfl⟩ := answer_expression hcomment (operatorDocument_single rfl) hnegated
    obtain ⟨_, hin, rfl⟩ := answer_expression hcomment (operatorDocument_single rfl) hpositive
    obtain ⟨values, _, _, members, _, rfl, hmembers, rfl⟩ := hnin.member rfl
    obtain ⟨_, _, _, members', _, hvalues, hmembers', rfl⟩ := hin.member rfl
    cases hvalues
    cases compileEach_agree engine false values _ _ _ _ _ _ _ _ hmembers hmembers'
    refine fieldHolds_complement engine _ _ rfl rfl fun actual exact => ?_
    simp [Predicate.holds]
  · intro negated positive hnegated hpositive
    obtain ⟨_, habsent, rfl⟩ := answer_expression hcomment (operatorDocument_single rfl) hnegated
    obtain ⟨_, hpresent, rfl⟩ := answer_expression hcomment (operatorDocument_single rfl) hpositive
    rw [habsent.exists, hpresent.exists]
    refine fieldHolds_complement engine _ _ rfl rfl fun actual exact => ?_
    cases actual <;> rfl
  · intro expression negated positive hoperator hnegated hpositive
    obtain ⟨_, hnot, rfl⟩ := answer_expression hcomment (operatorDocument_single rfl) hnegated
    obtain ⟨predicates, hexpression, rfl⟩ := answer_expression hcomment hoperator hpositive
    obtain ⟨nested, hnested, rfl⟩ := hnot.not
    cases hnested.unique hexpression
    refine ⟨predicates, hexpression, ?_, ?_, ?_⟩
    · rw [fieldHolds_singleton]
      simp [amongCandidates, Predicate.negative, Predicate.holds, allHold_eq_all, not_all_eq_any_not]
    · intro hone
      obtain ⟨candidate, hcandidate⟩ := length_eq_one_iff.mp hone
      rw [hcandidate, fieldHolds_one, fieldHolds_one]
      exact Bool.and_true _
    · rintro predicate rfl hpositive
      refine fieldHolds_complement engine _ _ hpositive rfl fun actual exact => ?_
      rw [Predicate.holds, allHold, allHold, Bool.and_true]

def noRegex : RegexEngine Unit := ⟨fun _ _ => .error (queryError 51091), fun _ _ => some false⟩

def bothSides : BsonDocument :=
  [("a", .array [.document [("b", .string "z")], .document [("b", .string "a")]])]

/-- Different members satisfy the two operators, so the expression matches; no member
satisfies both, so its `$not` matches as well. -/
theorem not_matches_with_expression :
    letI := BsonWire.specified
    operatorDocument [("$gt", .string "m"), ("$lt", .string "m")] = true ∧
    answer noRegex [("a.b", .document [("$not",
      .document [("$gt", .string "m"), ("$lt", .string "m")])])] bothSides = .ok true ∧
    answer noRegex [("a.b", .document [("$gt", .string "m"), ("$lt", .string "m")])]
      bothSides = .ok true := by
  let := BsonWire.specified
  refine ⟨rfl, ?_, ?_⟩
  · decide +kernel
  · decide +kernel

theorem negations_complement_both_sides :
    letI := BsonWire.specified
    answer noRegex [("a.b", .document [("$ne", .string "z")])] bothSides = .ok false ∧
    answer noRegex [("a.b", .document [("$eq", .string "z")])] bothSides = .ok true ∧
    false = !true :=
  letI := BsonWire.specified
  have hne : answer noRegex [("a.b", .document [("$ne", .string "z")])] bothSides =
    .ok false := by decide +kernel
  have heq : answer noRegex [("a.b", .document [("$eq", .string "z")])] bothSides =
    .ok true := by decide +kernel
  ⟨hne, heq, (negations_complement noRegex bothSides "a.b" (by decide)).1 _ _ _ hne heq⟩

end BriskDB.Document.Matcher
