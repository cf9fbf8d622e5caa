import BriskDB.Document.Matcher
import BriskDB.Lib.Charged

/-! # What a matcher decides

The truth of a compiled query on a document, without steps and limits: the candidates of a
path as a list, predicates as Boolean functions of one candidate. The evaluation computes
exactly this truth unless a limit stops it.
-/

namespace BriskDB.Document.Matcher

open Charged Result

variable {Expression : Type} (engine : RegexEngine Expression)

def candidates : List String → BsonValue → List Candidate
  | [], value => [⟨some value, false⟩]
  | part :: remaining, value =>
    let inDocument (document : BsonDocument) : List Candidate :=
      match BsonDocument.getFirst document part with
      | some value => candidates remaining value
      | none => [⟨none, false⟩]
    match value with
    | .document document => inDocument document
    | .array values =>
      let indexed : List Candidate :=
        match (arrayIndex part).bind (values[·]?) with
        | some value =>
          if remaining.isEmpty then [⟨some value, true⟩]
          else
            match value with
            | .document _ | .array _ => candidates remaining value
            | _ => []
        | none => []
      indexed ++ values.flatMap fun member =>
        match member with
        | .document document => inDocument document
        | _ => []
    | _ => [⟨none, false⟩]

def candidatesOf (part : String) (remaining : List String) (root : BsonValue)
    (arrayDocument : Bool) : List Candidate :=
  if closedTo part root arrayDocument then [⟨none, false⟩] else candidates (part :: remaining) root

def onMembers (actual : Option BsonValue) (exact includeArray : Bool)
    (holds : Option BsonValue → Bool) : Bool :=
  match arrayMembers actual exact with
  | some values => (includeArray && holds actual) || values.any fun value => holds (some value)
  | none => holds actual

def equals (actual : Option BsonValue) (expected : BsonValue) (exact : Bool) : Bool :=
  match actual with
  | none => (expected matches .null)
  | some value => value.eq expected || ((arrayMembers actual exact).getD []).any (·.eq expected)

def CompiledRegex.holds (regex : CompiledRegex Expression)
    (actual : Option BsonValue) (exact : Bool) : Bool :=
  onMembers actual exact false fun value => (regex.test engine value).getD false

def amongCandidates (negative : Bool) (candidates : List Candidate) (holds : Candidate → Bool) :
    Bool :=
  if negative then candidates.all holds else candidates.any holds

mutual

def DocumentMatcher.holds : DocumentMatcher Expression → BsonValue → Bool → Bool → Bool
  | ⟨clauses, _⟩, root, exactId, arrayDocument => clausesHold clauses root exactId arrayDocument

def clausesHold : List (Clause Expression) → BsonValue → Bool → Bool → Bool
  | [], _, _, _ => true
  | clause :: clauses, root, exactId, arrayDocument =>
    clause.holds root exactId arrayDocument &&
      clausesHold clauses root exactId arrayDocument

def Clause.holds : Clause Expression → BsonValue → Bool → Bool → Bool
  | .logical .and children, root, exactId, arrayDocument =>
    !someFails children root exactId arrayDocument
  | .logical .or children, root, exactId, arrayDocument =>
    someHolds children root exactId arrayDocument
  | .logical .nor children, root, exactId, arrayDocument =>
    !someHolds children root exactId arrayDocument
  | .field part remaining fieldId predicates, root, exactId, arrayDocument =>
    fieldHolds predicates (candidatesOf part remaining root arrayDocument)
      (exactId && fieldId)

def someHolds : List (DocumentMatcher Expression) → BsonValue → Bool → Bool → Bool
  | [], _, _, _ => false
  | child :: children, root, exactId, arrayDocument =>
    child.holds root exactId arrayDocument ||
      someHolds children root exactId arrayDocument

def someFails : List (DocumentMatcher Expression) → BsonValue → Bool → Bool → Bool
  | [], _, _, _ => false
  | child :: children, root, exactId, arrayDocument =>
    !child.holds root exactId arrayDocument ||
      someFails children root exactId arrayDocument

def fieldHolds : List (Predicate Expression) → List Candidate → Bool → Bool
  | [], _, _ => true
  | predicate :: predicates, candidates, exact =>
    amongCandidates predicate.negative candidates (fun candidate =>
        predicate.holds candidate.value (exact || candidate.indexed)) &&
      fieldHolds predicates candidates exact

def Predicate.holds : Predicate Expression → Option BsonValue → Bool → Bool
  | .equal value, actual, exact => equals actual value exact
  | .notEqual value, actual, exact => !equals actual value exact
  | .present expected, actual, _ => actual.isSome = expected
  | .range operand greater inclusive, actual, exact =>
    onMembers actual exact true fun value =>
      inRange (value.getD .null) operand greater inclusive
  | .member members negative, actual, exact => anyHolds members actual exact != negative
  | .all members, actual, exact => !members.isEmpty && membersHold members actual exact
  | .element element, actual, _ => element.holds actual
  | .not predicates, actual, exact => !allHold predicates actual exact
  | .regex regex, actual, exact => regex.holds engine actual exact
  | .size size, actual, _ => hasSize size actual
  | .types names, actual, exact =>
    onMembers actual exact true fun value =>
      value.any fun value => names.any (typeMatches value)
  | .mod divisor remainder, actual, exact =>
    onMembers actual exact false (hasRemainder divisor remainder)

def allHold : List (Predicate Expression) → Option BsonValue → Bool → Bool
  | [], _, _ => true
  | predicate :: predicates, actual, exact =>
    predicate.holds actual exact && allHold predicates actual exact

def anyHolds : List (Member Expression) → Option BsonValue → Bool → Bool
  | [], _, _ => false
  | member :: members, actual, exact => member.holds actual exact || anyHolds members actual exact

def membersHold : List (Member Expression) → Option BsonValue → Bool → Bool
  | [], _, _ => true
  | member :: members, actual, exact =>
    member.holdsWithin actual exact && membersHold members actual exact

def Member.holdsWithin : Member Expression → Option BsonValue → Bool → Bool
  | .literal value, actual, exact =>
    onMembers actual exact false fun member => equals member value true
  | .regex regex, actual, exact =>
    onMembers actual exact false fun member => regex.holds engine member exact
  | .element element, actual, exact => onMembers actual exact false fun _ => element.holds actual

def Member.holds : Member Expression → Option BsonValue → Bool → Bool
  | .literal value, actual, exact => equals actual value exact
  | .regex regex, actual, exact => regex.holds engine actual exact
  | .element element, actual, _ => element.holds actual

def Element.holds : Element Expression → Option BsonValue → Bool
  | .fields predicates, actual =>
    (elements actual).any fun value => allHold predicates (some value) true
  | .document matcher, actual =>
    (elements actual).any fun value =>
      match elementKind value with
      | some arrayDocument => matcher.holds value false arrayDocument
      | none => false

end

abbrev Decides (test : Work Bool) (holds : Bool) : Prop :=
  Within EngineError.Limited test (· = holds)

theorem step_within : Within EngineError.Limited step fun _ => True := by
  intro steps
  by_cases hsteps : steps + 1 > maxMatchSteps
  · have hrun : step steps = .error limit := by
      change (if steps + 1 > maxMatchSteps then throw limit else pure .unit : Work Unit)
        (steps + 1) = _
      rw [if_pos hsteps]
      rfl
    rw [hrun]
    rfl
  · have hrun : step steps = .ok ((), steps + 1) := by
      change (if steps + 1 > maxMatchSteps then throw limit else pure .unit : Work Unit)
        (steps + 1) = _
      rw [if_neg hsteps]
      rfl
    rw [hrun]
    trivial

theorem within_step {α : Type} {computation : Work α} {P : α → Prop}
    (h : Within EngineError.Limited computation P) :
    Within EngineError.Limited (do step; computation) P :=
  step_within.bind fun _ _ => h

/-- The candidates that were to be collected, of which there are not too many. -/
def Collects (expected result : List Candidate) : Prop :=
  result = expected ∧ result.length ≤ maxPathCandidates

theorem candidate_within {output : List Candidate} (h : output.length ≤ maxPathCandidates)
    (value : Option BsonValue) (indexed : Bool) :
    Within EngineError.Limited (candidate output value indexed)
      (Collects (output ++ [⟨value, indexed⟩])) := by
  unfold candidate
  refine .ite (fun _ => .throw rfl) fun hfull => .pure ⟨rfl, ?_⟩
  grind

theorem findField_within (part : String) (document : BsonDocument) :
    Within EngineError.Limited (findField part document)
      (· = BsonDocument.getFirst document part) := by
  induction document with
  | nil => exact .pure rfl
  | cons entry document ih =>
    rw [BsonDocument.getFirst_cons]
    refine within_step (.ite (fun hname => ?_) fun hname => ?_)
    · rw [if_pos hname]
      exact .pure rfl
    · simp [*]

theorem resolve_within (parts : List String) (value : BsonValue) {output : List Candidate}
    (h : output.length ≤ maxPathCandidates) :
    Within EngineError.Limited (resolve parts value output)
      (Collects (output ++ candidates parts value)) := by
  induction parts generalizing value output with
  | nil => exact within_step (candidate_within h (some value) false)
  | cons part remaining ih =>
    have hdocument : ∀ (document : BsonDocument) (output : List Candidate),
        output.length ≤ maxPathCandidates → Within EngineError.Limited (do
            match ← findField part document with
            | some value => resolve remaining value output
            | none => candidate output none false)
          (Collects (output ++ candidates (part :: remaining) (.document document))) := by
      intro document output h
      refine (findField_within part document).bind fun found hfound => ?_
      simp only [candidates, ← hfound]
      cases found with
      | none => exact candidate_within h none false
      | some value => exact ih value h
    unfold resolve
    refine within_step ?_
    cases value with
    | document document => exact hdocument document output h
    | array values =>
      have hmembers : ∀ output : List Candidate, output.length ≤ maxPathCandidates →
          Within EngineError.Limited (values.foldlM (fun output member => do
            step
            match member with
            | .document document => do
              step
              match ← findField part document with
              | some value => resolve remaining value output
              | none => candidate output none false
            | _ => return output) output)
          (Collects (output ++ values.flatMap fun member =>
            match member with
            | .document document => candidates (part :: remaining) (.document document)
            | _ => [])) := by
        intro output
        apply Within.foldlM_append (I := (·.length ≤ maxPathCandidates))
        refine fun output h member _ => within_step ?_
        cases member with
        | document document => exact within_step (hdocument document output h)
        | _ => exact .pure ⟨by simp, h⟩
      unfold candidates
      simp only [← List.append_assoc]
      cases (arrayIndex part).bind (values[·]?) with
      | none =>
        simp only [List.append_nil]
        exact hmembers output h
      | some value =>
        simp only
        split
        · exact (candidate_within h (some value) true).bind fun _ h => h.1 ▸ hmembers _ h.2
        · cases value with
          | document | array => exact (ih _ h).bind fun _ h => h.1 ▸ hmembers _ h.2
          | _ =>
            simp only [List.append_nil]
            exact hmembers output h
    | _ => exact candidate_within h none false

theorem clauseCandidates_within (part : String) (remaining : List String) (root : BsonValue)
    (arrayDocument : Bool) :
    Within EngineError.Limited (clauseCandidates part remaining root arrayDocument)
      (Collects (candidatesOf part remaining root arrayDocument)) := by
  unfold clauseCandidates candidatesOf
  split
  · exact candidate_within (Nat.zero_le _) none false
  · exact resolve_within (part :: remaining) root (Nat.zero_le _)

theorem scalarOrMembers_decides {actual : Option BsonValue} {exact includeArray : Bool}
    {test : Option BsonValue → Work Bool} {holds : Option BsonValue → Bool}
    (h : ∀ value, Decides (test value) (holds value)) :
    Decides (scalarOrMembers actual exact includeArray test)
      (onMembers actual exact includeArray holds) := by
  unfold scalarOrMembers onMembers
  cases arrayMembers actual exact with
  | none => exact h actual
  | some values =>
    refine .orElse ?_ (.anyM fun value _ => within_step (h (some value)))
    cases includeArray with
    | true => exact h actual
    | false => exact .pure rfl

theorem equal_decides (actual : Option BsonValue) (expected : BsonValue) (exact : Bool) :
    Decides (equal actual expected exact) (equals actual expected exact) := by
  refine within_step ?_
  cases actual with
  | none => exact .pure rfl
  | some value =>
    simp only [equals]
    refine .ite (fun heq => ?_) fun heq => ?_
    · exact .pure (by rw [heq, Bool.true_or])
    · rw [Bool.eq_false_iff.mpr heq, Bool.false_or]
      exact .anyM fun value _ => within_step (.pure rfl)

theorem CompiledRegex.evaluate_decides
    (regex : CompiledRegex Expression) (actual : Option BsonValue) (exact : Bool) :
    Decides (regex.evaluate engine actual exact) (regex.holds engine actual exact) := by
  refine scalarOrMembers_decides fun value => within_step ?_
  cases regex.test engine value with
  | none => exact .throw rfl
  | some result => exact .pure rfl

theorem Decides.not {test : Work Bool} {holds : Bool} (h : Decides test holds) :
    Decides (do return !(← test)) (!holds) :=
  h.bind fun result hresult => .pure (by rw [hresult])

mutual

theorem DocumentMatcher.evaluate_decides :
    ∀ (matcher : DocumentMatcher Expression) (root : BsonValue) (exactId arrayDocument : Bool),
      Decides (matcher.evaluate engine root exactId arrayDocument)
        (matcher.holds engine root exactId arrayDocument)
  | ⟨clauses, _⟩, root, exactId, arrayDocument =>
    within_step (evaluateClauses_decides clauses root exactId arrayDocument)

theorem evaluateClauses_decides :
    ∀ (clauses : List (Clause Expression)) (root : BsonValue) (exactId arrayDocument : Bool),
      Decides (evaluateClauses engine clauses root exactId arrayDocument)
        (clausesHold engine clauses root exactId arrayDocument)
  | [], _, _, _ => .pure rfl
  | clause :: clauses, root, exactId, arrayDocument =>
    within_step (.andThen (clause.evaluate_decides root exactId arrayDocument)
      (evaluateClauses_decides clauses root exactId arrayDocument))

theorem Clause.evaluate_decides :
    ∀ (clause : Clause Expression) (root : BsonValue) (exactId arrayDocument : Bool),
      Decides (clause.evaluate engine root exactId arrayDocument)
        (clause.holds engine root exactId arrayDocument)
  | .logical kind children, root, exactId, arrayDocument => by
    obtain ⟨hsome, hall⟩ := evaluateChildren_decides children root exactId arrayDocument
    unfold Clause.evaluate
    cases kind with
    | and => exact hall.bind fun found hfound => .pure (by rw [hfound]; rfl)
    | or => exact (hsome .or nofun).bind fun found hfound => .pure (by rw [hfound]; rfl)
    | nor => exact (hsome .nor nofun).bind fun found hfound => .pure (by rw [hfound]; rfl)
  | .field part remaining fieldId predicates, root, exactId, arrayDocument => by
    unfold Clause.evaluate
    refine (clauseCandidates_within part remaining root arrayDocument).bind ?_
    rintro _ ⟨rfl, -⟩
    exact evaluateField_decides predicates _ _

theorem evaluateChildren_decides :
    ∀ (children : List (DocumentMatcher Expression)) (root : BsonValue)
      (exactId arrayDocument : Bool),
      (∀ kind ≠ .and,
        Decides (evaluateChildren engine kind children root exactId arrayDocument)
          (someHolds engine children root exactId arrayDocument)) ∧
      Decides (evaluateChildren engine .and children root exactId arrayDocument)
        (!someFails engine children root exactId arrayDocument)
  | [], _, _, _ => ⟨fun _ hkind => .pure (decide_eq_false hkind), .pure rfl⟩
  | child :: children, root, exactId, arrayDocument => by
    have hchild := child.evaluate_decides root exactId arrayDocument
    obtain ⟨hsome, hall⟩ := evaluateChildren_decides children root exactId arrayDocument
    unfold evaluateChildren someHolds someFails
    refine ⟨fun kind hkind => hchild.bind fun matched hmatched => ?_,
      hchild.bind fun matched hmatched => ?_⟩
    · rw [← hmatched, decide_eq_false hkind]
      cases matched with
      | true => exact .pure rfl
      | false => exact hsome kind hkind
    · rw [← hmatched]
      cases matched with
      | true => exact hall
      | false => exact .pure rfl

theorem evaluateField_decides :
    ∀ (predicates : List (Predicate Expression)) (candidates : List Candidate) (exact : Bool),
      Decides (evaluateField engine predicates candidates exact)
        (fieldHolds engine predicates candidates exact)
  | [], _, _ => .pure rfl
  | predicate :: predicates, candidates, exact => by
    have htest : ∀ candidate ∈ candidates,
        Decides (predicate.evaluate engine candidate.value (exact || candidate.indexed))
          (predicate.holds engine candidate.value (exact || candidate.indexed)) :=
      fun candidate _ => predicate.evaluate_decides _ _
    unfold evaluateField fieldHolds
    refine .andThen ?_ (evaluateField_decides predicates candidates exact)
    unfold overCandidates amongCandidates
    cases predicate.negative with
    | true => exact .allM htest
    | false => exact .anyM htest

theorem Predicate.evaluate_decides :
    ∀ (predicate : Predicate Expression) (actual : Option BsonValue) (exact : Bool),
      Decides (predicate.evaluate engine actual exact) (predicate.holds engine actual exact)
  | .equal value, actual, exact => within_step (equal_decides actual value exact)
  | .notEqual value, actual, exact => within_step (equal_decides actual value exact).not
  | .present _, _, _ => within_step (.pure rfl)
  | .range _ _ _, _, _ => within_step (scalarOrMembers_decides fun _ => within_step (.pure rfl))
  | .member members negative, actual, exact =>
    within_step ((evaluateAny_decides members actual exact).bind
      fun found hfound => .pure (by rw [hfound]; rfl))
  | .all members, actual, exact => by
    unfold Predicate.evaluate Predicate.holds
    refine within_step ?_
    cases members.isEmpty with
    | true => exact .pure rfl
    | false => exact evaluateMembers_decides members actual exact
  | .element element, actual, _ => within_step (element.evaluate_decides actual)
  | .not predicates, actual, exact => within_step (evaluateAll_decides predicates actual exact).not
  | .regex regex, actual, exact => within_step (regex.evaluate_decides engine actual exact)
  | .size _, _, _ => within_step (.pure rfl)
  | .types _, _, _ => within_step (scalarOrMembers_decides fun _ => .pure rfl)
  | .mod _ _, _, _ => within_step (scalarOrMembers_decides fun _ => .pure rfl)

theorem evaluateAll_decides :
    ∀ (predicates : List (Predicate Expression)) (actual : Option BsonValue) (exact : Bool),
      Decides (evaluateAll engine predicates actual exact) (allHold engine predicates actual exact)
  | [], _, _ => .pure rfl
  | predicate :: predicates, actual, exact =>
    .andThen (predicate.evaluate_decides actual exact)
      (evaluateAll_decides predicates actual exact)

theorem evaluateAny_decides :
    ∀ (members : List (Member Expression)) (actual : Option BsonValue) (exact : Bool),
      Decides (evaluateAny engine members actual exact) (anyHolds engine members actual exact)
  | [], _, _ => .pure rfl
  | member :: members, actual, exact =>
    .orElse (member.evaluate_decides actual exact)
      (evaluateAny_decides members actual exact)

theorem evaluateMembers_decides :
    ∀ (members : List (Member Expression)) (actual : Option BsonValue) (exact : Bool),
      Decides (evaluateMembers engine members actual exact)
        (membersHold engine members actual exact)
  | [], _, _ => .pure rfl
  | member :: members, actual, exact =>
    .andThen (member.within_decides actual exact)
      (evaluateMembers_decides members actual exact)

theorem Member.within_decides :
    ∀ (member : Member Expression) (actual : Option BsonValue) (exact : Bool),
      Decides (member.within engine actual exact) (member.holdsWithin engine actual exact)
  | .literal value, _, _ => scalarOrMembers_decides fun member => equal_decides member value true
  | .regex regex, _, exact =>
    scalarOrMembers_decides fun member => regex.evaluate_decides engine member exact
  | .element element, actual, _ => scalarOrMembers_decides fun _ => element.evaluate_decides actual

theorem Member.evaluate_decides :
    ∀ (member : Member Expression) (actual : Option BsonValue) (exact : Bool),
      Decides (member.evaluate engine actual exact) (member.holds engine actual exact)
  | .literal value, actual, exact => equal_decides actual value exact
  | .regex regex, actual, exact => regex.evaluate_decides engine actual exact
  | .element element, actual, _ => element.evaluate_decides actual

theorem Element.evaluate_decides :
    ∀ (element : Element Expression) (actual : Option BsonValue),
      Decides (element.evaluate engine actual) (element.holds engine actual)
  | .fields predicates, _ =>
    .anyM fun value _ => within_step (evaluateAll_decides predicates (some value) true)
  | .document matcher, _ => by
    refine .anyM fun value _ => within_step ?_
    cases elementKind value with
    | none => exact .pure rfl
    | some arrayDocument => exact matcher.evaluate_decides value false arrayDocument

end

variable (matcher : DocumentMatcher Expression) {document : BsonDocument}

/-- A document that is decided is valid, and the decision is the truth. -/
theorem DocumentMatcher.matchesInput_eq_ok [BsonWire.Crate] {result : Bool}
    (h : matcher.matchesInput engine document = .ok result) :
    (∃ bytes, encodeDocument document = .ok bytes) ∧
      result = matcher.holds engine (.document document) true false := by
  obtain ⟨bytes, hbytes, h⟩ := bind_eq_ok.mp h
  obtain ⟨⟨found, steps⟩, hrun, h⟩ := bind_eq_ok.mp h
  cases h
  have hdecides := matcher.evaluate_decides engine (.document document) true false 0
  rw [hrun] at hdecides
  exact ⟨⟨bytes, BsonResult.toEngine_eq_ok.mp hbytes⟩, hdecides⟩

theorem DocumentMatcher.matchesInput_cases [BsonWire.Crate] (hvalid : ∃ bytes, encodeDocument document = .ok bytes) :
    matcher.matchesInput engine document =
        .ok (matcher.holds engine (.document document) true false) ∨
      ∃ error, matcher.matchesInput engine document = .error error ∧ error.Limited := by
  obtain ⟨bytes, hbytes⟩ := hvalid
  have hdecides := matcher.evaluate_decides engine (.document document) true false 0
  unfold matchesInput matchesWithCheck
  rw [BsonResult.toEngine_eq_ok.mpr hbytes, ok_bind]
  cases hrun : matcher.evaluate engine (.document document) true false 0 with
  | error error =>
    rw [hrun] at hdecides
    exact .inr ⟨error, rfl, hdecides⟩
  | ok pair =>
    rw [hrun] at hdecides
    exact .inl (congrArg Except.ok hdecides)

end BriskDB.Document.Matcher
