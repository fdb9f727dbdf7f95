import Verdict.Proofs.RuleVerdict

namespace Verdict

theorem RuleError.findSome?_ofResult?_pair {α : Type} (first second : Except RuleError α) :
    [first, second].findSome? ofResult? = (ofResult? first).or (ofResult? second) := by
  cases first <;> cases second <;> rfl

theorem RuleError.eq_error_of_ofResult? {α : Type} {result : Except RuleError α} {error : RuleError}
    (h : ofResult? result = some error) : result = .error error := by
  cases result with
  | error cause => exact congrArg Except.error (Option.some.inj h)
  | ok value => cases h

theorem Connective.continueWith_exhaustive_eq_ok_iff {connective : Connective} {left value : Bool}
    {right : Outcome} :
    connective.continueWith .exhaustive left right = .ok value ↔
      ∃ rightValue, right = .ok rightValue ∧ connective.apply left rightValue = value := by
  cases right with
  | error error => simp [continueWith, Except.map]
  | ok rightValue => simp [continueWith_ok]

namespace Expr

variable {expr : Expr} {fields : Fields} {mode : EvaluationMode} {value : Bool} {text : String}
  {error : RuleError}

theorem ofResult?_evaluate_exhaustive (expr : Expr) (fields : Fields) :
    RuleError.ofResult? (expr.evaluate .exhaustive fields) =
      expr.fringe.findSome? fun text =>
        RuleError.ofResult? ((leaf text).evaluate .exhaustive fields) := by
  induction expr with
  | leaf text => simp [fringe]
  | node connective left right ihLeft ihRight =>
    rw [evaluate_node, fringe, List.findSome?_append, ← ihLeft, ← ihRight,
      ← RuleError.findSome?_ofResult?_pair]
    exact connective.ofResult?_exhaustively _

theorem evaluate_of_exhaustive (h : expr.evaluate .exhaustive fields = .ok value)
    (mode : EvaluationMode) : expr.evaluate mode fields = .ok value := by
  cases mode with
  | exhaustive => exact h
  | shortCircuit =>
    induction expr generalizing value with
    | leaf text => exact h
    | node connective left right ihLeft ihRight =>
      rw [evaluate_node, Connective.joinOutcomes_pair] at h ⊢
      obtain ⟨leftValue, hleft, hnext⟩ := bind_eq_ok_iff.mp h
      obtain ⟨rightValue, hright, rfl⟩ := Connective.continueWith_exhaustive_eq_ok_iff.mp hnext
      rw [ihLeft hleft, ihRight hright]
      exact connective.continueWith_ok .shortCircuit leftValue rightValue

theorem firstFault?_of_exhaustive (h : expr.evaluate .exhaustive fields = .ok value) :
    expr.firstFault? = none := by
  have hleaves : expr.fringe.findSome? (fun text =>
      RuleError.ofResult? ((leaf text).evaluate .exhaustive fields)) = none := by
    rw [← ofResult?_evaluate_exhaustive, h]
    rfl
  rw [firstFault?, List.findSome?_eq_none_iff]
  rw [List.findSome?_eq_none_iff] at hleaves
  intro text hmem
  have hleaf := hleaves text hmem
  rw [evaluate] at hleaf
  cases hcondition : Condition.ofText text with
  | ok condition => rfl
  | error error =>
    rw [hcondition] at hleaf
    cases hleaf

/-- The truth value of an expression if errors are left aside. -/
def truth (fields : Fields) : Expr → Bool
  | .leaf text => Outcome.isValue true ((leaf text).evaluate .exhaustive fields)
  | .node connective left right => connective.apply (left.truth fields) (right.truth fields)

theorem eq_truth_of_exhaustive (h : expr.evaluate .exhaustive fields = .ok value) :
    value = expr.truth fields := by
  induction expr generalizing value with
  | leaf text =>
    rw [truth, h]
    exact (beq_true value).symm
  | node connective left right ihLeft ihRight =>
    rw [evaluate_node, Connective.joinOutcomes_pair] at h
    obtain ⟨leftValue, hleft, hnext⟩ := bind_eq_ok_iff.mp h
    obtain ⟨rightValue, hright, rfl⟩ := Connective.continueWith_exhaustive_eq_ok_iff.mp hnext
    rw [truth, ihLeft hleft, ihRight hright]

theorem evaluate_exhaustive_eq (expr : Expr) (fields : Fields) :
    expr.evaluate .exhaustive fields =
      match expr.fringe.findSome? fun text =>
        RuleError.ofResult? ((leaf text).evaluate .exhaustive fields) with
      | some error => .error error
      | none => .ok (expr.truth fields) := by
  rw [← ofResult?_evaluate_exhaustive]
  cases hresult : expr.evaluate .exhaustive fields with
  | error error => rfl
  | ok value => exact congrArg Except.ok (eq_truth_of_exhaustive hresult)

/-- In either mode an error is the error of a leaf. -/
theorem exists_leaf_of_evaluate_eq_error (h : expr.evaluate mode fields = .error error) :
    ∃ text ∈ expr.fringe, (leaf text).evaluate mode fields = .error error := by
  induction expr with
  | leaf text => exact ⟨text, List.mem_singleton_self text, h⟩
  | node connective left right ihLeft ihRight =>
    rw [evaluate_node, Connective.joinOutcomes_pair] at h
    obtain hleft | ⟨value, -, hright⟩ := bind_eq_error_iff.mp h
    · obtain ⟨text, hmem, hleaf⟩ := ihLeft hleft
      exact ⟨text, List.mem_append_left _ hmem, hleaf⟩
    · obtain ⟨text, hmem, hleaf⟩ := ihRight (Connective.eq_error_of_continueWith hright)
      exact ⟨text, List.mem_append_right _ hmem, hleaf⟩

/-- A leaf with an error makes the exhaustive mode fail, with this error or an earlier one. -/
theorem evaluate_exhaustive_of_leaf {before after : List String}
    (hfringe : expr.fringe = before ++ text :: after)
    (hleaf : (leaf text).evaluate .exhaustive fields = .error error) :
    ∃ first ∈ before ++ [text], ∃ cause,
      (leaf first).evaluate .exhaustive fields = .error cause ∧
        expr.evaluate .exhaustive fields = .error cause := by
  have hfails : ((before ++ [text]).findSome? fun text =>
      RuleError.ofResult? ((leaf text).evaluate .exhaustive fields)).isSome = true := by
    rw [List.findSome?_isSome_iff]
    exact ⟨text, by simp, by rw [hleaf]; rfl⟩
  obtain ⟨cause, hcause⟩ := Option.isSome_iff_exists.mp hfails
  obtain ⟨first, hmem, hfirst⟩ := List.exists_of_findSome?_eq_some hcause
  refine ⟨first, hmem, cause, RuleError.eq_error_of_ofResult? hfirst, ?_⟩
  rw [evaluate_exhaustive_eq, hfringe, List.append_cons, List.findSome?_append, hcause]
  rfl

end Expr

end Verdict
