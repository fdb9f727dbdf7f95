import Verdict.Proofs.ConditionGrammar
import Verdict.Proofs.Walks

namespace Verdict

/-- Two results that are the same, or else both about a malformed rule. -/
inductive Alike {α : Type} : Except RuleError α → Except RuleError α → Prop where
  | ok (value : α) : Alike (.ok value) (.ok value)
  | field {error : RuleError} (h : error.kind ≠ .malformedRule) :
      Alike (.error error) (.error error)
  | malformed {error other : RuleError} (h : error.kind = .malformedRule)
      (hother : other.kind = .malformedRule) : Alike (.error error) (.error other)

theorem Alike.refl {α : Type} (result : Except RuleError α) : Alike result result := by
  cases result with
  | ok value => exact .ok value
  | error error =>
    by_cases h : error.kind = .malformedRule
    · exact .malformed h h
    · exact .field h

theorem Alike.bind {α β : Type} {first second : Except RuleError α}
    {next other : α → Except RuleError β} (hfirst : Alike first second)
    (hnext : ∀ value, Alike (next value) (other value)) :
    Alike (first >>= next) (second >>= other) := by
  cases hfirst with
  | ok value => exact hnext value
  | field h => exact .field h
  | malformed h hother => exact .malformed h hother

theorem Alike.eq_ok_iff {α : Type} {first second : Except RuleError α} (h : Alike first second)
    (value : α) : first = .ok value ↔ second = .ok value := by
  cases h with
  | ok value => rfl
  | field h => rfl
  | malformed h hother => simp

theorem Condition.ofText_eq_ok_of_compact {text other : String} {condition : Condition}
    (hcompact : Text.compact text.toList = Text.compact other.toList)
    (h : ofText text = .ok condition) : ofText other = .ok condition := by
  rw [ofText_eq_ok_iff] at h ⊢
  rwa [← hcompact]

theorem Condition.alike_ofText {text other : String}
    (hcompact : Text.compact text.toList = Text.compact other.toList) :
    Alike (ofText text) (ofText other) := by
  cases htext : ofText text with
  | ok condition =>
    rw [ofText_eq_ok_of_compact hcompact htext]
    exact .ok condition
  | error error =>
    cases hother : ofText other with
    | ok condition =>
      rw [ofText_eq_ok_of_compact hcompact.symm hother] at htext
      cases htext
    | error otherError =>
      exact .malformed (onlyMalformed_ofText text error htext)
        (onlyMalformed_ofText other otherError hother)

namespace Expr

/-- The same shape and connectives, with the same leaves but for blanks. -/
inductive SameButBlanks : Expr → Expr → Prop where
  | leaf {text other : String} (h : Text.compact text.toList = Text.compact other.toList) :
      SameButBlanks (.leaf text) (.leaf other)
  | node (connective : Connective) {left right otherLeft otherRight : Expr}
      (hleft : SameButBlanks left otherLeft) (hright : SameButBlanks right otherRight) :
      SameButBlanks (.node connective left right) (.node connective otherLeft otherRight)

/-- The expression with its leaves as a rule would give them. -/
def trimmed : Expr → Expr
  | .leaf text => comparison text.toList
  | .node connective left right => .node connective left.trimmed right.trimmed

theorem sameButBlanks_trimmed (expr : Expr) : SameButBlanks expr expr.trimmed := by
  induction expr with
  | leaf text =>
    apply SameButBlanks.leaf
    rw [String.toList_ofList, Text.compact_trim]
  | node connective left right ihLeft ihRight => exact .node connective ihLeft ihRight

variable {expr other : Expr}

theorem alike_evaluate (h : SameButBlanks expr other) (mode : EvaluationMode) (fields : Fields) :
    Alike (expr.evaluate mode fields) (other.evaluate mode fields) := by
  induction h with
  | leaf hcompact => exact (Condition.alike_ofText hcompact).bind fun condition => .refl _
  | node connective _ _ ihLeft ihRight =>
    apply ihLeft.bind
    intro leftValue
    split
    · exact .refl _
    · exact ihRight.bind fun rightValue => .refl _

theorem validate_leaf (text : String) :
    (leaf text).validate = Condition.ofText text >>= fun _ => .ok () := by
  rw [validate, leaves_eq_fringe, fringe, List.forM_eq_forM, List.forM_cons, List.forM_nil]
  cases Condition.ofText text <;> rfl

theorem validate_node (connective : Connective) (left right : Expr) :
    (node connective left right).validate = left.validate >>= fun _ => right.validate := by
  simp only [validate, leaves_eq_fringe, fringe, List.forM_eq_forM, List.forM_append]

theorem alike_validate (h : SameButBlanks expr other) : Alike expr.validate other.validate := by
  induction h with
  | leaf hcompact =>
    rw [validate_leaf, validate_leaf]
    exact (Condition.alike_ofText hcompact).bind fun _ => .ok ()
  | node connective _ _ ihLeft ihRight =>
    rw [validate_node, validate_node]
    exact ihLeft.bind fun _ => ihRight

/--
Trees with the same leaves but for blanks have the same verdict or the same error about a field, or
else both have an error about the text of a leaf. Validation accepts both or none.
-/
theorem evaluate_of_sameButBlanks (h : SameButBlanks expr other) :
    (∀ mode fields, Alike (expr.evaluate mode fields) (other.evaluate mode fields)) ∧
      (expr.validate = .ok () ↔ other.validate = .ok ()) :=
  ⟨alike_evaluate h, (alike_validate h).eq_ok_iff ()⟩

/--
A no-break space inside a number and blanks around the leaves. The second leaf is malformed, and its
error shows it as it stands in the tree.
-/
theorem evaluate_of_sameButBlanks_untrimmed :
    let expr : Expr := .node .or (.leaf "\ta > 3\u00a00 ") (.leaf " b\n")
    let fields (value : Int64) : Fields := fun name =>
      if name = "a" then some (.integer value) else none
    expr.trimmed = .node .or (.leaf "a > 3\u00a00") (.leaf "b") ∧
      (∀ mode value, Alike (expr.evaluate mode (fields value))
        (expr.trimmed.evaluate mode (fields value))) ∧
      expr.evaluate .shortCircuit (fields 31) = .ok true ∧
      expr.trimmed.evaluate .shortCircuit (fields 31) = .ok true ∧
      expr.evaluate .exhaustive (fields 31) = .error (.noOperator " b\n") ∧
      expr.trimmed.evaluate .exhaustive (fields 31) = .error (.noOperator "b") ∧
      expr.trimmed.validate ≠ .ok () := by
  intro expr fields
  obtain ⟨halike, hvalid⟩ := evaluate_of_sameButBlanks expr.sameButBlanks_trimmed
  have hrefused : expr.validate ≠ .ok () := by
    rw [validate_eq]
    exact nofun
  refine ⟨by decide +kernel, fun mode value => halike mode (fields value), rfl, ?_, rfl, rfl, ?_⟩
  · exact ((halike .shortCircuit (fields 31)).eq_ok_iff true).mp rfl
  · rwa [ne_eq, ← hvalid]

end Expr

end Verdict
