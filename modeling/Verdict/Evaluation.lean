import Verdict.Expr.Basic
import Verdict.Options

/-!
# Evaluation

An expression is evaluated on named fields, which are given by a look-up function. The left operand
of a connective comes first; if it settles the connective, the right one is evaluated only in
exhaustive mode, where it can still bring out an error.
-/

namespace Verdict

/-- The value of each field, where there is one. -/
abbrev Fields := String → Option Value

namespace Condition

/--
Whether a value meets the condition. Under `=` an integer equals no literal; the other operators
need integers on both sides and look at the literal first.
-/
def holdsFor (condition : Condition) (actual : Value) : Except RuleError Bool :=
  match condition.operator with
  | .equal =>
    match actual, condition.literal with
    | .text actual, .text expected => .ok (actual == expected)
    | _, _ => .ok false
  | operator =>
    match condition.literal, actual with
    | .text _, _ => .error (.literalNotInteger condition.field condition.literal)
    | .integer _, .text _ => .error (.valueNotInteger condition.field)
    | .integer expected, .integer actual => .ok (operator.compareIntegers actual expected)

def holds (condition : Condition) (fields : Fields) : Except RuleError Bool :=
  match fields condition.field with
  | none => .error (.unknownField condition.field)
  | some actual => condition.holdsFor actual

end Condition

namespace Expr

def evaluate (mode : EvaluationMode) (fields : Fields) : Expr → Except RuleError Bool
  | .leaf text => do
    let condition ← Condition.ofText text
    condition.holds fields
  | .node connective left right => do
    let leftValue ← left.evaluate mode fields
    if connective.isSettledBy leftValue && mode == .shortCircuit then
      return leftValue
    let rightValue ← right.evaluate mode fields
    return connective.apply leftValue rightValue

end Expr

end Verdict
