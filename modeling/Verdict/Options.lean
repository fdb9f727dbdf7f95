import Verdict.Error

namespace Verdict

/-- When the conditions of a rule are checked. -/
inductive Validation where
  /-- A condition is taken apart when it is evaluated. -/
  | deferred
  /-- Every condition of a rule is taken apart when the rule is read. -/
  | eager
deriving DecidableEq, Repr

structure ParseOptions where
  validation : Validation := .deferred
  /-- The number of levels that a tree may have. -/
  maxDepth : UInt64 := UInt64.ofNat defaultMaxDepth
deriving DecidableEq, Repr

/-- Whether the right operand of a connective is evaluated after the left one has settled it. -/
inductive EvaluationMode where
  | shortCircuit
  | exhaustive
deriving DecidableEq, Repr

structure EngineConfig where
  parse : ParseOptions := {}
  evaluation : EvaluationMode := .shortCircuit
deriving DecidableEq, Repr

end Verdict
