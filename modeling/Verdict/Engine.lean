import Verdict.Evaluation
import Verdict.Rule.Basic

namespace Verdict

structure Engine where
  config : EngineConfig := {}
deriving DecidableEq, Repr

namespace Engine

def parse (engine : Engine) (rule : String) : Except RuleError Expr :=
  Expr.ofRule engine.config.parse rule

def combine (engine : Engine) (rules : List String) : Except RuleError (Option Expr) :=
  Expr.ofRules engine.config.parse rules

def evaluate (engine : Engine) (expr : Expr) (fields : Fields) : Except RuleError Bool :=
  expr.evaluate engine.config.evaluation fields

def check (engine : Engine) (rule : String) (fields : Fields) : Except RuleError Bool := do
  let expr ← engine.parse rule
  engine.evaluate expr fields

/-- Whether all rules hold for the fields. No rules have no verdict. -/
def checkAll (engine : Engine) (rules : List String) (fields : Fields) :
    Except RuleError (Option Bool) := do
  match ← engine.combine rules with
  | none => return none
  | some expr => return some (← engine.evaluate expr fields)

end Engine

end Verdict
