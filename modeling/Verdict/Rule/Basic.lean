import Verdict.Options
import Verdict.Rule.Segment

namespace Verdict.Expr

/-- Fails unless the leaves are conditions or need not be yet. -/
def checkLeaves (validation : Validation) (expr : Expr) : Except RuleError Unit :=
  match validation with
  | .deferred => .ok ()
  | .eager => expr.validate

def ofRule (options : ParseOptions) (text : String) : Except RuleError Expr := do
  let limit := options.maxDepth.toNat
  if (Text.trim text.toList).isEmpty then
    throw .emptyRule
  let (expr, depth) ← Rule.readSegment limit Connective.scanOrder text.toList
  if limit < depth then
    throw (.tooDeep limit)
  expr.checkLeaves options.validation
  return expr

/-- Joins one more rule to those read so far, of which the depth is known. -/
def joinRule (options : ParseOptions) (combined : Rule.Measured) (text : String) :
    Except RuleError Rule.Measured := do
  let next ← ofRule options text
  let depth := 1 + max combined.2 next.depth
  if options.maxDepth.toNat < depth then
    throw (.tooDeep options.maxDepth.toNat)
  return (.node .and combined.1 next, depth)

/-- Reads rules that are to hold together. There is no expression for no rules. -/
def ofRules (options : ParseOptions) : List String → Except RuleError (Option Expr)
  | [] => .ok none
  | first :: others => do
    let expr ← ofRule options first
    let combined ← others.foldlM (joinRule options) (expr, expr.depth)
    return some combined.1

end Verdict.Expr
