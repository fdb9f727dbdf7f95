import Verdict.Expr.Basic

/-!
# Reading a segment of a rule

A segment is cut at every separator of its loosest connective, and its parts are read with the
tighter ones. The parts are then joined from the last to the first, so a chain of one connective
leans to the right. The depth of the tree is counted while it grows, and reading stops as soon as
it passes the limit.
-/

namespace Verdict.Rule

abbrev Measured := Expr × Nat

/-- Puts a part in front of the parts that are already joined. -/
def joinPart (connective : Connective) (limit : Nat)
    (readPart : List Char → Except RuleError Measured) (joined : Measured) (part : List Char) :
    Except RuleError Measured := do
  let (left, leftDepth) ← readPart part
  let depth := 1 + max joined.2 leftDepth
  if limit < depth then
    throw (.tooDeep limit)
  return (.node connective left joined.1, depth)

/-- Joins parts that are listed from the last to the first. -/
def joinParts (connective : Connective) (limit : Nat)
    (readPart : List Char → Except RuleError Measured) :
    List (List Char) → Except RuleError Measured
  | [] => readPart []
  | last :: earlier => do
    let joined ← readPart last
    earlier.foldlM (joinPart connective limit readPart) joined

/-- Reads a segment with the given connectives, listed from the loosest to the tightest. -/
def readSegment (limit : Nat) : List Connective → List Char → Except RuleError Measured
  | [], text => .ok (Expr.comparison text, 1)
  | connective :: tighter, text =>
    let separator := connective.separator.toList
    if Text.occurs separator text then
      let parts := Text.splitAll separator text
      if limit < parts.length then
        .error (.tooDeep limit)
      else
        joinParts connective limit (readSegment limit tighter) parts.reverse
    else
      readSegment limit tighter text

end Verdict.Rule
