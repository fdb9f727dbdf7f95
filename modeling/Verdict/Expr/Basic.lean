import Verdict.Condition
import Verdict.Connective

/-!
# Expressions

An expression is a binary tree whose leaves hold the texts of conditions. A leaf is not taken apart
before it is needed, so an expression may hold malformed conditions.

`leaves` and `depth` walk the tree with an explicit list of nodes still to visit, so that no tree is
too deep for them. `fringe` and `height` say the same by recursion on the tree.
-/

namespace Verdict

inductive Expr where
  /-- A single condition, as text. -/
  | leaf (text : String)
  | node (connective : Connective) (left right : Expr)
deriving DecidableEq, Repr, Inhabited

namespace Expr

/-- The leaf for a condition as it is written in a rule, without the blanks around it. -/
def comparison (text : List Char) : Expr :=
  .leaf (String.ofList (Text.trim text))

def leafText? : Expr → Option String
  | .leaf text => some text
  | .node _ _ _ => none

def connective? : Expr → Option Connective
  | .leaf _ => none
  | .node connective _ _ => some connective

def operands? : Expr → Option (Expr × Expr)
  | .leaf _ => none
  | .node _ left right => some (left, right)

def size : Expr → Nat
  | .leaf _ => 1
  | .node _ left right => 1 + left.size + right.size

def totalSize : List Expr → Nat
  | [] => 0
  | expr :: rest => expr.size + totalSize rest

def fringe : Expr → List String
  | .leaf text => [text]
  | .node _ left right => left.fringe ++ right.fringe

def height : Expr → Nat
  | .leaf _ => 1
  | .node _ left right => 1 + max left.height right.height

/-- Visits the pending expressions in order; the leaves met so far are held backwards. -/
def leavesFrom (found : List String) (pending : List Expr) : List String :=
  match pending with
  | [] => found.reverse
  | .leaf text :: rest => leavesFrom (text :: found) rest
  | .node _ left right :: rest => leavesFrom found (left :: right :: rest)
termination_by totalSize pending
decreasing_by all_goals simp only [totalSize, size]; omega

/-- The texts of the leaves from left to right. -/
def leaves (expr : Expr) : List String :=
  leavesFrom [] [expr]

/-- Visits the pending expressions, each with its level, and keeps the deepest level met so far. -/
def depthFrom (deepest : Nat) (pending : List (Expr × Nat)) : Nat :=
  match pending with
  | [] => deepest
  | (.leaf _, level) :: rest => depthFrom (max deepest level) rest
  | (.node _ left right, level) :: rest =>
      depthFrom (max deepest level) ((right, level + 1) :: (left, level + 1) :: rest)
termination_by totalSize (pending.map Prod.fst)
decreasing_by all_goals simp only [List.map_cons, totalSize, size]; omega

/-- The number of levels; a leaf has one. -/
def depth (expr : Expr) : Nat :=
  depthFrom 0 [(expr, 1)]

/-- Fails with the error of the first leaf that is not a condition. -/
def validate (expr : Expr) : Except RuleError Unit :=
  expr.leaves.forM fun text => (Condition.ofText text).map fun _ => ()

/-- The expression as text, with parentheses around every joined pair. -/
def display : Expr → String
  | .leaf text => text
  | .node connective left right =>
      "(" ++ left.display ++ " " ++ connective.keyword ++ " " ++ right.display ++ ")"

end Expr

end Verdict
