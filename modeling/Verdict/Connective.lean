/-!
# Connectives

Two conditions are joined by AND or by OR. In the text of a rule a connective counts only as its
`separator`, the keyword in upper case between two spaces. AND is searched for first and governs
wherever it stands, so an OR binds its neighbours more tightly.
-/

namespace Verdict

inductive Connective where
  | and
  | or
deriving DecidableEq, Repr

namespace Connective

def keyword : Connective → String
  | .and => "AND"
  | .or => "OR"

def separator (connective : Connective) : String :=
  " " ++ connective.keyword ++ " "

/-- The connectives from the loosest to the tightest. -/
def scanOrder : List Connective :=
  [.and, .or]

/-- Whether the left operand alone settles the result. -/
def isSettledBy : Connective → (left : Bool) → Bool
  | .and, left => !left
  | .or, left => left

def apply : Connective → (left right : Bool) → Bool
  | .and, left, right => left && right
  | .or, left, right => left || right

theorem mem_scanOrder (connective : Connective) : connective ∈ scanOrder := by
  cases connective <;> simp [scanOrder]

theorem apply_eq_of_isSettledBy {connective : Connective} {left : Bool}
    (h : connective.isSettledBy left = true) (right : Bool) :
    connective.apply left right = left := by
  cases connective <;> cases left <;> simp_all [isSettledBy, apply]

theorem apply_eq_of_not_isSettledBy {connective : Connective} {left : Bool}
    (h : connective.isSettledBy left = false) (right : Bool) :
    connective.apply left right = right := by
  cases connective <;> cases left <;> simp_all [isSettledBy, apply]

end Connective

end Verdict
