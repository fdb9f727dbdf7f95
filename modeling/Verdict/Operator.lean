/-!
# Comparison operators

Four operators compare integers and one compares texts. `scanOrder` is the order in which a
condition is searched for its operator. `>` and `<` come first, so a condition written with `>=` is
cut at `>` and its literal starts with `=`.
-/

namespace Verdict

inductive Operator where
  | greater
  | less
  | greaterEqual
  | lessEqual
  | equal
deriving DecidableEq, Repr

namespace Operator

def symbol : Operator → String
  | .greater => ">"
  | .less => "<"
  | .greaterEqual => ">="
  | .lessEqual => "<="
  | .equal => "="

def scanOrder : List Operator :=
  [.greater, .less, .greaterEqual, .lessEqual, .equal]

/-- Whether the operator asks for integers on both sides. -/
def isNumeric : Operator → Bool
  | .equal => false
  | _ => true

def compareIntegers : Operator → (actual expected : Int64) → Bool
  | .greater, actual, expected => expected < actual
  | .less, actual, expected => actual < expected
  | .greaterEqual, actual, expected => expected ≤ actual
  | .lessEqual, actual, expected => actual ≤ expected
  | .equal, actual, expected => actual == expected

theorem mem_scanOrder (operator : Operator) : operator ∈ scanOrder := by
  cases operator <;> simp [scanOrder]

end Operator

end Verdict
