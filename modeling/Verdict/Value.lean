namespace Verdict

inductive Value where
  | integer (value : Int64)
  | text (value : String)
deriving DecidableEq, Repr

namespace Value

def kindName : Value → String
  | .integer _ => "integer"
  | .text _ => "text"

def integer? : Value → Option Int64
  | .integer value => some value
  | .text _ => none

def text? : Value → Option String
  | .integer _ => none
  | .text value => some value

/-- Integers in decimal, texts between single quotes. Quotes inside a text are not escaped. -/
def display : Value → String
  | .integer value => toString value.toInt
  | .text value => "'" ++ value ++ "'"

end Value

end Verdict
