import Verdict.Error
import Verdict.Json.Reader
import Verdict.Value

namespace Verdict.Value

def toDocument : Value → Json.Document
  | .integer value => .ofInt value.toInt
  | .text value => .ofString value

/-- A number is a value only if it is an integer of 64 bits. -/
def ofDocument? : Json.Document → Option Value
  | .number number => (number.integer?.bind Text.int64?).map .integer
  | .string quoted => quoted.content?.map .text
  | _ => none

def toJson (value : Value) : String :=
  value.toDocument.toText

def ofJson (text : String) : Except DocumentError Value :=
  match (Json.Document.parse? text).bind ofDocument? with
  | some value => .ok value
  | none => .error .unreadable

@[simp]
theorem ofDocument?_toDocument (value : Value) : ofDocument? value.toDocument = some value := by
  cases value <;> simp [toDocument, ofDocument?, Json.Document.ofInt, Json.Document.ofString]

end Verdict.Value
