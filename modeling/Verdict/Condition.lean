import Verdict.Error
import Verdict.Text.Blank
import Verdict.Text.Decimal
import Verdict.Text.Split

/-!
# Conditions

A condition such as `age > 30` names a field, an operator and a literal. Blanks inside it do not
count. Its operator is the first of `Operator.scanOrder` that occurs in it, and must occur once.
-/

namespace Verdict

structure Condition where
  field : String
  operator : Operator
  literal : Value
deriving DecidableEq, Repr

namespace Condition

/-- The text without the single quotes at its ends. Quotes inside it are kept. -/
def unquote (text : List Char) : List Char :=
  ((text.dropWhile (· == '\'')).reverse.dropWhile (· == '\'')).reverse

/--
The literal that stands after an operator: for a numeric operator an integer if it names one, and
otherwise a text; the quotes around a text count only for the operator `=`.
-/
def literalOf (operator : Operator) (text : List Char) : Value :=
  if operator.isNumeric then
    match (Text.integer? text).bind Text.int64? with
    | some value => .integer value
    | none => .text (String.ofList text)
  else
    .text (String.ofList (unquote text))

def operatorOf? (text : List Char) : Option Operator :=
  Operator.scanOrder.find? fun operator => Text.occurs operator.symbol.toList text

def ofText (text : String) : Except RuleError Condition :=
  let compacted := Text.compact text.toList
  match operatorOf? compacted with
  | none => .error (.noOperator text)
  | some operator =>
    match Text.splitAll operator.symbol.toList compacted with
    | [field, literal] =>
        .ok {
          field := String.ofList field
          operator
          literal := literalOf operator literal }
    | _ => .error (.repeatedOperator operator text)

end Condition

end Verdict
