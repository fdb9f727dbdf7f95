import Verdict.Operator
import Verdict.Value

namespace Verdict

inductive RuleError where
  /-- The text of the rule has no character that is not blank. -/
  | emptyRule
  /-- The tree would be deeper than `limit`. -/
  | tooDeep (limit : Nat)
  | noOperator (text : String)
  | repeatedOperator (operator : Operator) (text : String)
  | unknownField (field : String)
  /-- A numeric operator stands before a literal that is no integer. -/
  | literalNotInteger (field : String) (literal : Value)
  /-- A numeric operator meets a field whose value is no integer, so it is a text. -/
  | valueNotInteger (field : String)
deriving DecidableEq, Repr

/-- What an error is about: the text of the rule, a missing field, or the type of a value. -/
inductive RuleError.Kind where
  | malformedRule
  | unknownField
  | typeMismatch
deriving DecidableEq, Repr

namespace RuleError

def kind : RuleError → Kind
  | .emptyRule | .tooDeep _ | .noOperator _ | .repeatedOperator _ _ => .malformedRule
  | .unknownField _ => .unknownField
  | .literalNotInteger _ _ | .valueNotInteger _ => .typeMismatch

/-- The message of an error. It starts with what the error is about. -/
def message : RuleError → String
  | .emptyRule => "Malformed rule: Empty rule"
  | .tooDeep limit => "Malformed rule: Rule nests deeper than " ++ toString limit ++ " levels"
  | .noOperator text => "Malformed rule: No operator found in: '" ++ text ++ "'"
  | .repeatedOperator operator text =>
      "Malformed rule: Operator '" ++ operator.symbol ++ "' appears more than once in: '" ++
        text ++ "'"
  | .unknownField field => "Unknown field: " ++ field
  | .literalNotInteger field literal =>
      "Type mismatch on field '" ++ field ++ "': expected integer literal, found " ++
        literal.display
  | .valueNotInteger field =>
      "Type mismatch on field '" ++ field ++ "': expected integer, found text"

end RuleError

/-- The number of levels that a tree may have in a document, and by default in a rule. -/
def defaultMaxDepth : Nat := 256

inductive DocumentError where
  /-- The tree has, or its document could have, more than `defaultMaxDepth` levels. -/
  | treeTooDeep
  /-- The text is not JSON, or is JSON for something else. -/
  | unreadable
deriving DecidableEq, Repr

/-- The message of an error about a document. Only the depth of a tree is worth one. -/
def DocumentError.message? : DocumentError → Option String
  | .treeTooDeep =>
      some ("Invalid input: Expression tree nests deeper than " ++ toString defaultMaxDepth ++
        " levels")
  | .unreadable => none

end Verdict
