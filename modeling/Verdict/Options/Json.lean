import Verdict.Json.Member
import Verdict.Json.Reader
import Verdict.Options

/-!
# Configurations in JSON

A configuration and its two parts are structures: objects with named fields, or arrays of the
fields in order. A field that is left out has its default. What stands under another name is only
read past, so it need not be sound.
-/

namespace Verdict

def Validation.name : Validation → String
  | .deferred => "deferred"
  | .eager => "eager"

def ParseOptions.toDocument (options : ParseOptions) : Json.Document :=
  .ofMembers
    [("validation", .ofString options.validation.name),
      ("max_depth", .ofInt options.maxDepth.toNat)]

def EvaluationMode.toDocument (mode : EvaluationMode) : Json.Document :=
  .ofMembers [("short_circuit", .bool (mode == .shortCircuit))]

def EngineConfig.toDocument (config : EngineConfig) : Json.Document :=
  .ofMembers
    [("parse", config.parse.toDocument), ("evaluation", config.evaluation.toDocument)]

def EngineConfig.toJson (config : EngineConfig) : String :=
  config.toDocument.toText

def Validation.ofName? (name : String) : Option Validation :=
  [.deferred, .eager].find? fun validation => validation.name == name

/-- The name of a validation, or an object with the name as its only key and null under it. -/
def Validation.ofDocument? : Json.Document → Option Validation
  | .string quoted => quoted.content?.bind ofName?
  | .object [(key, .null)] => key.content?.bind ofName?
  | _ => none

/-- A natural number of 64 bits. -/
def maxDepthOfDocument? : Json.Document → Option UInt64
  | .number number =>
    number.natural?.bind fun value =>
      if value < UInt64.size then some (UInt64.ofNat value) else none
  | _ => none

def shortCircuitOfDocument? : Json.Document → Option EvaluationMode
  | .bool true => some .shortCircuit
  | .bool false => some .exhaustive
  | _ => none

/-- The value of a field that may be left out. -/
def fieldOr {α : Type} (default : α) (ofDocument? : Json.Document → Option α) :
    Option Json.Document → Option α
  | none => some default
  | some document => ofDocument? document

def ParseOptions.ofDocument? (document : Json.Document) : Option ParseOptions := do
  match ← document.fields? ["validation", "max_depth"] with
  | [validation, maxDepth] =>
    let standard : ParseOptions := {}
    return {
      validation := ← fieldOr standard.validation Validation.ofDocument? validation
      maxDepth := ← fieldOr standard.maxDepth maxDepthOfDocument? maxDepth }
  | _ => none

def EvaluationMode.ofDocument? (document : Json.Document) : Option EvaluationMode := do
  match ← document.fields? ["short_circuit"] with
  | [flag] => fieldOr .shortCircuit shortCircuitOfDocument? flag
  | _ => none

def EngineConfig.ofDocument? (document : Json.Document) : Option EngineConfig := do
  match ← document.fields? ["parse", "evaluation"] with
  | [parse, evaluation] =>
    let standard : EngineConfig := {}
    return {
      parse := ← fieldOr standard.parse ParseOptions.ofDocument? parse
      evaluation := ← fieldOr standard.evaluation EvaluationMode.ofDocument? evaluation }
  | _ => none

def EngineConfig.ofJson (text : String) : Except DocumentError EngineConfig :=
  match (Json.Document.parse? text).bind EngineConfig.ofDocument? with
  | some config => .ok config
  | none => .error .unreadable

end Verdict
