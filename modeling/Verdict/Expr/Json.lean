import Verdict.Expr.Basic
import Verdict.Json.Member
import Verdict.Json.Nesting
import Verdict.Json.Reader

/-!
# Expressions in JSON

A leaf is an object with the tag `comparison` and its text under `condition`; a joined pair has the
tag `boolean`, its connective and its two operands. An array that starts with the tag holds the
same fields in order. Inside another node a tag may also be given by its number.

Every level of a tree is a container of the document. A tree of more than `defaultMaxDepth` levels
is not written, and a text whose brackets nest deeper is not read.
-/

namespace Verdict

inductive Expr.Tag where
  | comparison
  | boolean
deriving DecidableEq, Repr

namespace Expr

def Tag.name : Tag → String
  | .comparison => "comparison"
  | .boolean => "boolean"

def toDocument : Expr → Json.Document
  | .leaf text =>
    .ofMembers [("type", .ofString Tag.comparison.name), ("condition", .ofString text)]
  | .node connective left right =>
    .ofMembers
      [("type", .ofString Tag.boolean.name), ("connective", .ofString connective.keyword),
        ("left", left.toDocument), ("right", right.toDocument)]

def toJson (expr : Expr) : Except DocumentError String :=
  if defaultMaxDepth < expr.depth then .error .treeTooDeep else .ok expr.toDocument.toText

def Tag.ofName? (name : String) : Option Tag :=
  [.comparison, .boolean].find? fun tag => tag.name == name

def Tag.ofNumber? (number : Json.Number) : Option Tag :=
  match number.natural? with
  | some 0 => some .comparison
  | some 1 => some .boolean
  | _ => none

/-- The tag of a node, which at the root must be given by its name. -/
def Tag.ofDocument? (isRoot : Bool) : Json.Document → Option Tag
  | .string quoted => quoted.content?.bind Tag.ofName?
  | .number number => if isRoot then none else Tag.ofNumber? number
  | _ => none

end Expr

def Connective.ofKeyword? (keyword : String) : Option Connective :=
  scanOrder.find? fun connective => connective.keyword == keyword

/-- The keyword, or an object with the keyword as its only key and nothing under it. -/
def Connective.ofDocument? : Json.Document → Option Connective
  | .string quoted => quoted.content?.bind ofKeyword?
  | .object [(key, .null)] => key.content?.bind ofKeyword?
  | .object [(key, .object [])] => key.content?.bind ofKeyword?
  | _ => none

namespace Expr

inductive Parts where
  | comparison (condition : Json.Document)
  | boolean (connective left right : Json.Document)

/-- The parts of a node that is an object. Other members are passed over. -/
def Parts.ofMembers? (isRoot : Bool) (members : Json.Members) : Option Parts := do
  match ← Tag.ofDocument? isRoot (← members.only? "type") with
  | .comparison => return .comparison (← members.only? "condition")
  | .boolean =>
    return .boolean (← members.only? "connective") (← members.only? "left")
      (← members.only? "right")

def Parts.ofItems? (isRoot : Bool) : List Json.Document → Option Parts
  | [tag, condition] =>
    if Tag.ofDocument? isRoot tag = some .comparison then some (.comparison condition) else none
  | [tag, connective, left, right] =>
    if Tag.ofDocument? isRoot tag = some .boolean then some (.boolean connective left right)
    else none
  | _ => none

def Parts.ofDocument? (isRoot : Bool) : Json.Document → Option Parts
  | .object members => Parts.ofMembers? isRoot members
  | .array items => Parts.ofItems? isRoot items
  | _ => none

theorem Parts.mem_children_of_ofDocument? {isRoot : Bool}
    {document connective left right : Json.Document}
    (h : Parts.ofDocument? isRoot document = some (.boolean connective left right)) :
    left ∈ document.children ∧ right ∈ document.children := by
  cases document with
  | object members =>
    simp only [Parts.ofDocument?, Parts.ofMembers?, Option.bind_eq_bind, Option.bind_eq_some_iff,
      Option.pure_def] at h
    obtain ⟨tagDocument, -, tag, -, h⟩ := h
    cases tag with
    | comparison => simp [Option.bind_eq_some_iff] at h
    | boolean =>
      simp only [Option.bind_eq_some_iff, Option.some.injEq, Parts.boolean.injEq] at h
      obtain ⟨_, -, _, hleft, _, hright, -, rfl, rfl⟩ := h
      exact ⟨Json.Members.mem_map_of_only? hleft, Json.Members.mem_map_of_only? hright⟩
  | array items =>
    simp only [Parts.ofDocument?, Parts.ofItems?] at h
    split at h
    · split at h <;> simp_all
    · split at h
      · simp only [Option.some.injEq, Parts.boolean.injEq] at h
        obtain ⟨-, rfl, rfl⟩ := h
        simp [Json.Document.children]
      · cases h
    · cases h
  | _ => simp [Parts.ofDocument?] at h

theorem Parts.sizeOf_lt_of_ofDocument? {isRoot : Bool}
    {document connective left right : Json.Document}
    (h : Parts.ofDocument? isRoot document = some (.boolean connective left right)) :
    sizeOf left < sizeOf document ∧ sizeOf right < sizeOf document := by
  obtain ⟨hleft, hright⟩ := Parts.mem_children_of_ofDocument? h
  exact ⟨Json.Document.sizeOf_lt_of_mem_children hleft,
    Json.Document.sizeOf_lt_of_mem_children hright⟩

def ofNode? (isRoot : Bool) (document : Json.Document) : Option Expr :=
  match h : Parts.ofDocument? isRoot document with
  | none => none
  | some (.comparison condition) => condition.content?.map .leaf
  | some (.boolean connective left right) =>
    have := Parts.sizeOf_lt_of_ofDocument? h
    (Connective.ofDocument? connective).bind fun connective =>
      (ofNode? false left).bind fun left =>
        (ofNode? false right).map fun right => .node connective left right
termination_by sizeOf document

/-- The expression that a document is. A document is refused if any part of it is unsound. -/
def ofDocument? (document : Json.Document) : Option Expr :=
  if document.isSound then ofNode? true document else none

def ofJson (text : String) : Except DocumentError Expr :=
  if defaultMaxDepth < Json.nesting text.toList then .error .treeTooDeep
  else
    match (Json.Document.parse? text).bind ofDocument? with
    | some expr => .ok expr
    | none => .error .unreadable

end Expr

end Verdict
