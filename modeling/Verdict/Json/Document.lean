import Verdict.Json.Token

namespace Verdict.Json

/--
A JSON value as it is written: quoted texts keep their surrogates, numbers their digits, and objects
every member in order, repeated keys included.
-/
inductive Document where
  | null
  | bool (value : Bool)
  | number (value : Number)
  | string (quoted : Quoted)
  | array (items : List Document)
  | object (members : List (Quoted × Document))
deriving Inhabited, Repr

namespace Document

def ofString (text : String) : Document :=
  .string (Quoted.ofText text)

def ofInt (value : Int) : Document :=
  .number (Number.ofInt value)

def ofMembers (members : List (String × Document)) : Document :=
  .object (members.map fun member => (Quoted.ofText member.1, member.2))

def content? : Document → Option String
  | .string quoted => quoted.content?
  | _ => none

mutual

/-- How many arrays and objects lie within each other. -/
def depth : Document → Nat
  | .array items => 1 + depthOfItems items
  | .object members => 1 + depthOfMembers members
  | _ => 0

def depthOfItems : List Document → Nat
  | [] => 0
  | item :: items => max item.depth (depthOfItems items)

def depthOfMembers : List (Quoted × Document) → Nat
  | [] => 0
  | (_, value) :: members => max value.depth (depthOfMembers members)

end

mutual

/-- Whether every quoted text has a content and every number a double-precision value. -/
def isSound : Document → Bool
  | .number value => value.isFinite
  | .string quoted => quoted.content?.isSome
  | .array items => areSoundItems items
  | .object members => areSoundMembers members
  | _ => true

def areSoundItems : List Document → Bool
  | [] => true
  | item :: items => item.isSound && areSoundItems items

def areSoundMembers : List (Quoted × Document) → Bool
  | [] => true
  | (key, value) :: members =>
      key.content?.isSome && value.isSound && areSoundMembers members

end

mutual

/-- The document as compact text. -/
def written : Document → List Char
  | .null => "null".toList
  | .bool true => "true".toList
  | .bool false => "false".toList
  | .number value => value.written
  | .string quoted => quoted.written
  | .array items => '[' :: (writtenItems items ++ [']'])
  | .object members => '{' :: (writtenMembers members ++ ['}'])

def writtenItems : List Document → List Char
  | [] => []
  | [item] => item.written
  | item :: items => item.written ++ ',' :: writtenItems items

def writtenMembers : List (Quoted × Document) → List Char
  | [] => []
  | [(key, value)] => key.written ++ ':' :: value.written
  | (key, value) :: members =>
      key.written ++ ':' :: (value.written ++ ',' :: writtenMembers members)

end

def toText (document : Document) : String :=
  String.ofList document.written

end Document

end Verdict.Json
