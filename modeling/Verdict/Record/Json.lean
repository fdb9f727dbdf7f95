import Verdict.Record
import Verdict.Value.Json

namespace Verdict.Record

def toDocument (record : Record) : Json.Document :=
  .ofMembers (record.toList.map fun field => (field.1, field.2.toDocument))

def fieldOfMember? (member : Json.Quoted × Json.Document) : Option (String × Value) :=
  member.1.content?.bind fun name => (Value.ofDocument? member.2).map fun value => (name, value)

/-- Every member must be a field, also one whose key comes again. -/
def ofDocument? : Json.Document → Option Record
  | .object members => (members.mapM fieldOfMember?).map ofList
  | _ => none

def toJson (record : Record) : String :=
  record.toDocument.toText

def ofJson (text : String) : Except DocumentError Record :=
  match (Json.Document.parse? text).bind ofDocument? with
  | some record => .ok record
  | none => .error .unreadable

end Verdict.Record
