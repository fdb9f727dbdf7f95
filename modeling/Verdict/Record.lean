import Std.Data.TreeMap
import Verdict.Evaluation

namespace Verdict

structure Record where
  fields : Std.TreeMap String Value

namespace Record

def empty : Record :=
  ⟨∅⟩

instance : EmptyCollection Record :=
  ⟨empty⟩

instance : Inhabited Record :=
  ⟨empty⟩

def size (record : Record) : Nat :=
  record.fields.size

def isEmpty (record : Record) : Bool :=
  record.fields.isEmpty

def get? (record : Record) (name : String) : Option Value :=
  record.fields[name]?

/-- Sets a field, whether or not it was there before. -/
def insert (record : Record) (name : String) (value : Value) : Record :=
  ⟨record.fields.insert name value⟩

/-- Sets the listed fields one after the other, so the last value of a name stays. -/
def extend (record : Record) (fields : List (String × Value)) : Record :=
  fields.foldl (fun record field => record.insert field.1 field.2) record

def ofList (fields : List (String × Value)) : Record :=
  empty.extend fields

/-- The fields in increasing order of their names. -/
def toList (record : Record) : List (String × Value) :=
  record.fields.toList

@[simp]
theorem get?_empty (name : String) : (∅ : Record).get? name = none :=
  Std.TreeMap.getElem?_emptyc

theorem get?_insert (record : Record) (name other : String) (value : Value) :
    (record.insert name value).get? other =
      if name = other then some value else record.get? other := by
  simp [insert, get?, Std.TreeMap.getElem?_insert]

@[simp]
theorem get?_insert_self (record : Record) (name : String) (value : Value) :
    (record.insert name value).get? name = some value := by
  simp [get?_insert]

@[simp]
theorem extend_nil (record : Record) : record.extend [] = record := rfl

@[simp]
theorem extend_cons (record : Record) (field : String × Value) (fields : List (String × Value)) :
    record.extend (field :: fields) = (record.insert field.1 field.2).extend fields := rfl

theorem get?_ofList_singleton (field name : String) (value : Value) :
    (ofList [(field, value)]).get? name = if field = name then some value else none := by
  have hinsert : ofList [(field, value)] = (∅ : Record).insert field value := rfl
  rw [hinsert, get?_insert, get?_empty]

end Record

end Verdict
