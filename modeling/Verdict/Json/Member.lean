import Verdict.Json.Document

namespace Verdict.Json

abbrev Members := List (Quoted × Document)

namespace Members

def valuesOf (members : Members) (name : String) : List Document :=
  (members.filter fun member => member.1.content? == some name).map Prod.snd

/-- The value of the only member with the given name. -/
def only? (members : Members) (name : String) : Option Document :=
  match members.valuesOf name with
  | [value] => some value
  | _ => none

/-- The value of the only member with the given name, if there is a member with it. -/
def atMostOne? (members : Members) (name : String) : Option (Option Document) :=
  match members.valuesOf name with
  | [] => some none
  | [value] => some (some value)
  | _ => none

def keysAreSound (members : Members) : Bool :=
  members.all fun member => member.1.content?.isSome

theorem mem_map_of_mem_valuesOf {members : Members} {name : String} {value : Document}
    (h : value ∈ members.valuesOf name) : value ∈ members.map Prod.snd := by
  simp only [valuesOf, List.mem_map, List.mem_filter] at h
  obtain ⟨member, ⟨hmem, _⟩, rfl⟩ := h
  exact List.mem_map_of_mem hmem

theorem mem_map_of_only? {members : Members} {name : String} {value : Document}
    (h : members.only? name = some value) : value ∈ members.map Prod.snd := by
  unfold only? at h
  split at h
  · rename_i only hvalues
    cases h
    have hmem : value ∈ members.valuesOf name := by simp [hvalues]
    exact mem_map_of_mem_valuesOf hmem
  · cases h

end Members

/-- The items of an array, or the values of an object. -/
def Document.children : Document → List Document
  | .array items => items
  | .object members => members.map Prod.snd
  | _ => []

theorem Document.sizeOf_lt_of_mem_children {document child : Document}
    (h : child ∈ document.children) : sizeOf child < sizeOf document := by
  cases document with
  | array items =>
    have hlt : sizeOf child < sizeOf items := List.sizeOf_lt_of_mem h
    rw [Document.array.sizeOf_spec]
    omega
  | object members =>
    obtain ⟨⟨key, _⟩, hmem, rfl⟩ := List.mem_map.mp h
    have hlt := List.sizeOf_lt_of_mem hmem
    simp only [Prod.mk.sizeOf_spec, Document.object.sizeOf_spec] at *
    omega
  | _ => cases h

/--
The fields of a structure in the order of their names, each with its value if it is given. An
object gives no field twice and may have other members; an array leaves out only trailing fields.
-/
def Document.fields? (names : List String) : Document → Option (List (Option Document))
  | .array items =>
    if items.length ≤ names.length then
      some (items.map some ++ List.replicate (names.length - items.length) none)
    else
      none
  | .object members =>
    if Members.keysAreSound members then names.mapM (Members.atMostOne? members) else none
  | _ => none

end Verdict.Json
