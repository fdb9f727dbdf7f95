import Verdict.Proofs.NamedMembers

namespace Verdict.Json

/-- The fields that are given, each with its value, out of all fields of a structure. -/
def givenFields (fields : List (String × Option Document)) : List (String × Document) :=
  fields.filterMap fun field => field.2.map fun value => (field.1, value)

/-- The document gives the values of the fields, in one of the two ways to write a structure. -/
inductive IsStructure (fields : List (String × Option Document)) : Document → Prop where
  | object {members others : Members}
      (h : members.Hold (fields.map Prod.fst) (givenFields fields) others) :
      IsStructure fields (.object members)
  | array {items : List Document} (omitted : Nat)
      (h : fields.map Prod.snd = items.map some ++ List.replicate omitted none) :
      IsStructure fields (.array items)

/-- The document gives the value for the field with the name, which is the field at the index. -/
inductive Document.HasField (name : String) (index : Nat) (value : Document) : Document → Prop where
  | object {members : Members} {key : Quoted} (hkey : key.StandsFor name.toList)
      (hmember : (key, value) ∈ members) : HasField name index value (.object members)
  | array {items : List Document} (hitem : items[index]? = some value) :
      HasField name index value (.array items)

/-- One member with the name comes before another one. -/
def Members.Repeats (members : Members) (name : String) : Prop :=
  ∃ first second : Quoted × Document, [first, second].Sublist members ∧
    first.1.StandsFor name.toList ∧ second.1.StandsFor name.toList

/-- The document is an object that repeats one of the names. -/
def Document.Repeats (names : List String) (document : Document) : Prop :=
  ∃ members, document = .object members ∧ ∃ name ∈ names, Members.Repeats members name

variable {fields : List (String × Option Document)} {members others : Members}
  {known names : List String} {name : String} {value : Option Document} {document : Document}

theorem filter_givenFields_of_notMem (h : name ∉ fields.map Prod.fst) :
    (givenFields fields).filter (fun field => field.1 == name) = [] := by
  rw [List.filter_eq_nil_iff]
  intro field hfield hname
  obtain ⟨⟨other, value⟩, hmem, hgiven⟩ := List.mem_filterMap.mp hfield
  obtain ⟨_, -, rfl⟩ := Option.map_eq_some_iff.mp hgiven
  exact h (List.mem_map.mpr ⟨(other, value), hmem, eq_of_beq hname⟩)

/-- Of a name there is the value that its field has, if the field is given. -/
theorem filter_givenFields (hnodup : (fields.map Prod.fst).Nodup) (hmem : (name, value) ∈ fields) :
    ((givenFields fields).filter fun field => field.1 == name).map Prod.snd = value.toList := by
  induction fields with
  | nil => cases hmem
  | cons field rest ih =>
    obtain ⟨hnew, hrest⟩ := List.nodup_cons.mp hnodup
    obtain rfl | hlater := List.mem_cons.mp hmem
    · have hothers := filter_givenFields_of_notMem hnew
      cases value with
      | none => simpa [givenFields] using hothers
      | some value => simpa [givenFields] using hothers
    · have hname : field.1 ≠ name := fun heq => hnew (heq ▸ List.mem_map_of_mem hlater)
      have hvalue := ih hrest hlater
      obtain ⟨other, given⟩ := field
      cases given with
      | none => simpa [givenFields] using hvalue
      | some given => simpa [givenFields, hname] using hvalue

namespace Members

variable {given : List (String × Document)}

theorem keysAreSound_of_hold (h : members.Hold known given others) :
    members.keysAreSound = true := by
  obtain ⟨havoid, named, hspell, hperm⟩ := h
  have hnamed : ∀ member ∈ named, member.1.content?.isSome = true := by
    clear hperm
    induction hspell with
    | nil => simp
    | cons hfirst _ ih =>
      exact List.forall_mem_cons.mpr ⟨by simp [Quoted.content?_of_standsFor hfirst.1], ih⟩
  rw [keysAreSound, List.all_eq_true]
  intro member hmember
  obtain hmember | hmember := List.mem_append.mp (hperm.mem_iff.mp hmember)
  · exact hnamed member hmember
  · obtain ⟨name, hname, -⟩ := havoid member hmember
    simp [Quoted.content?_of_standsFor hname]

theorem atMostOne?_of_hold (hnodup : (fields.map Prod.fst).Nodup)
    (h : members.Hold (fields.map Prod.fst) (givenFields fields) others)
    (hmem : (name, value) ∈ fields) : members.atMostOne? name = some value := by
  have hvalues := perm_valuesOf_of_hold h (List.mem_map_of_mem hmem)
  rw [filter_givenFields hnodup hmem] at hvalues
  cases value with
  | none =>
    rw [Option.toList_none, List.perm_nil] at hvalues
    rw [atMostOne?, hvalues]
  | some value =>
    rw [Option.toList_some, List.perm_singleton] at hvalues
    rw [atMostOne?, hvalues]

theorem mem_valuesOf {key : Quoted} {value : Document} (hkey : key.StandsFor name.toList)
    (hmember : (key, value) ∈ members) : value ∈ members.valuesOf name := by
  refine List.mem_map_of_mem (List.mem_filter.mpr ⟨hmember, ?_⟩)
  simp [Quoted.content?_of_standsFor hkey]

theorem atMostOne?_of_repeats (h : members.Repeats name) : members.atMostOne? name = none := by
  obtain ⟨first, second, hsublist, hfirst, hsecond⟩ := h
  have hvalues : [first.2, second.2].Sublist (members.valuesOf name) := by
    have hfiltered := (hsublist.filter fun member => member.1.content? == some name).map Prod.snd
    simpa [valuesOf, Quoted.content?_of_standsFor hfirst, Quoted.content?_of_standsFor hsecond]
      using hfiltered
  have hlength := hvalues.length_le
  unfold atMostOne?
  split <;> simp_all

end Members

/-- What is written for fields gives each of them. -/
theorem isStructure_ofMembers (members : List (String × Document)) :
    IsStructure (members.map fun member => (member.1, some member.2)) (.ofMembers members) := by
  have hgiven : givenFields (members.map fun member => (member.1, some member.2)) = members := by
    simp [givenFields, List.filterMap_map]
  rw [Document.ofMembers]
  apply IsStructure.object
  rw [hgiven]
  exact Members.hold_ofText _ members

section Lookups

variable {look : String → Option (Option Document)} {values : List (Option Document)} {index : Nat}

theorem mapM_map_fst (h : ∀ name value, (name, value) ∈ fields → look name = some value) :
    (fields.map Prod.fst).mapM look = some (fields.map Prod.snd) := by
  induction fields with
  | nil => rfl
  | cons field rest ih =>
    have hfirst := h field.1 field.2 List.mem_cons_self
    have hrest := ih fun name value hmem => h name value (List.mem_cons_of_mem field hmem)
    rw [List.map_cons, List.mapM_cons, hfirst, hrest]
    rfl

theorem getElem?_of_mapM (h : names.mapM look = some values) (hname : names[index]? = some name) :
    ∃ value, look name = some value ∧ values[index]? = some value := by
  induction names generalizing values index with
  | nil => cases hname
  | cons first rest ih =>
    simp only [List.mapM_cons, Option.bind_eq_bind, Option.bind_eq_some_iff, Option.pure_def,
      Option.some.injEq] at h
    obtain ⟨value, hfirst, others, hrest, rfl⟩ := h
    cases index with
    | zero =>
      cases hname
      exact ⟨value, hfirst, rfl⟩
    | succ index =>
      obtain ⟨found, hfound, hindex⟩ := ih hrest hname
      exact ⟨found, hfound, hindex⟩

end Lookups

namespace Document

/-- Every field of a structure is found, or known to be left out. -/
theorem fields?_of_isStructure (hnodup : (fields.map Prod.fst).Nodup)
    (h : IsStructure fields document) :
    document.fields? (fields.map Prod.fst) = some (fields.map Prod.snd) := by
  cases h with
  | object hhold =>
    rw [fields?, if_pos (Members.keysAreSound_of_hold hhold)]
    exact mapM_map_fst fun name value hmem => Members.atMostOne?_of_hold hnodup hhold hmem
  | @array items omitted hitems =>
    have hlength := congrArg List.length hitems
    simp only [List.length_map, List.length_append, List.length_replicate] at hlength
    have homitted : (fields.map Prod.fst).length - items.length = omitted := by
      rw [List.length_map]
      omega
    rw [fields?, if_pos (by rw [List.length_map]; omega), homitted, hitems]

theorem fields?_of_repeats (h : document.Repeats names) : document.fields? names = none := by
  obtain ⟨members, rfl, name, hmem, hrepeats⟩ := h
  obtain ⟨index, hname⟩ := List.getElem?_of_mem hmem
  cases hfields : fields? names (.object members) with
  | none => rfl
  | some values =>
    rw [fields?, Option.ite_none_right_eq_some] at hfields
    obtain ⟨value, hvalue, -⟩ := getElem?_of_mapM hfields.2 hname
    rw [Members.atMostOne?_of_repeats hrepeats] at hvalue
    cases hvalue

/-- The value that a document gives for a field is the one that is found. -/
theorem getElem?_of_hasField {values : List (Option Document)} {index : Nat} {value : Document}
    (hfields : document.fields? names = some values) (hname : names[index]? = some name)
    (h : HasField name index value document) : values[index]? = some (some value) := by
  cases h with
  | object hkey hmember =>
    rw [fields?, Option.ite_none_right_eq_some] at hfields
    obtain ⟨found, hfound, hindex⟩ := getElem?_of_mapM hfields.2 hname
    have hvalue := Members.mem_valuesOf hkey hmember
    unfold Members.atMostOne? at hfound
    split at hfound
    · simp_all
    · cases hfound
      simp_all
    · cases hfound
  | array hitem =>
    rw [fields?, Option.ite_none_right_eq_some] at hfields
    obtain ⟨-, hvalues⟩ := hfields
    cases hvalues
    rw [List.getElem?_append_left, List.getElem?_map, hitem]
    · rfl
    · rw [List.length_map]
      exact (List.getElem?_eq_some_iff.mp hitem).1

end Document

end Verdict.Json
