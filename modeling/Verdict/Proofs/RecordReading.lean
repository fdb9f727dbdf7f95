import Mathlib.Data.List.Dedup
import Verdict.Json.Member
import Verdict.Proofs.TextGrammar
import Verdict.Record.Json

namespace Verdict

namespace Json.Number

/-- The integer part with its sign. -/
def signed (number : Number) : Int :=
  if number.negative then -(number.whole : Int) else number.whole

theorem signed_ofInt (value : Int) : (ofInt value).signed = value := by
  by_cases h : value < 0
  · have hsigned : (ofInt value).signed = -(value.natAbs : Int) := if_pos (decide_eq_true h)
    omega
  · have hsigned : (ofInt value).signed = value.natAbs := if_neg (by simpa [ofInt] using h)
    omega

/-- An integer is written in one way only. -/
theorem integer?_eq_some_iff {number : Number} {value : Int} :
    number.integer? = some value ↔ number = ofInt value := by
  constructor
  · intro h
    obtain ⟨negative, whole, fraction, exponent⟩ := number
    unfold integer? at h
    split at h
    · rename_i hplain
      rw [Bool.and_eq_true, List.isEmpty_iff, Option.isNone_iff_eq_none] at hplain
      obtain ⟨rfl, rfl⟩ := hplain
      cases negative with
      | false =>
        cases h
        simp [ofInt]
      | true =>
        obtain ⟨hzero, hvalue⟩ := Option.ite_none_left_eq_some.mp h
        have hpos : 0 < whole := Nat.pos_of_ne_zero hzero
        cases hvalue
        simp [ofInt, hpos]
    · cases h
  · rintro rfl
    exact integer?_ofInt value

end Json.Number

namespace Value

/-- The document is the value as it is written, with a text in any spelling. -/
inductive IsDocument : Value → Json.Document → Prop where
  | integer (value : Int64) : IsDocument (.integer value) (.ofInt value.toInt)
  | text {text : String} {quoted : Json.Quoted} (h : quoted.StandsFor text.toList) :
      IsDocument (.text text) (.string quoted)

/-- A quoted text, or an integer of 64 bits without fraction or exponent, and not minus zero. -/
inductive IsField : Json.Document → Prop where
  | string (quoted : Json.Quoted) : IsField (.string quoted)
  | integer {number : Json.Number} (hfraction : number.fraction = [])
      (hexponent : number.exponent = none)
      (hzero : number.negative = true → number.whole ≠ 0)
      (hlow : -9223372036854775808 ≤ number.signed)
      (hhigh : number.signed ≤ 9223372036854775807) : IsField (.number number)

variable {value : Value} {document : Json.Document}

theorem isDocument_toDocument (value : Value) : value.IsDocument value.toDocument := by
  cases value with
  | integer value => exact .integer value
  | text text => exact .text (Json.Quoted.standsFor_ofText text)

theorem ofDocument?_eq_some_iff : ofDocument? document = some value ↔ value.IsDocument document := by
  constructor
  · intro h
    cases document with
    | string quoted =>
      obtain ⟨text, htext, rfl⟩ := Option.map_eq_some_iff.mp h
      exact .text (Json.Quoted.content?_eq_some_iff.mp htext)
    | number number =>
      obtain ⟨word, hword, rfl⟩ := Option.map_eq_some_iff.mp h
      obtain ⟨integer, hinteger, hword⟩ := Option.bind_eq_some_iff.mp hword
      rw [Json.Number.integer?_eq_some_iff.mp hinteger, ← Text.toInt_of_int64? hword]
      exact .integer word
    | _ => cases h
  · intro h
    cases h with
    | integer value => exact ofDocument?_toDocument (.integer value)
    | text h => exact Option.map_eq_some_iff.mpr ⟨_, Json.Quoted.content?_of_standsFor h, rfl⟩

theorem isField_of_isDocument (h : value.IsDocument document) : IsField document := by
  cases h with
  | text h => exact .string _
  | integer word =>
    have hsigned := Json.Number.signed_ofInt word.toInt
    refine .integer rfl rfl ?_ (hsigned.symm ▸ Int64.le_toInt word)
      (hsigned.symm ▸ Int64.toInt_le word)
    intro hnegative
    have hneg : word.toInt < 0 := of_decide_eq_true hnegative
    exact Int.natAbs_ne_zero.mpr (Int.ne_of_lt hneg)

end Value

namespace Record

variable {record : Record} {members : Json.Members} {fields : List (String × Value)}
  {name : String} {value : Value} {text : String}

theorem get?_extend (record : Record) (fields : List (String × Value)) (name : String) :
    (record.extend fields).get? name = (fields.reverse.lookup name).or (record.get? name) := by
  induction fields generalizing record with
  | nil => rfl
  | cons field rest ih =>
    obtain ⟨other, value⟩ := field
    have hinsert : (record.insert other value).get? name =
        (List.lookup name [(other, value)]).or (record.get? name) := by
      rw [get?_insert, List.lookup_cons]
      by_cases hname : other = name
      · simp [hname]
      · simp [hname, beq_eq_false_iff_ne.mpr (Ne.symm hname)]
    rw [extend_cons, ih, hinsert, List.reverse_cons, List.lookup_append, Option.or_assoc]

/-- The last value of a name stays. -/
theorem get?_ofList (fields : List (String × Value)) (name : String) :
    (ofList fields).get? name = fields.reverse.lookup name := by
  rw [ofList, get?_extend]
  exact (congrArg _ (get?_empty name)).trans Option.or_none

theorem mem_toList_iff : (name, value) ∈ record.toList ↔ record.get? name = some value :=
  Std.TreeMap.mem_toList_iff_getElem?_eq_some

theorem length_toList (record : Record) : record.toList.length = record.size :=
  Std.TreeMap.length_toList

theorem nodup_names (record : Record) : (record.toList.map Prod.fst).Nodup := by
  rw [toList, Std.TreeMap.map_fst_toList_eq_keys]
  exact Std.TreeMap.nodup_keys

theorem mem_names_iff : name ∈ record.toList.map Prod.fst ↔ (record.get? name).isSome = true := by
  rw [toList, Std.TreeMap.map_fst_toList_eq_keys, Std.TreeMap.mem_keys,
    Std.TreeMap.mem_iff_isSome_getElem?]
  rfl

theorem isSome_lookup_iff : (fields.lookup name).isSome = true ↔ name ∈ fields.map Prod.fst := by
  rw [← Option.ne_none_iff_isSome, ne_eq, List.lookup_eq_none_iff]
  simp

/-- A record has one field for each name that is listed. -/
theorem size_ofList (fields : List (String × Value)) :
    (ofList fields).size = (fields.map Prod.fst).dedup.length := by
  have hnames : ((ofList fields).toList.map Prod.fst).Perm (fields.map Prod.fst).dedup := by
    rw [List.perm_ext_iff_of_nodup (nodup_names _) (List.nodup_dedup _)]
    intro name
    rw [List.mem_dedup, mem_names_iff, get?_ofList, isSome_lookup_iff, List.map_reverse,
      List.mem_reverse]
  rw [← length_toList, ← hnames.length_eq, List.length_map]

/-- Two records with the same fields have them in the same order, too. -/
theorem toList_eq_of_get?_eq {other : Record} (h : ∀ name, record.get? name = other.get? name) :
    record.toList = other.toList :=
  (Std.TreeMap.Equiv.of_forall_constGet?_eq h).toList_eq

theorem lookup_eq_some_iff_of_nodup (h : (fields.map Prod.fst).Nodup) :
    fields.lookup name = some value ↔ (name, value) ∈ fields := by
  rw [List.lookup_eq_some_iff]
  constructor
  · rintro ⟨before, after, rfl, -⟩
    exact List.mem_append_right before List.mem_cons_self
  · intro hmem
    obtain ⟨before, after, rfl⟩ := List.append_of_mem hmem
    rw [List.map_append, List.map_cons, List.nodup_middle, List.nodup_cons] at h
    have hname : name ∉ before.map Prod.fst := fun hbefore => h.1 (List.mem_append_left _ hbefore)
    refine ⟨before, after, rfl, ?_⟩
    intro field hfield
    rw [bne_iff_ne]
    intro heq
    exact hname (heq ▸ List.mem_map_of_mem hfield)

/-- The fields of a record can be set in any order. -/
theorem get?_ofList_of_perm (h : fields.Perm record.toList) (name : String) :
    (ofList fields).get? name = record.get? name := by
  have hperm : fields.reverse.Perm record.toList := (List.reverse_perm fields).trans h
  have hnodup : (fields.reverse.map Prod.fst).Nodup :=
    (hperm.map Prod.fst).nodup_iff.mpr (nodup_names record)
  rw [get?_ofList]
  refine Option.ext fun value => ?_
  rw [lookup_eq_some_iff_of_nodup hnodup, hperm.mem_iff, mem_toList_iff]

/-- The members are the fields in order, with names and texts in any spelling. -/
def AreListed (fields : List (String × Value)) (members : Json.Members) : Prop :=
  List.Forall₂ (fun field member =>
    member.1.StandsFor field.1.toList ∧ field.2.IsDocument member.2) fields members

theorem fieldOfMember?_eq_some_iff {member : Json.Quoted × Json.Document}
    {field : String × Value} : fieldOfMember? member = some field ↔
      member.1.StandsFor field.1.toList ∧ field.2.IsDocument member.2 := by
  rw [fieldOfMember?, Option.bind_eq_some_iff]
  constructor
  · rintro ⟨name, hname, h⟩
    obtain ⟨value, hvalue, rfl⟩ := Option.map_eq_some_iff.mp h
    exact ⟨Json.Quoted.content?_eq_some_iff.mp hname, Value.ofDocument?_eq_some_iff.mp hvalue⟩
  · rintro ⟨hname, hvalue⟩
    refine ⟨field.1, Json.Quoted.content?_eq_some_iff.mpr hname, ?_⟩
    rw [Value.ofDocument?_eq_some_iff.mpr hvalue]
    rfl

theorem mapM_fieldOfMember?_eq_some_iff :
    members.mapM fieldOfMember? = some fields ↔ AreListed fields members := by
  induction members generalizing fields with
  | nil =>
    rw [AreListed, List.forall₂_nil_right_iff]
    exact ⟨fun h => (Option.some.inj h).symm, fun h => congrArg some h.symm⟩
  | cons member rest ih =>
    rw [AreListed, List.mapM_cons, List.forall₂_cons_right_iff]
    simp only [Option.bind_eq_bind, Option.bind_eq_some_iff, ih, fieldOfMember?_eq_some_iff,
      Option.pure_def, Option.some.injEq]
    constructor
    · rintro ⟨field, hfield, others, hothers, rfl⟩
      exact ⟨field, others, hfield, hothers, rfl⟩
    · rintro ⟨field, others, hfield, hothers, rfl⟩
      exact ⟨field, hfield, others, hothers, rfl⟩

theorem ofDocument?_eq_some_iff : ofDocument? (.object members) = some record ↔
    ∃ fields, AreListed fields members ∧ ofList fields = record := by
  rw [ofDocument?, Option.map_eq_some_iff]
  simp only [mapM_fieldOfMember?_eq_some_iff]

theorem isField_of_areListed (h : AreListed fields members) :
    ∀ member ∈ members, Value.IsField member.2 := by
  induction h with
  | nil => simp
  | cons hfirst _ ih => exact List.forall_mem_cons.mpr ⟨Value.isField_of_isDocument hfirst.2, ih⟩

/-- What is written for fields in any order, with repeated names if there are any. -/
def textOf (fields : List (String × Value)) : String :=
  (Json.Document.ofMembers (fields.map fun field => (field.1, field.2.toDocument))).toText

theorem areListed_ofText (fields : List (String × Value)) :
    AreListed fields (fields.map fun field => (Json.Quoted.ofText field.1, field.2.toDocument)) := by
  rw [AreListed, List.forall₂_map_right_iff]
  exact List.forall₂_same.mpr fun field _ =>
    ⟨Json.Quoted.standsFor_ofText field.1, field.2.isDocument_toDocument⟩

/-- A text is read as a record exactly if it lists fields that make up the record. -/
theorem ofJson_eq_ok_iff : ofJson text = .ok record ↔ ∃ fields members,
    (Json.Document.object members).LaidOutAs text ∧ AreListed fields members ∧
      ofList fields = record := by
  rw [ofJson]
  constructor
  · intro h
    split at h
    · rename_i hread
      cases h
      obtain ⟨document, hparse, hdocument⟩ := Option.bind_eq_some_iff.mp hread
      cases document with
      | object members =>
        obtain ⟨fields, hlisted, hrecord⟩ := ofDocument?_eq_some_iff.mp hdocument
        exact ⟨fields, members, Json.Document.parse?_eq_some_iff.mp hparse, hlisted, hrecord⟩
      | _ => cases hdocument
    · cases h
  · rintro ⟨fields, members, hlayout, hlisted, hrecord⟩
    rw [Json.Document.parse?_eq_some_iff.mpr hlayout, Option.bind_some,
      ofDocument?_eq_some_iff.mpr ⟨fields, hlisted, hrecord⟩]

theorem laidOutAs_textOf (fields : List (String × Value)) :
    (Json.Document.object (fields.map fun field =>
      (Json.Quoted.ofText field.1, field.2.toDocument))).LaidOutAs (textOf fields) := by
  rw [textOf, Json.Document.ofMembers, List.map_map]
  exact Json.laidOutAs_toText _

theorem ofJson_textOf (fields : List (String × Value)) :
    ofJson (textOf fields) = .ok (ofList fields) :=
  ofJson_eq_ok_iff.mpr ⟨fields, _, laidOutAs_textOf fields, areListed_ofText fields, rfl⟩

theorem ofJson_of_not_isField {member : Json.Quoted × Json.Document} (hmember : member ∈ members)
    (hfield : ¬ Value.IsField member.2)
    (hlayout : (Json.Document.object members).LaidOutAs text) :
    ofJson text = .error .unreadable := by
  rw [ofJson, Json.Document.parse?_of_laidOutAs hlayout, Option.bind_some]
  cases hread : ofDocument? (.object members) with
  | none => rfl
  | some record =>
    obtain ⟨fields, hlisted, -⟩ := ofDocument?_eq_some_iff.mp hread
    exact absurd (isField_of_areListed hlisted member hmember) hfield

/-- The records have the same fields. -/
def Agree (record other : Record) : Prop :=
  record.toList = other.toList ∧ record.size = other.size ∧
    ∀ name, record.get? name = other.get? name

theorem agree_ofList_of_perm (h : fields.Perm record.toList) : (ofList fields).Agree record := by
  have hget := get?_ofList_of_perm h
  have hlist := toList_eq_of_get?_eq hget
  refine ⟨hlist, ?_, hget⟩
  rw [← length_toList, hlist, length_toList]

/--
Reading an object is setting its fields. An object that lists fields, spelled and laid out in any
way, is read as the record in which these fields are set one after the other, so the last value of a
name stays. What is written for the fields of a record, in any order, is read as the same fields,
and no text among them becomes an integer. An object with a member that is neither a quoted text nor
an integer of 64 bits is not read, whatever its other members are.
-/
theorem ofJson_object :
    (∀ fields members text, AreListed fields members →
      (Json.Document.object members).LaidOutAs text →
        ofJson text = .ok ((∅ : Record).extend fields) ∧
          ((∅ : Record).extend fields).size = (fields.map Prod.fst).dedup.length ∧
          ∀ name, ((∅ : Record).extend fields).get? name = fields.reverse.lookup name) ∧
      (∀ record : Record,
        (∃ read, ofJson record.toJson = .ok read ∧ read.Agree record) ∧
          ∀ fields, fields.Perm record.toList →
            ∃ read, ofJson (textOf fields) = .ok read ∧ read.Agree record) ∧
      ∀ members text, (∃ member ∈ members, ¬ Value.IsField member.2) →
        (Json.Document.object members).LaidOutAs text → ofJson text = .error .unreadable := by
  refine ⟨?_, ?_, ?_⟩
  · intro fields members text hlisted hlayout
    have hread := ofJson_eq_ok_iff.mpr ⟨fields, members, hlayout, hlisted, rfl⟩
    exact ⟨hread, size_ofList fields, get?_ofList fields⟩
  · intro record
    have hread (fields : List (String × Value)) (h : fields.Perm record.toList) :
        ∃ read, ofJson (textOf fields) = .ok read ∧ read.Agree record :=
      ⟨ofList fields, ofJson_textOf fields, agree_ofList_of_perm h⟩
    have hjson : record.toJson = textOf record.toList := rfl
    rw [hjson]
    exact ⟨hread record.toList (.refl _), hread⟩
  · rintro members text ⟨member, hmember, hfield⟩ hlayout
    exact ofJson_of_not_isField hmember hfield hlayout

/-- The ends of the range, a text that looks like a number, and a bad value under a good name. -/
theorem ofJson_object_repeated :
    let fields : List (String × Value) :=
      [("n", .integer Int64.minValue), ("é", .text "007"), ("n", .integer Int64.maxValue)]
    let text := "\x7b\"n\":-9223372036854775808,\"é\":\"007\",\"n\":9223372036854775807\x7d"
    let record : Record := (∅ : Record).extend fields
    ofJson text = .ok record ∧ record.size = 2 ∧
      record.get? "n" = some (.integer Int64.maxValue) ∧ record.get? "é" = some (.text "007") ∧
      (∃ read, ofJson record.toJson = .ok read ∧ read.Agree record) ∧
      ofJson "\x7b\"n\":-0,\"n\":1\x7d" = .error .unreadable := by
  intro fields text record
  obtain ⟨hlisted, hwritten, hrefused⟩ := ofJson_object
  have htext : textOf fields = text := by decide +kernel
  obtain ⟨hread, hsize, hget⟩ :=
    hlisted fields _ text (areListed_ofText fields) (htext ▸ laidOutAs_textOf fields)
  refine ⟨hread, hsize, hget "n", hget "é", (hwritten record).1, ?_⟩
  have hminusZero : ¬ Value.IsField (.number ⟨true, 0, [], none⟩) := by
    intro h
    cases h with
    | integer _ _ hzero _ _ => exact hzero rfl rfl
  let members : Json.Members :=
    [(.ofText "n", .number ⟨true, 0, [], none⟩), (.ofText "n", .ofInt 1)]
  have hmembers : (Json.Document.object members).toText = "\x7b\"n\":-0,\"n\":1\x7d" := by
    decide +kernel
  exact hrefused members _ ⟨_, List.mem_cons_self, hminusZero⟩
    (hmembers ▸ Json.laidOutAs_toText _)

end Record

end Verdict
