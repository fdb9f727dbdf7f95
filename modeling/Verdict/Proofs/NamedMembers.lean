import Mathlib.Data.List.Perm.Basic
import Verdict.Json.Member
import Verdict.Proofs.Spellings

namespace Verdict.Json

namespace Members

/-- The members are the fields in order, each name in one of its spellings. -/
def Spell (named : Members) (fields : List (String × Document)) : Prop :=
  List.Forall₂ (fun member field => member.1.StandsFor field.1.toList ∧ member.2 = field.2) named
    fields

/-- Every key of the members has a content, and none of the known names is one of these. -/
def Avoid (others : Members) (known : List String) : Prop :=
  ∀ member ∈ others, ∃ name, member.1.StandsFor name.toList ∧ name ∉ known

/-- In some order, the members are the fields and others that have none of the known names. -/
def Hold (members : Members) (known : List String) (fields : List (String × Document))
    (others : Members) : Prop :=
  others.Avoid known ∧ ∃ named : Members, named.Spell fields ∧ members.Perm (named ++ others)

variable {members named others : Members} {known : List String} {name : String}
  {fields : List (String × Document)} {value : Document}

theorem spell_ofText (fields : List (String × Document)) :
    Spell (fields.map fun field => (Quoted.ofText field.1, field.2)) fields := by
  rw [Spell, List.forall₂_map_left_iff]
  exact List.forall₂_same.mpr fun field _ => ⟨Quoted.standsFor_ofText field.1, rfl⟩

theorem hold_of_perm (havoid : others.Avoid known)
    (h : members.Perm ((fields.map fun field => (Quoted.ofText field.1, field.2)) ++ others)) :
    members.Hold known fields others :=
  ⟨havoid, _, spell_ofText fields, h⟩

/-- What is written for the fields holds them and nothing else. -/
theorem hold_ofText (known : List String) (fields : List (String × Document)) :
    Hold (fields.map fun field => (Quoted.ofText field.1, field.2)) known fields [] := by
  refine hold_of_perm (by simp [Avoid]) ?_
  rw [List.append_nil]

theorem perm_valuesOf (h : members.Perm named) (name : String) :
    (members.valuesOf name).Perm (named.valuesOf name) :=
  (h.filter _).map Prod.snd

theorem valuesOf_append (named others : Members) (name : String) :
    valuesOf (named ++ others) name = named.valuesOf name ++ others.valuesOf name := by
  rw [valuesOf, List.filter_append, List.map_append]
  rfl

theorem valuesOf_of_spell (h : named.Spell fields) (name : String) :
    named.valuesOf name = (fields.filter fun field => field.1 == name).map Prod.snd := by
  unfold valuesOf
  induction h with
  | nil => rfl
  | @cons member field _ _ hfirst _ ih =>
    rw [List.filter_cons, List.filter_cons, Quoted.content?_of_standsFor hfirst.1,
      Option.some_beq_some]
    by_cases hname : (field.1 == name) = true
    · rw [if_pos hname, if_pos hname, List.map_cons, List.map_cons, ih, hfirst.2]
    · rw [if_neg hname, if_neg hname, ih]

theorem valuesOf_of_avoid (h : others.Avoid known) (hname : name ∈ known) :
    others.valuesOf name = [] := by
  rw [valuesOf, List.map_eq_nil_iff, List.filter_eq_nil_iff]
  intro member hmember hcontent
  obtain ⟨other, hother, hunknown⟩ := h member hmember
  rw [Quoted.content?_of_standsFor hother, beq_iff_eq, Option.some.injEq] at hcontent
  exact hunknown (hcontent ▸ hname)

theorem perm_valuesOf_of_hold (h : members.Hold known fields others) (hname : name ∈ known) :
    (members.valuesOf name).Perm ((fields.filter fun field => field.1 == name).map Prod.snd) := by
  obtain ⟨havoid, named, hspell, hperm⟩ := h
  have hvalues := perm_valuesOf hperm name
  rwa [valuesOf_append, valuesOf_of_avoid havoid hname, List.append_nil,
    valuesOf_of_spell hspell] at hvalues

theorem only?_of_hold (h : members.Hold known fields others) (hname : name ∈ known)
    (hfield : (fields.filter fun field => field.1 == name) = [(name, value)]) :
    members.only? name = some value := by
  have hvalues := perm_valuesOf_of_hold h hname
  rw [hfield, List.map_singleton, List.perm_singleton] at hvalues
  rw [only?, hvalues]

end Members

theorem only?_ofText {members : List (String × Document)} (name : String) {value : Document}
    (h : (members.filter fun member => member.1 == name) = [(name, value)]) :
    Members.only? (members.map fun member => (Quoted.ofText member.1, member.2)) name =
      some value :=
  Members.only?_of_hold (Members.hold_ofText [name] members) (List.mem_singleton_self name) h

namespace Document

variable {members named others : Members} {known : List String}
  {fields : List (String × Document)}

theorem areSoundMembers_iff : areSoundMembers members = true ↔
    ∀ member ∈ members, member.1.content?.isSome = true ∧ member.2.isSound = true := by
  induction members with
  | nil => simp [areSoundMembers]
  | cons member rest ih => simp [areSoundMembers, ih]

theorem areSoundMembers_of_spell (h : named.Spell fields)
    (hfields : ∀ field ∈ fields, field.2.isSound = true) : areSoundMembers named = true := by
  induction h with
  | nil => rfl
  | cons hfirst _ ih =>
    obtain ⟨hvalue, hrest⟩ := List.forall_mem_cons.mp hfields
    rw [areSoundMembers, Quoted.content?_of_standsFor hfirst.1, hfirst.2, hvalue, ih hrest]
    rfl

/-- An object is sound if the values of its fields and of its other members are. -/
theorem isSound_of_hold (h : members.Hold known fields others)
    (hfields : ∀ field ∈ fields, field.2.isSound = true)
    (hothers : ∀ member ∈ others, member.2.isSound = true) : (object members).isSound = true := by
  obtain ⟨havoid, named, hspell, hperm⟩ := h
  have hnamed := areSoundMembers_iff.mp (areSoundMembers_of_spell hspell hfields)
  rw [isSound, areSoundMembers_iff]
  intro member hmember
  obtain hmember | hmember := List.mem_append.mp (hperm.mem_iff.mp hmember)
  · exact hnamed member hmember
  · obtain ⟨name, hname, -⟩ := havoid member hmember
    exact ⟨by simp [Quoted.content?_of_standsFor hname], hothers member hmember⟩

end Document

end Verdict.Json
