import Verdict.Proofs.Validation

namespace Verdict

/-- The second result is the first one again, unless the first one is about a missing field. -/
def SameUnlessMissing {α : Type} (first second : Except RuleError α) : Prop :=
  (∀ name, first ≠ .error (.unknownField name)) → second = first

theorem SameUnlessMissing.refl {α : Type} (result : Except RuleError α) :
    SameUnlessMissing result result :=
  fun _ => rfl

/-- What goes on from the same result in the same way ends in the same result. -/
theorem SameUnlessMissing.bind {α β : Type} {first second : Except RuleError α}
    {next other : α → Except RuleError β} (hfirst : SameUnlessMissing first second)
    (hnext : ∀ value, first = .ok value → SameUnlessMissing (next value) (other value)) :
    SameUnlessMissing (first >>= next) (second >>= other) := by
  intro hfound
  have hsame : second = first := by
    apply hfirst
    intro name hmissing
    exact hfound name (bind_eq_error_iff.mpr (.inl hmissing))
  rw [hsame]
  cases first with
  | error error => rfl
  | ok value => exact hnext value rfl hfound

namespace Condition

variable {condition : Condition} {fields other : Fields} {name : String}

theorem sameUnlessMissing_holds
    (hkept : ∀ value, fields condition.field = some value → other condition.field = some value) :
    SameUnlessMissing (condition.holds fields) (condition.holds other) := by
  intro hfound
  cases hfield : fields condition.field with
  | none =>
    have hmissing : condition.holds fields = .error (.unknownField condition.field) := by
      rw [holds, hfield]
    exact absurd hmissing (hfound condition.field)
  | some actual => rw [holds, holds, hfield, hkept actual hfield]

theorem holds_eq_unknownField_iff :
    condition.holds fields = .error (.unknownField name) ↔
      condition.field = name ∧ fields name = none := by
  constructor
  · intro h
    rw [holds] at h
    cases hfield : fields condition.field with
    | none =>
      rw [hfield] at h
      cases h
      exact ⟨rfl, hfield⟩
    | some actual =>
      rw [hfield] at h
      have hkind := kind_of_holdsFor h
      cases hkind
  · rintro ⟨rfl, hmissing⟩
    rw [holds, hmissing]

/-- The field that a text names, if it is a condition. -/
def fieldOf? (text : String) : Option String :=
  (ofText text).toOption.map field

theorem fieldOf?_eq_some_iff {text : String} :
    fieldOf? text = some name ↔ ∃ condition, ofText text = .ok condition ∧ condition.field = name := by
  rw [fieldOf?]
  cases ofText text <;> simp [Except.toOption]

end Condition

namespace Expr

variable {expr : Expr} {mode : EvaluationMode} {fields other : Fields} {text name : String}

/-- The fields that are named in an expression, from left to right. -/
def fieldNames (expr : Expr) : List String :=
  expr.leaves.filterMap Condition.fieldOf?

theorem mem_fieldNames_iff :
    name ∈ expr.fieldNames ↔
      ∃ text ∈ expr.leaves, ∃ condition, Condition.ofText text = .ok condition ∧
        condition.field = name := by
  rw [fieldNames, List.mem_filterMap]
  simp only [Condition.fieldOf?_eq_some_iff]

theorem fieldNames_node (connective : Connective) (left right : Expr) :
    (node connective left right).fieldNames = left.fieldNames ++ right.fieldNames := by
  simp only [fieldNames, leaves_eq_fringe, fringe, List.filterMap_append]

theorem sameUnlessMissing_evaluate
    (hkept : ∀ name ∈ expr.fieldNames, ∀ value, fields name = some value →
      other name = some value) :
    SameUnlessMissing (expr.evaluate mode fields) (expr.evaluate mode other) := by
  induction expr with
  | leaf text =>
    apply (SameUnlessMissing.refl (Condition.ofText text)).bind
    intro condition hcondition
    apply Condition.sameUnlessMissing_holds
    apply hkept
    rw [mem_fieldNames_iff, leaves_eq_fringe]
    exact ⟨text, List.mem_singleton_self text, condition, hcondition, rfl⟩
  | node connective left right ihLeft ihRight =>
    simp only [fieldNames_node, List.mem_append] at hkept
    have hleft := ihLeft fun name hname => hkept name (.inl hname)
    have hright := ihRight fun name hname => hkept name (.inr hname)
    apply hleft.bind
    intro leftValue _
    -- Both runs pass over the right operand or neither does, as the left value is the same.
    split
    · exact .refl _
    · exact hright.bind fun rightValue _ => .refl _

theorem evaluate_leaf_of_missing {condition : Condition}
    (hcondition : Condition.ofText text = .ok condition) (hmissing : fields condition.field = none) :
    (leaf text).evaluate mode fields = .error (.unknownField condition.field) := by
  rw [evaluate_leaf mode fields hcondition]
  exact Condition.holds_eq_unknownField_iff.mpr ⟨rfl, hmissing⟩

theorem missing_of_evaluate (h : expr.evaluate mode fields = .error (.unknownField name)) :
    fields name = none ∧ name ∈ expr.fieldNames := by
  obtain ⟨text, hmem, hleaf⟩ := exists_leaf_of_evaluate_eq_error h
  rw [evaluate] at hleaf
  obtain hmalformed | ⟨condition, hcondition, hholds⟩ := bind_eq_error_iff.mp hleaf
  · have hkind := onlyMalformed_ofText text _ hmalformed
    cases hkind
  · obtain ⟨hfield, hmissing⟩ := Condition.holds_eq_unknownField_iff.mp hholds
    refine ⟨hmissing, mem_fieldNames_iff.mpr ⟨text, ?_, condition, hcondition, hfield⟩⟩
    rwa [leaves_eq_fringe]

theorem evaluate_exhaustive_of_missing (hname : name ∈ expr.fieldNames)
    (hmissing : fields name = none) : ∃ error, expr.evaluate .exhaustive fields = .error error := by
  obtain ⟨text, hmem, condition, hcondition, rfl⟩ := mem_fieldNames_iff.mp hname
  rw [leaves_eq_fringe] at hmem
  obtain ⟨before, after, hfringe⟩ := List.append_of_mem hmem
  obtain ⟨_, _, cause, _, hcause⟩ :=
    evaluate_exhaustive_of_leaf hfringe (evaluate_leaf_of_missing hcondition hmissing)
  exact ⟨cause, hcause⟩

/--
An outcome stays as it is when every field that is named and has a value keeps it, unless a field
was missing. Then the error says which, and no condition on it has a truth value.
-/
theorem evaluate_of_kept_fields (expr : Expr) (mode : EvaluationMode) (fields : Fields) :
    (∀ other : Fields,
      (∀ name ∈ expr.fieldNames, ∀ value, fields name = some value → other name = some value) →
      (∀ name, expr.evaluate mode fields ≠ .error (.unknownField name)) →
      expr.evaluate mode other = expr.evaluate mode fields) ∧
    (∀ name, expr.evaluate mode fields = .error (.unknownField name) →
      fields name = none ∧ name ∈ expr.fieldNames) ∧
    (∀ other : Fields, (∀ name value, fields name = some value → other name = some value) →
      ∀ value, expr.evaluate mode fields = .ok value → expr.evaluate mode other = .ok value) ∧
    (∀ text ∈ expr.leaves, ∀ condition, Condition.ofText text = .ok condition →
      fields condition.field = none →
      (leaf text).evaluate mode fields = .error (.unknownField condition.field)) ∧
    ∀ name ∈ expr.fieldNames, fields name = none →
      ∃ error, expr.evaluate .exhaustive fields = .error error := by
  refine ⟨?_, ?_, ?_, ?_, ?_⟩
  · intro other hkept hfound
    exact sameUnlessMissing_evaluate hkept hfound
  · intro name h
    exact missing_of_evaluate h
  · intro other hadded value hvalue
    rw [← hvalue]
    apply sameUnlessMissing_evaluate fun name _ => hadded name
    rw [hvalue]
    exact fun name => nofun
  · intro text _ condition hcondition hmissing
    exact evaluate_leaf_of_missing hcondition hmissing
  · intro name hname hmissing
    exact evaluate_exhaustive_of_missing hname hmissing

/--
A field is added that a skipped condition names, with a value that it cannot take. The short run
ends in the same error as before, and the exhaustive one stopped where this field was missing.
-/
theorem evaluate_of_kept_fields_skipped :
    let expr : Expr := .node .and (.node .or (.leaf "a > 1") (.leaf "b > 1")) (.leaf "c > 1")
    let fields : Fields := fun name =>
      if name = "a" then some (.integer 5) else if name = "c" then some (.text "x") else none
    let other : Fields := fun name => if name = "b" then some (.text "y") else fields name
    expr.evaluate .shortCircuit fields = .error (.valueNotInteger "c") ∧
      expr.evaluate .shortCircuit other = .error (.valueNotInteger "c") ∧
      expr.evaluate .exhaustive fields = .error (.unknownField "b") ∧
      expr.evaluate .exhaustive other = .error (.valueNotInteger "b") ∧
      (fields "b" = none ∧ "b" ∈ expr.fieldNames) := by
  intro expr fields other
  obtain ⟨hsame, -⟩ := evaluate_of_kept_fields expr .shortCircuit fields
  obtain ⟨-, hmissing, -⟩ := evaluate_of_kept_fields expr .exhaustive fields
  have hshort : expr.evaluate .shortCircuit fields = .error (.valueNotInteger "c") := rfl
  have hkept : ∀ name ∈ expr.fieldNames, ∀ value, fields name = some value →
      other name = some value := by
    intro name _ value hvalue
    have hne : name ≠ "b" := by
      rintro rfl
      cases hvalue
    rw [← hvalue]
    exact if_neg hne
  refine ⟨hshort, ?_, rfl, rfl, hmissing "b" rfl⟩
  rw [hsame other hkept (by rw [hshort]; exact fun name => nofun), hshort]

end Expr

end Verdict
