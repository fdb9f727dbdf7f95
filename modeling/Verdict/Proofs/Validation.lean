import Verdict.Proofs.Configurations

namespace Verdict

namespace Condition

variable {condition : Condition} {actual : Value} {fields : Fields} {error : RuleError}

theorem kind_of_holdsFor (h : condition.holdsFor actual = .error error) :
    error.kind = .typeMismatch := by
  obtain ⟨field, operator, literal⟩ := condition
  cases operator with
  | equal => cases actual <;> cases literal <;> cases h
  | _ => cases literal <;> cases actual <;> cases h <;> rfl

/-- A condition that was taken apart fails on its field: it is missing or has the wrong type. -/
theorem kind_of_holds (h : condition.holds fields = .error error) :
    error.kind ≠ .malformedRule := by
  rw [holds] at h
  cases hfield : fields condition.field with
  | none =>
    rw [hfield] at h
    cases h
    exact nofun
  | some actual =>
    rw [hfield] at h
    rw [kind_of_holdsFor h]
    exact nofun

end Condition

namespace Expr

variable {expr : Expr} {mode : EvaluationMode} {fields : Fields} {text : String}
  {error fault : RuleError}

theorem evaluate_leaf_of_ofText (h : Condition.ofText text = .error error) :
    (leaf text).evaluate mode fields = .error error := by
  rw [evaluate, h]
  rfl

/-- An error of a leaf that is about the text of the rule comes from taking the leaf apart. -/
theorem ofText_of_evaluate_leaf (h : (leaf text).evaluate mode fields = .error error)
    (hkind : error.kind = .malformedRule) : Condition.ofText text = .error error := by
  rw [evaluate] at h
  obtain hcondition | ⟨condition, -, hholds⟩ := bind_eq_error_iff.mp h
  · exact hcondition
  · exact absurd hkind (Condition.kind_of_holds hholds)

theorem validate_eq_ok_iff : expr.validate = .ok () ↔ expr.firstFault? = none := by
  rw [validate_eq]
  cases expr.firstFault? <;> simp

theorem validate_eq_error_iff : expr.validate = .error fault ↔ expr.firstFault? = some fault := by
  rw [validate_eq]
  cases expr.firstFault? <;> simp

/-- No evaluation has an error that is about the text of a rule. -/
def NeverMalformed (expr : Expr) : Prop :=
  ∀ mode fields error, expr.evaluate mode fields = .error error → error.kind ≠ .malformedRule

theorem neverMalformed_of_firstFault? (h : expr.firstFault? = none) : expr.NeverMalformed := by
  intro mode fields error herror hkind
  obtain ⟨text, hmem, hleaf⟩ := exists_leaf_of_evaluate_eq_error herror
  have hfault := List.findSome?_eq_none_iff.mp h text hmem
  rw [ofText_of_evaluate_leaf hleaf hkind] at hfault
  cases hfault

theorem evaluate_of_firstFault? (h : expr.firstFault? = some fault) (fields : Fields) :
    ∃ error, expr.evaluate .exhaustive fields = .error error ∧
      (error.kind = .malformedRule → error = fault) := by
  obtain ⟨before, text, after, hfringe, htext, hbefore⟩ := List.findSome?_eq_some_iff.mp h
  have hfault := RuleError.eq_error_of_ofResult? htext
  obtain ⟨first, hmem, cause, hleaf, hcause⟩ :=
    evaluate_exhaustive_of_leaf hfringe (evaluate_leaf_of_ofText hfault)
  refine ⟨cause, hcause, ?_⟩
  intro hkind
  have hfirst := ofText_of_evaluate_leaf hleaf hkind
  -- The leaves before the fault can be taken apart, so this one is the fault.
  obtain hearlier | hsame := List.mem_append.mp hmem
  · have hnone := hbefore first hearlier
    rw [hfirst] at hnone
    cases hnone
  · rw [List.mem_singleton.mp hsame, hfault] at hfirst
    exact (Except.error.inj hfirst).symm

/--
What validation accepts never fails over the text of a rule, and what it refuses fails on all
fields. So rules that are checked when they are read never fail over their text later.
-/
theorem validate_sound :
    (∀ expr : Expr, expr.validate = .ok () → expr.NeverMalformed) ∧
    (∀ (expr : Expr) (fault : RuleError), expr.validate = .error fault → ∀ fields,
      ∃ error, expr.evaluate .exhaustive fields = .error error ∧
        (error.kind = .malformedRule → error = fault)) ∧
    (∀ (maxDepth : UInt64) (text : String) (expr : Expr),
      ofRule ⟨.eager, maxDepth⟩ text = .ok expr → expr.NeverMalformed) ∧
    ∀ (maxDepth : UInt64) (rules : List String) (expr : Expr),
      ofRules ⟨.eager, maxDepth⟩ rules = .ok (some expr) → expr.NeverMalformed := by
  refine ⟨?_, ?_, ?_, ?_⟩
  · intro expr hvalid
    exact neverMalformed_of_firstFault? (validate_eq_ok_iff.mp hvalid)
  · intro expr fault hfault fields
    exact evaluate_of_firstFault? (validate_eq_error_iff.mp hfault) fields
  · intro maxDepth text expr hread
    exact neverMalformed_of_firstFault? (ofRule_eager_eq_ok_iff.mp hread).2
  · intro maxDepth rules expr hread
    exact neverMalformed_of_firstFault? ((ofRules_eager_eq_ok_iff.mp hread).2 expr rfl)

/--
The second condition is refused. With the field of the first one its error comes out, and without
that field another error is before it.
-/
theorem validate_sound_second_leaf :
    let expr : Expr := .node .or (.leaf "a > 1") (.leaf "b")
    let known : Fields := fun name => if name = "a" then some (.integer 5) else none
    let rules := ["a > 1", "b = 'x' OR c < 0"]
    expr.validate = .error (.noOperator "b") ∧
      expr.evaluate .exhaustive known = .error (.noOperator "b") ∧
      expr.evaluate .exhaustive (fun _ => none) = .error (.unknownField "a") ∧
      (leaf "a > 1").NeverMalformed ∧
      (∃ combined, ofRules ⟨.eager, 3⟩ rules = .ok (some combined) ∧ combined.NeverMalformed) ∧
      ∃ read, ofRule ⟨.eager, 3⟩ "b = 'x' OR c < 0" = .ok read ∧ read.NeverMalformed := by
  intro expr known rules
  obtain ⟨hvalid, hfault, hrule, hrules⟩ := validate_sound
  have hrefused : expr.validate = .error (.noOperator "b") := by
    rw [validate_eq]
    rfl
  have haccepted : (leaf "a > 1").validate = .ok () := by
    rw [validate_eq]
    rfl
  have hcombined : ofRules ⟨.eager, 3⟩ rules =
      .ok (some (.node .and (.leaf "a > 1") (.node .or (.leaf "b = 'x'") (.leaf "c < 0")))) := by
    simp only [rules, ofRules, List.foldlM_cons, List.foldlM_nil, joinRule, depth_eq_height,
      ofRule_eq, checkLeaves_map]
    rfl
  have hread : ofRule ⟨.eager, 3⟩ "b = 'x' OR c < 0" =
      .ok (.node .or (.leaf "b = 'x'") (.leaf "c < 0")) := by
    rw [ofRule_eq, checkLeaves_map]
    rfl
  refine ⟨hrefused, ?_, rfl, hvalid _ haccepted, ⟨_, hcombined, hrules _ _ _ hcombined⟩, _, hread,
    hrule _ _ _ hread⟩
  obtain ⟨error, herror, hsame⟩ := hfault expr _ hrefused known
  have hkind : error.kind = .malformedRule := by
    cases herror
    rfl
  rw [herror, hsame hkind]

end Expr

end Verdict
