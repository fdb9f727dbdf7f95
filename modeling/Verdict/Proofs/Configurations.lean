import Verdict.Proofs.Modes
import Verdict.Proofs.Rearrangement

namespace Verdict

/-- Every error of the result is about the text of a rule. -/
def OnlyMalformed {α : Type} (result : Except RuleError α) : Prop :=
  ∀ error, result = .error error → error.kind = .malformedRule

theorem OnlyMalformed.ok {α : Type} (result : α) : OnlyMalformed (.ok result) := by
  intro error h
  cases h

theorem OnlyMalformed.error {α : Type} {error : RuleError} (h : error.kind = .malformedRule) :
    OnlyMalformed (.error error : Except RuleError α) := by
  rintro cause ⟨⟩
  exact h

theorem OnlyMalformed.bind {α β : Type} {first : Except RuleError α}
    {next : α → Except RuleError β} (hfirst : OnlyMalformed first)
    (hnext : ∀ result, OnlyMalformed (next result)) : OnlyMalformed (first >>= next) := by
  intro error h
  obtain hfailed | ⟨result, -, hfailed⟩ := bind_eq_error_iff.mp h
  · exact hfirst error hfailed
  · exact hnext result error hfailed

theorem OnlyMalformed.foldlM {α β : Type} {step : β → α → Except RuleError β}
    (hstep : ∀ state item, OnlyMalformed (step state item)) (items : List α) (state : β) :
    OnlyMalformed (items.foldlM step state) := by
  induction items generalizing state with
  | nil => exact .ok state
  | cons item rest ih =>
    rw [List.foldlM_cons]
    exact (hstep state item).bind ih

theorem onlyMalformed_ofText (text : String) : OnlyMalformed (Condition.ofText text) := by
  rw [Condition.ofText]
  split
  · exact .error rfl
  split
  · exact .ok _
  · exact .error rfl

namespace Expr

variable {options : ParseOptions} {maxDepth : UInt64} {expr : Expr} {combined : Option Expr}
  {text : String} {rules : List String} {exprs : List Expr}

theorem kind_of_firstFault? {error : RuleError} (h : expr.firstFault? = some error) :
    error.kind = .malformedRule := by
  obtain ⟨text, -, hfault⟩ := List.exists_of_findSome?_eq_some h
  cases hcondition : Condition.ofText text with
  | ok condition =>
    rw [hcondition] at hfault
    cases hfault
  | error cause =>
    rw [hcondition] at hfault
    cases hfault
    exact onlyMalformed_ofText text error hcondition

theorem onlyMalformed_ofRule (options : ParseOptions) (text : String) :
    OnlyMalformed (ofRule options text) := by
  rw [ofRule_eq, checkLeaves_map]
  split
  · exact .error rfl
  split
  · exact .error rfl
  split
  · rename_i hfault
    exact .error (kind_of_firstFault? hfault)
  · exact .ok _

theorem onlyMalformed_joinRule (options : ParseOptions) (measured : Rule.Measured) (text : String) :
    OnlyMalformed (joinRule options measured text) := by
  apply (onlyMalformed_ofRule options text).bind
  intro next
  dsimp only
  split
  · exact .error rfl
  · exact .ok _

theorem onlyMalformed_ofRules (options : ParseOptions) (rules : List String) :
    OnlyMalformed (ofRules options rules) := by
  cases rules with
  | nil => exact .ok none
  | cons first others =>
    apply (onlyMalformed_ofRule options first).bind
    intro expr
    apply (OnlyMalformed.foldlM (onlyMalformed_joinRule options) others _).bind
    intro measured
    exact .ok _

theorem ofRule_eager_eq_ok_iff :
    ofRule ⟨.eager, maxDepth⟩ text = .ok expr ↔
      ofRule ⟨.deferred, maxDepth⟩ text = .ok expr ∧ expr.firstFault? = none := by
  rw [ofRule_eq, ofRule_eq, checkLeaves_map, checkLeaves_map]
  split
  · simp
  split
  · simp
  · generalize Rule.treeOf Connective.scanOrder text.toList = tree
    constructor
    · intro h
      split at h
      · cases h
      · rename_i hfault
        cases h
        refine ⟨rfl, Option.eq_none_iff_forall_ne_some.mpr ?_⟩
        intro error
        exact hfault error rfl
    · rintro ⟨h, hfault⟩
      cases h
      rw [hfault]

theorem areRead_eager_iff :
    AreRead ⟨.eager, maxDepth⟩ rules exprs ↔
      AreRead ⟨.deferred, maxDepth⟩ rules exprs ∧ ∀ expr ∈ exprs, expr.firstFault? = none := by
  constructor
  · intro h
    induction h with
    | nil => exact ⟨.nil, by simp⟩
    | cons hread _ ih =>
      obtain ⟨hread, hfault⟩ := ofRule_eager_eq_ok_iff.mp hread
      exact ⟨.cons hread ih.1, List.forall_mem_cons.mpr ⟨hfault, ih.2⟩⟩
  · rintro ⟨h, hfaults⟩
    induction h with
    | nil => exact .nil
    | cons hread _ ih =>
      rw [List.forall_mem_cons] at hfaults
      exact .cons (ofRule_eager_eq_ok_iff.mpr ⟨hread, hfaults.1⟩) (ih hfaults.2)

theorem firstFault?_foldl_node (connective : Connective) (first : Expr) (others : List Expr) :
    (others.foldl (.node connective) first).firstFault? = none ↔
      ∀ expr ∈ first :: others, expr.firstFault? = none := by
  simp only [firstFault?, fringe_foldl_node, List.findSome?_eq_none_iff, List.mem_flatMap]
  constructor
  · intro h expr hexpr text htext
    exact h text ⟨expr, hexpr, htext⟩
  · rintro h text ⟨expr, hexpr, htext⟩
    exact h expr hexpr text htext

theorem ofRules_eager_eq_ok_iff :
    ofRules ⟨.eager, maxDepth⟩ rules = .ok combined ↔
      ofRules ⟨.deferred, maxDepth⟩ rules = .ok combined ∧
        ∀ expr ∈ combined, expr.firstFault? = none := by
  cases rules with
  | nil =>
    constructor
    · intro h
      cases h
      exact ⟨rfl, by simp⟩
    · intro h
      exact h.1
  | cons first others =>
    rw [ofRules_eq_ok_iff, ofRules_eq_ok_iff]
    constructor
    · rintro ⟨expr, exprs, hread, hfits, rfl⟩
      obtain ⟨hread, hfaults⟩ := areRead_eager_iff.mp hread
      refine ⟨⟨expr, exprs, hread, hfits, rfl⟩, ?_⟩
      rintro tree ⟨⟩
      exact (firstFault?_foldl_node .and expr exprs).mpr hfaults
    · rintro ⟨⟨expr, exprs, hread, hfits, rfl⟩, hfaults⟩
      have hfaults := (firstFault?_foldl_node .and expr exprs).mp (hfaults _ rfl)
      exact ⟨expr, exprs, areRead_eager_iff.mpr ⟨hread, hfaults⟩, hfits, rfl⟩

end Expr

namespace Engine

def configured (maxDepth : UInt64) (validation : Validation) (mode : EvaluationMode) : Engine where
  config := { parse := { validation, maxDepth }, evaluation := mode }

variable {maxDepth : UInt64} {validation otherValidation : Validation}
  {mode otherMode : EvaluationMode} {rules : List String} {fields : Fields}

theorem checkAll_eq_ok_iff {engine : Engine} {answer : Option Bool} :
    engine.checkAll rules fields = .ok answer ↔
      (engine.combine rules = .ok none ∧ answer = none) ∨
        ∃ expr value, engine.combine rules = .ok (some expr) ∧
          engine.evaluate expr fields = .ok value ∧ answer = some value := by
  rw [checkAll, bind_eq_ok_iff]
  constructor
  · rintro ⟨_ | expr, hcombine, h⟩
    · cases h
      exact .inl ⟨hcombine, rfl⟩
    · obtain ⟨value, hvalue, h⟩ := bind_eq_ok_iff.mp h
      cases h
      exact .inr ⟨expr, value, hcombine, hvalue, rfl⟩
  · rintro (⟨hcombine, rfl⟩ | ⟨expr, value, hcombine, hvalue, rfl⟩)
    · exact ⟨none, hcombine, rfl⟩
    · refine ⟨some expr, hcombine, ?_⟩
      exact bind_eq_ok_iff.mpr ⟨value, hvalue, rfl⟩

/-- What rules are combined to does not depend on when their conditions are checked. -/
theorem ofRules_deferred_of_combine {combined : Option Expr}
    (h : (configured maxDepth validation mode).combine rules = .ok combined) :
    Expr.ofRules ⟨.deferred, maxDepth⟩ rules = .ok combined := by
  cases validation with
  | deferred => exact h
  | eager => exact (Expr.ofRules_eager_eq_ok_iff.mp h).1

theorem combine_of_faultless {expr : Expr}
    (hread : Expr.ofRules ⟨.deferred, maxDepth⟩ rules = .ok (some expr))
    (hfault : expr.firstFault? = none) :
    (configured maxDepth validation mode).combine rules = .ok (some expr) := by
  cases validation with
  | deferred => exact hread
  | eager =>
    apply Expr.ofRules_eager_eq_ok_iff.mpr
    refine ⟨hread, ?_⟩
    rintro tree ⟨⟩
    exact hfault

theorem checkAll_of_exhaustive {value : Bool}
    (h : (configured maxDepth validation .exhaustive).checkAll rules fields = .ok (some value)) :
    (configured maxDepth otherValidation mode).checkAll rules fields = .ok (some value) := by
  obtain ⟨-, hnone⟩ | ⟨expr, value, hcombine, hvalue, hanswer⟩ := checkAll_eq_ok_iff.mp h
  · cases hnone
  · cases hanswer
    have hfault := Expr.firstFault?_of_exhaustive hvalue
    apply checkAll_eq_ok_iff.mpr
    refine .inr ⟨expr, value, ?_, ?_, rfl⟩
    · exact combine_of_faultless (ofRules_deferred_of_combine hcombine) hfault
    · exact Expr.evaluate_of_exhaustive hvalue mode

/-- Where there is an answer, it is the verdict of the combined rules. -/
theorem eq_verdict?_of_checkAll {answer : Option Bool}
    (h : (configured maxDepth validation mode).checkAll rules fields = .ok answer) :
    ∃ combined, Expr.ofRules ⟨.deferred, maxDepth⟩ rules = .ok combined ∧
      answer = combined.bind (Expr.verdict? fields) := by
  obtain ⟨hcombine, rfl⟩ | ⟨expr, value, hcombine, hvalue, rfl⟩ := checkAll_eq_ok_iff.mp h
  · exact ⟨none, ofRules_deferred_of_combine hcombine, rfl⟩
  · exact ⟨some expr, ofRules_deferred_of_combine hcombine,
      (Expr.verdict?_of_evaluate hvalue).symm⟩

theorem checkAll_unique {answer otherAnswer : Option Bool}
    (h : (configured maxDepth validation mode).checkAll rules fields = .ok answer)
    (hother : (configured maxDepth otherValidation otherMode).checkAll rules fields =
      .ok otherAnswer) : answer = otherAnswer := by
  obtain ⟨combined, hread, rfl⟩ := eq_verdict?_of_checkAll h
  obtain ⟨otherCombined, hreadOther, rfl⟩ := eq_verdict?_of_checkAll hother
  rw [hread] at hreadOther
  cases hreadOther
  rfl

theorem checkAll_eager (maxDepth : UInt64) (mode : EvaluationMode) (rules : List String)
    (fields : Fields) :
    (configured maxDepth .eager mode).checkAll rules fields =
        (configured maxDepth .deferred mode).checkAll rules fields ∨
      ∃ error, (configured maxDepth .eager mode).checkAll rules fields = .error error ∧
        error.kind = .malformedRule := by
  cases hcombine : (configured maxDepth .eager mode).combine rules with
  | error error =>
    refine .inr ⟨error, ?_, Expr.onlyMalformed_ofRules _ rules error hcombine⟩
    rw [checkAll, hcombine]
    rfl
  | ok combined =>
    have hdeferred : (configured maxDepth .deferred mode).combine rules = .ok combined :=
      ofRules_deferred_of_combine hcombine
    rw [checkAll, checkAll, hcombine, hdeferred]
    exact .inl rfl

/-- The configurations of an engine with one limit can differ only by an error. -/
theorem checkAll_configurations (maxDepth : UInt64) (rules : List String) (fields : Fields) :
    (∀ validation value,
      (configured maxDepth validation .exhaustive).checkAll rules fields = .ok (some value) →
      ∀ otherValidation mode,
        (configured maxDepth otherValidation mode).checkAll rules fields = .ok (some value)) ∧
    (∀ validation otherValidation mode otherMode answer otherAnswer,
      (configured maxDepth validation mode).checkAll rules fields = .ok answer →
      (configured maxDepth otherValidation otherMode).checkAll rules fields = .ok otherAnswer →
      answer = otherAnswer) ∧
    ∀ mode,
      (configured maxDepth .eager mode).checkAll rules fields =
          (configured maxDepth .deferred mode).checkAll rules fields ∨
        ∃ error, (configured maxDepth .eager mode).checkAll rules fields = .error error ∧
          error.kind = .malformedRule := by
  refine ⟨?_, ?_, ?_⟩
  · intro validation value h otherValidation mode
    exact checkAll_of_exhaustive h
  · intro validation otherValidation mode otherMode answer otherAnswer h hother
    exact checkAll_unique h hother
  · intro mode
    exact checkAll_eager maxDepth mode rules fields

/--
The first rules have a verdict in exhaustive mode, and so with every configuration. The other rule
has one only if its second alternative is neither checked nor needed.
-/
theorem checkAll_configurations_alternatives :
    let rules := ["a > 1 OR b = 'x'", "c < 3"]
    let dangling := ["a > 1 OR b"]
    let fields : Fields := fun name =>
      if name = "a" then some (.integer 5)
      else if name = "b" then some (.text "y")
      else if name = "c" then some (.integer 4)
      else none
    (configured 3 .deferred .exhaustive).checkAll rules fields = .ok (some false) ∧
      (configured 3 .eager .shortCircuit).checkAll rules fields = .ok (some false) ∧
      (configured 3 .deferred .shortCircuit).checkAll dangling fields = .ok (some true) ∧
      ∃ error, (configured 3 .eager .shortCircuit).checkAll dangling fields = .error error ∧
        error.kind = .malformedRule := by
  intro rules dangling fields
  have hcombine : (configured 3 .deferred .exhaustive).combine rules =
      .ok (some (.node .and (.node .or (.leaf "a > 1") (.leaf "b = 'x'")) (.leaf "c < 3"))) := by
    simp only [rules, combine, Expr.ofRules, List.foldlM_cons, List.foldlM_nil, Expr.joinRule,
      Expr.depth_eq_height]
    rfl
  have hexhaustive : (configured 3 .deferred .exhaustive).checkAll rules fields =
      .ok (some false) := by
    rw [checkAll, hcombine]
    rfl
  have hdangling : (configured 3 .deferred .shortCircuit).checkAll dangling fields =
      .ok (some true) := rfl
  refine ⟨hexhaustive, ?_, hdangling, ?_⟩
  · exact (checkAll_configurations 3 rules fields).1 _ _ hexhaustive _ _
  · obtain hsame | herror := (checkAll_configurations 3 dangling fields).2.2 .shortCircuit
    · rw [hdangling] at hsame
      have heager : (configured 3 .eager .shortCircuit).combine dangling =
          .error (.noOperator "b") := by
        rw [combine, Expr.ofRules, Expr.ofRule_eq, Expr.checkLeaves_map]
        rfl
      rw [checkAll, heager] at hsame
      cases hsame
    · exact herror

end Engine

end Verdict
