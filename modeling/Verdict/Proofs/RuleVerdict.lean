import Verdict.Engine
import Verdict.Proofs.RuleReading

namespace Verdict

namespace Expr

variable (mode : EvaluationMode) (fields : Fields)

theorem evaluate_leaf {text : String} {condition : Condition}
    (h : Condition.ofText text = .ok condition) :
    (leaf text).evaluate mode fields = condition.holds fields := by
  rw [evaluate, h]
  rfl

theorem evaluate_node (connective : Connective) (left right : Expr) :
    (Expr.node connective left right).evaluate mode fields =
      connective.joinOutcomes mode [left.evaluate mode fields, right.evaluate mode fields] := by
  rw [evaluate, Connective.joinOutcomes_pair]
  cases left.evaluate mode fields with
  | error error => rfl
  | ok value =>
    change (if _ then _ else _) = Connective.continueWith _ _ _ _
    rw [Connective.continueWith]
    cases right.evaluate mode fields <;> rfl

theorem evaluate_chain (connective : Connective) {exprs : List Expr} (hne : exprs ≠ []) :
    (Rule.chain connective exprs).evaluate mode fields =
      connective.joinOutcomes mode (exprs.map (evaluate mode fields)) := by
  induction exprs with
  | nil => exact absurd rfl hne
  | cons expr rest ih =>
    by_cases hrest : rest = []
    · subst hrest
      rw [List.map_singleton, Connective.joinOutcomes_singleton, Rule.chain]
    · rw [Rule.chain_cons expr hrest, evaluate_node, ih hrest, List.map_cons,
        Connective.joinOutcomes_pair, Connective.joinOutcomes_cons]

theorem evaluate_foldl_node (connective : Connective) (first : Expr) (others : List Expr) :
    (others.foldl (.node connective) first).evaluate mode fields =
      connective.joinOutcomes mode ((first :: others).map (evaluate mode fields)) := by
  induction others generalizing first with
  | nil => rw [List.map_singleton, Connective.joinOutcomes_singleton, List.foldl_nil]
  | cons next rest ih =>
    -- The first two operands are joined before the others, which is one way to group the row.
    have hgroup := connective.joinOutcomes_append mode
      [first.evaluate mode fields, next.evaluate mode fields] (rest.map (evaluate mode fields))
    rw [List.foldl_cons, ih, List.map_cons, evaluate_node, Connective.joinOutcomes_cons,
      ← Connective.joinOutcomes_pair, ← hgroup]
    rfl

end Expr

namespace Engine

variable {engine : Engine} {rules : List String} {fields : Fields}

theorem map_check {exprs : List Expr} (h : Expr.AreRead engine.config.parse rules exprs) :
    (rules.map fun rule => engine.check rule fields) =
      exprs.map (Expr.evaluate engine.config.evaluation fields) := by
  induction h with
  | nil => rfl
  | cons hread _ ih =>
    rw [List.map_cons, List.map_cons, ih, check, parse, hread]
    rfl

def checks (engine : Engine) (rules : List String) (fields : Fields) : List Outcome :=
  rules.map fun rule => engine.check rule fields

/-- Rules that are combined have the verdict of a plain loop over them. -/
theorem checkAll_eq_conjunction {combined : Option Expr} (hne : rules ≠ [])
    (hcombine : engine.combine rules = .ok combined) (fields : Fields) :
    engine.checkAll rules fields =
      Except.map some
        (match engine.config.evaluation with
        | .shortCircuit =>
          ((engine.checks rules fields).find? fun outcome =>
            !Outcome.isValue true outcome).getD (.ok true)
        | .exhaustive =>
          match (engine.checks rules fields).findSome? RuleError.ofResult? with
          | some error => .error error
          | none => .ok ((engine.checks rules fields).all (Outcome.isValue true))) := by
  obtain ⟨first, others, rfl⟩ := List.exists_cons_of_ne_nil hne
  obtain ⟨expr, exprs, hread, rfl⟩ := Expr.ofRules_eq_ok hcombine
  have hcheckAll : engine.checkAll (first :: others) fields =
      (engine.evaluate (exprs.foldl (.node .and) expr) fields).map some := by
    rw [checkAll, hcombine]
    change (engine.evaluate (exprs.foldl (.node .and) expr) fields).bind _ = _
    cases engine.evaluate (exprs.foldl (.node .and) expr) fields <;> rfl
  have hjoin : engine.evaluate (exprs.foldl (.node .and) expr) fields =
      Connective.and.joinOutcomes engine.config.evaluation
        (engine.checks (first :: others) fields) := by
    rw [evaluate, Expr.evaluate_foldl_node, checks, map_check hread]
  rw [hcheckAll, hjoin]
  cases engine.config.evaluation <;> rfl

/-- The second rule decides: an OR in the first one and the whole third one are passed over. -/
theorem checkAll_stops_at_second :
    let engine : Engine := {}
    let rules := ["age > 30 OR rank > 1", "dept = 'Sales'", "rank > 0"]
    let fields : Fields := fun name =>
      if name = "age" then some (.integer 35)
      else if name = "dept" then some (.text "Legal")
      else none
    engine.checkAll rules fields = .ok (some false) := by
  intro engine rules fields
  have hcombine : engine.combine rules =
      .ok (some (.node .and
        (.node .and (.node .or (.leaf "age > 30") (.leaf "rank > 1")) (.leaf "dept = 'Sales'"))
        (.leaf "rank > 0"))) := by
    simp only [engine, rules, combine, Expr.ofRules, List.foldlM_cons, List.foldlM_nil,
      Expr.joinRule, Expr.depth_eq_height]
    rfl
  rw [checkAll_eq_conjunction (by simp [rules]) hcombine fields]
  rfl

end Engine

namespace Rule

end Rule

end Verdict
