import Mathlib.Logic.Relation
import Verdict.Proofs.RuleVerdict

/-!
# Rearranged trees

The operands of a node may change places, and a row of equal connectives may be grouped in another
way. Evaluation then comes to other leaves first and may skip others, so an error can appear or
disappear. A truth value cannot turn into the other one. What stands behind this is a verdict of the
tree that knows no order: an operand that settles its connective counts on either side, and an
operand with an error is just not known. Every evaluation that gives a truth value gives this
verdict.

Where the operands keep their places and are only grouped in another way, nothing changes at all.
The leaves are the same in the same order, and so is the outcome, an error included.
-/

namespace Verdict

namespace Connective

/-- The value of two operands of which some may not be known, if it can be told. -/
def applyKnown (connective : Connective) : Option Bool → Option Bool → Option Bool
  | some left, some right => some (connective.apply left right)
  | some value, none | none, some value =>
    if connective.isSettledBy value then some value else none
  | none, none => none

theorem applyKnown_comm (connective : Connective) (left right : Option Bool) :
    connective.applyKnown left right = connective.applyKnown right left := by
  obtain _ | left := left
  · cases right <;> rfl
  obtain _ | right := right
  · rfl
  · cases connective <;> cases left <;> cases right <;> rfl

theorem applyKnown_assoc (connective : Connective) (first second third : Option Bool) :
    connective.applyKnown (connective.applyKnown first second) third =
      connective.applyKnown first (connective.applyKnown second third) := by
  cases connective <;> obtain _ | _ | _ := first <;> obtain _ | _ | _ := second <;>
    obtain _ | _ | _ := third <;> rfl

theorem applyKnown_of_isSettledBy {connective : Connective} {value : Bool}
    (h : connective.isSettledBy value = true) (right : Option Bool) :
    connective.applyKnown (some value) right = some value := by
  cases right with
  | none => exact if_pos h
  | some right => exact congrArg some (apply_eq_of_isSettledBy h right)

theorem applyKnown_of_continueWith {connective : Connective} {mode : EvaluationMode}
    {left value : Bool} {right : Outcome} {known : Option Bool}
    (h : connective.continueWith mode left right = .ok value)
    (hknown : ∀ rightValue, right = .ok rightValue → known = some rightValue) :
    connective.applyKnown (some left) known = some value := by
  obtain ⟨hsettled, rfl⟩ | ⟨rightValue, hright, rfl⟩ := cases_of_continueWith_eq_ok h
  · exact applyKnown_of_isSettledBy hsettled known
  · rw [hknown rightValue hright]
    rfl

end Connective

namespace Expr

def verdict? (fields : Fields) : Expr → Option Bool
  | .leaf text => ((leaf text).evaluate .shortCircuit fields).toOption
  | .node connective left right =>
    connective.applyKnown (left.verdict? fields) (right.verdict? fields)

theorem verdict?_of_evaluate {expr : Expr} {mode : EvaluationMode} {fields : Fields} {value : Bool}
    (h : expr.evaluate mode fields = .ok value) : expr.verdict? fields = some value := by
  induction expr generalizing value with
  | leaf text =>
    have hleaf : (leaf text).evaluate .shortCircuit fields = .ok value := h
    rw [verdict?, hleaf]
    rfl
  | node connective left right ihLeft ihRight =>
    rw [evaluate_node, Connective.joinOutcomes_pair] at h
    obtain ⟨leftValue, hleft, hright⟩ := bind_eq_ok_iff.mp h
    rw [verdict?, ihLeft hleft]
    exact Connective.applyKnown_of_continueWith hright fun rightValue => ihRight

/-- A move at the root that groups three operands of one connective in the other way. -/
inductive Regrouped : Expr → Expr → Prop where
  | toRight (connective : Connective) (first second third : Expr) :
      Regrouped (.node connective (.node connective first second) third)
        (.node connective first (.node connective second third))
  | toLeft (connective : Connective) (first second third : Expr) :
      Regrouped (.node connective first (.node connective second third))
        (.node connective (.node connective first second) third)

/-- A move at the root that exchanges the two operands. -/
inductive Exchanged : Expr → Expr → Prop where
  | swap (connective : Connective) (left right : Expr) :
      Exchanged (.node connective left right) (.node connective right left)

/-- A move at any one node of a tree. -/
inductive Moved (move : Expr → Expr → Prop) : Expr → Expr → Prop where
  | root {expr next : Expr} (h : move expr next) : Moved move expr next
  | left {expr next : Expr} (connective : Connective) (right : Expr) (h : Moved move expr next) :
      Moved move (.node connective expr right) (.node connective next right)
  | right {expr next : Expr} (connective : Connective) (left : Expr) (h : Moved move expr next) :
      Moved move (.node connective left expr) (.node connective left next)

/-- Any number of exchanges and regroupings, one after the other. -/
def Rearranged : Expr → Expr → Prop :=
  Relation.ReflTransGen (Moved fun expr next => Regrouped expr next ∨ Exchanged expr next)

section Views

variable {α : Type} {view : Expr → α} {move : Expr → Expr → Prop} {expr next other : Expr}
  (hnode : ∀ connective left nextLeft right nextRight, view left = view nextLeft →
    view right = view nextRight →
    view (.node connective left right) = view (.node connective nextLeft nextRight))
  (hmove : ∀ expr next, move expr next → view expr = view next)

include hnode hmove

theorem view_eq_of_moved (h : Moved move expr next) : view expr = view next := by
  induction h with
  | root h => exact hmove _ _ h
  | left connective right _ ih => exact hnode _ _ _ _ _ ih rfl
  | right connective left _ ih => exact hnode _ _ _ _ _ rfl ih

/-- What a move at the root keeps, any number of moves keep, if it is made up from the operands. -/
theorem view_eq_of_moves (h : Relation.ReflTransGen (Moved move) expr other) :
    view expr = view other := by
  induction h with
  | refl => rfl
  | tail _ h ih => exact ih.trans (view_eq_of_moved hnode hmove h)

end Views

theorem verdict?_of_regrouped {fields : Fields} {expr next : Expr} (h : Regrouped expr next) :
    expr.verdict? fields = next.verdict? fields := by
  cases h with
  | toRight connective first second third => exact connective.applyKnown_assoc _ _ _
  | toLeft connective first second third => exact (connective.applyKnown_assoc _ _ _).symm

theorem verdict?_of_exchanged {fields : Fields} {expr next : Expr} (h : Exchanged expr next) :
    expr.verdict? fields = next.verdict? fields := by
  cases h with
  | swap connective left right => exact connective.applyKnown_comm _ _

theorem verdict?_of_rearranged {expr other : Expr} (h : Rearranged expr other) (fields : Fields) :
    expr.verdict? fields = other.verdict? fields := by
  apply view_eq_of_moves _ _ h
  · intro connective left nextLeft right nextRight hleft hright
    rw [verdict?, verdict?, hleft, hright]
  · rintro expr next (hregrouped | hexchanged)
    · exact verdict?_of_regrouped hregrouped
    · exact verdict?_of_exchanged hexchanged

/-- Neither an order of the operands nor a mode can turn a truth value into the other one. -/
theorem evaluate_eq_of_rearranged {expr other : Expr} (h : Rearranged expr other) {fields : Fields}
    {mode otherMode : EvaluationMode} {value otherValue : Bool}
    (hvalue : expr.evaluate mode fields = .ok value)
    (hother : other.evaluate otherMode fields = .ok otherValue) : value = otherValue := by
  have hverdict := verdict?_of_rearranged h fields
  rw [verdict?_of_evaluate hvalue, verdict?_of_evaluate hother] at hverdict
  exact Option.some.inj hverdict

/-- Both runs pass over the missing field, the first one after one leaf, the other after two. -/
theorem evaluate_eq_of_rearranged_three :
    let expr : Expr := .node .and (.node .and (.leaf "a > 1") (.leaf "b > 1")) (.leaf "c > 1")
    let other : Expr := .node .and (.node .and (.leaf "c > 1") (.leaf "a > 1")) (.leaf "b > 1")
    let fields : Fields := fun name =>
      if name = "a" then some (.integer 0)
      else if name = "c" then some (.integer 5)
      else none
    Rearranged expr other ∧
      expr.evaluate .shortCircuit fields = .ok false ∧
      other.evaluate .shortCircuit fields = .ok false ∧
      other.evaluate .exhaustive fields = .error (.unknownField "b") := by
  intro expr other fields
  have hmoves : Rearranged expr other := by
    -- a, (b, c), then a, (c, b), then (a, c), b, and at last (c, a), b.
    refine Relation.ReflTransGen.head (.root (.inl (.toRight ..))) ?_
    refine Relation.ReflTransGen.head (.right _ _ (.root (.inr (.swap ..)))) ?_
    refine Relation.ReflTransGen.head (.root (.inl (.toLeft ..))) ?_
    exact Relation.ReflTransGen.single (.left _ _ (.root (.inr (.swap ..))))
  have hvalue : expr.evaluate .shortCircuit fields = .ok false := rfl
  obtain ⟨otherValue, hother⟩ : ∃ value, other.evaluate .shortCircuit fields = .ok value :=
    ⟨_, rfl⟩
  rw [← evaluate_eq_of_rearranged hmoves hvalue hother] at hother
  exact ⟨hmoves, hvalue, hother, rfl⟩

/-- Any number of regroupings, one after the other. -/
def Reassociated : Expr → Expr → Prop :=
  Relation.ReflTransGen (Moved Regrouped)

theorem fringe_of_regrouped {expr next : Expr} (h : Regrouped expr next) :
    expr.fringe = next.fringe := by
  cases h with
  | toRight connective first second third => exact List.append_assoc _ _ _
  | toLeft connective first second third => exact (List.append_assoc _ _ _).symm

theorem evaluate_of_regrouped {expr next : Expr} (h : Regrouped expr next) (mode : EvaluationMode)
    (fields : Fields) : expr.evaluate mode fields = next.evaluate mode fields := by
  cases h with
  | toRight connective first second third =>
    simp only [evaluate_node]
    exact connective.joinOutcomes_assoc mode _ _ _
  | toLeft connective first second third =>
    simp only [evaluate_node]
    exact (connective.joinOutcomes_assoc mode _ _ _).symm

/-- Trees that differ only in how equal connectives are grouped cannot be told apart by a run. -/
theorem evaluate_of_reassociated {expr other : Expr} (h : Reassociated expr other) :
    expr.leaves = other.leaves ∧
      ∀ mode fields, expr.evaluate mode fields = other.evaluate mode fields := by
  constructor
  · rw [leaves_eq_fringe, leaves_eq_fringe]
    apply view_eq_of_moves _ _ h
    · intro connective left nextLeft right nextRight hleft hright
      rw [fringe, fringe, hleft, hright]
    · intro expr next hmove
      exact fringe_of_regrouped hmove
  · intro mode fields
    apply view_eq_of_moves _ _ h
    · intro connective left nextLeft right nextRight hleft hright
      rw [evaluate_node, evaluate_node, hleft, hright]
    · intro expr next hmove
      exact evaluate_of_regrouped hmove mode fields

/--
A row of AND is regrouped inside an operand of OR, and then the row of OR around it. One mode passes
over the missing field `d` with the whole first clause, and the other one stops there.
-/
theorem evaluate_of_reassociated_rows :
    let expr : Expr :=
      .node .or (.node .and (.leaf "a > 1") (.node .and (.leaf "d > 1") (.leaf "a < 9")))
        (.node .or (.leaf "b > 1") (.leaf "c"))
    let other : Expr :=
      .node .or (.node .or (.node .and (.node .and (.leaf "a > 1") (.leaf "d > 1"))
        (.leaf "a < 9")) (.leaf "b > 1")) (.leaf "c")
    let fields : Fields := fun name =>
      if name = "a" then some (.integer 0)
      else if name = "b" then some (.integer 1)
      else none
    Reassociated expr other ∧
      other.leaves = ["a > 1", "d > 1", "a < 9", "b > 1", "c"] ∧
      other.evaluate .shortCircuit fields = .error (.noOperator "c") ∧
      other.evaluate .exhaustive fields = .error (.unknownField "d") := by
  intro expr other fields
  have hmoves : Reassociated expr other := by
    refine Relation.ReflTransGen.head (.left _ _ (.root (.toLeft ..))) ?_
    exact Relation.ReflTransGen.single (.root (.toLeft ..))
  obtain ⟨hleaves, hevaluate⟩ := evaluate_of_reassociated hmoves
  refine ⟨hmoves, ?_, ?_, ?_⟩
  · rw [← hleaves, leaves_eq_fringe]
    rfl
  · rw [← hevaluate]
    rfl
  · rw [← hevaluate]
    rfl

end Expr

end Verdict
