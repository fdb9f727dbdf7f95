import Verdict.Evaluation

namespace Verdict

abbrev Outcome := Except RuleError Bool

def RuleError.ofResult? {α : Type} : Except RuleError α → Option RuleError
  | .error error => some error
  | .ok _ => none

def Outcome.isValue (value : Bool) : Outcome → Bool
  | .ok actual => actual == value
  | .error _ => false

theorem bind_eq_ok_iff {α β : Type} {first : Except RuleError α}
    {next : α → Except RuleError β} {value : β} :
    first >>= next = .ok value ↔ ∃ result, first = .ok result ∧ next result = .ok value := by
  constructor
  · intro h
    cases first with
    | error error => cases h
    | ok result => exact ⟨result, rfl, h⟩
  · rintro ⟨result, rfl, h⟩
    exact h

theorem bind_eq_error_iff {α β : Type} {first : Except RuleError α}
    {next : α → Except RuleError β} {error : RuleError} :
    first >>= next = .error error ↔
      first = .error error ∨ ∃ result, first = .ok result ∧ next result = .error error := by
  constructor
  · intro h
    cases first with
    | error cause =>
      cases h
      exact .inl rfl
    | ok result => exact .inr ⟨result, rfl, h⟩
  · rintro (rfl | ⟨result, rfl, h⟩)
    · rfl
    · exact h

namespace Connective

def neutral : Connective → Bool
  | .and => true
  | .or => false

/-- The first outcome that is not the neutral value is the outcome of all. -/
def untilSettled (connective : Connective) (outcomes : List Outcome) : Outcome :=
  (outcomes.find? fun outcome => !Outcome.isValue connective.neutral outcome).getD
    (.ok connective.neutral)

def applyAll : Connective → List Outcome → Bool
  | .and, outcomes => outcomes.all (Outcome.isValue true)
  | .or, outcomes => outcomes.any (Outcome.isValue true)

/-- The first error is the outcome of all; without one every truth value counts. -/
def exhaustively (connective : Connective) (outcomes : List Outcome) : Outcome :=
  match outcomes.findSome? RuleError.ofResult? with
  | some error => .error error
  | none => .ok (connective.applyAll outcomes)

/-- The outcome of a connective over operands that are taken from left to right. -/
def joinOutcomes (connective : Connective) : EvaluationMode → List Outcome → Outcome
  | .shortCircuit, outcomes => connective.untilSettled outcomes
  | .exhaustive, outcomes => connective.exhaustively outcomes

theorem isSettledBy_neutral (connective : Connective) :
    connective.isSettledBy connective.neutral = false := by
  cases connective <;> rfl

theorem apply_neutral (connective : Connective) : connective.apply connective.neutral = id :=
  funext fun value => apply_eq_of_not_isSettledBy connective.isSettledBy_neutral value

theorem beq_neutral (connective : Connective) (value : Bool) :
    (value == connective.neutral) = !connective.isSettledBy value := by
  cases connective <;> cases value <;> rfl

theorem eq_neutral (connective : Connective) {value : Bool}
    (h : connective.isSettledBy value = false) : value = connective.neutral := by
  rw [← beq_iff_eq, beq_neutral, h]
  rfl

theorem apply_assoc (connective : Connective) (first second third : Bool) :
    connective.apply (connective.apply first second) third =
      connective.apply first (connective.apply second third) := by
  cases connective
  · exact Bool.and_assoc first second third
  · exact Bool.or_assoc first second third

/-- What an operand with a truth value makes of the outcome of the operands behind it. -/
def continueWith (connective : Connective) (mode : EvaluationMode) (value : Bool)
    (rest : Outcome) : Outcome :=
  if connective.isSettledBy value && mode == .shortCircuit then .ok value
  else rest.map (connective.apply value)

theorem continueWith_neutral (connective : Connective) (mode : EvaluationMode) (rest : Outcome) :
    connective.continueWith mode connective.neutral rest = rest := by
  rw [continueWith, isSettledBy_neutral, apply_neutral]
  cases rest <;> rfl

/-- With truth values on both sides it makes no difference whether the right one is passed over. -/
theorem continueWith_ok (connective : Connective) (mode : EvaluationMode) (left right : Bool) :
    connective.continueWith mode left (.ok right) = .ok (connective.apply left right) := by
  cases hsettled : connective.isSettledBy left && mode == .shortCircuit with
  | false =>
    rw [continueWith, hsettled]
    rfl
  | true =>
    rw [continueWith, hsettled, apply_eq_of_isSettledBy (Bool.and_eq_true_iff.mp hsettled).1]
    rfl

theorem cases_of_continueWith_eq_ok {connective : Connective} {mode : EvaluationMode}
    {left value : Bool} {right : Outcome}
    (h : connective.continueWith mode left right = .ok value) :
    (connective.isSettledBy left = true ∧ left = value) ∨
      ∃ rightValue, right = .ok rightValue ∧ connective.apply left rightValue = value := by
  unfold continueWith at h
  split at h
  · rename_i hsettled
    exact .inl ⟨(Bool.and_eq_true_iff.mp hsettled).1, Except.ok.inj h⟩
  · cases right with
    | error error => cases h
    | ok rightValue => exact .inr ⟨rightValue, rfl, Except.ok.inj h⟩

theorem eq_error_of_continueWith {connective : Connective} {mode : EvaluationMode} {value : Bool}
    {rest : Outcome} {error : RuleError}
    (h : connective.continueWith mode value rest = .error error) : rest = .error error := by
  unfold continueWith at h
  split at h
  · cases h
  · cases rest with
    | error cause => exact h
    | ok restValue => cases h

@[simp]
theorem joinOutcomes_nil (connective : Connective) (mode : EvaluationMode) :
    connective.joinOutcomes mode [] = .ok connective.neutral := by
  cases mode
  · rfl
  · cases connective <;> rfl

theorem joinOutcomes_cons (connective : Connective) (mode : EvaluationMode) (outcome : Outcome)
    (rest : List Outcome) :
    connective.joinOutcomes mode (outcome :: rest) =
      outcome.bind fun value =>
        connective.continueWith mode value (connective.joinOutcomes mode rest) := by
  cases outcome with
  | error error => cases mode <;> rfl
  | ok value =>
    cases mode with
    | shortCircuit =>
      simp only [joinOutcomes, untilSettled, Outcome.isValue, beq_neutral, Except.bind,
        List.find?_cons, Bool.not_not]
      cases hsettled : connective.isSettledBy value with
      | true => simp [continueWith, hsettled]
      | false => rw [connective.eq_neutral hsettled, continueWith_neutral]
    | exhaustive =>
      simp only [joinOutcomes, exhaustively, RuleError.ofResult?, List.findSome?_cons, Except.bind,
        continueWith]
      cases List.findSome? RuleError.ofResult? rest with
      | some error => simp [Except.map]
      | none =>
        cases connective <;> cases value <;> simp [Except.map, applyAll, apply, Outcome.isValue]

@[simp]
theorem joinOutcomes_singleton (connective : Connective) (mode : EvaluationMode)
    (outcome : Outcome) : connective.joinOutcomes mode [outcome] = outcome := by
  rw [joinOutcomes_cons, joinOutcomes_nil]
  cases outcome with
  | error error => rfl
  | ok value => cases connective <;> cases mode <;> cases value <;> rfl

theorem joinOutcomes_pair (connective : Connective) (mode : EvaluationMode)
    (first second : Outcome) :
    connective.joinOutcomes mode [first, second] =
      first.bind fun value => connective.continueWith mode value second := by
  rw [joinOutcomes_cons, joinOutcomes_singleton]

theorem continueWith_bind (connective : Connective) (mode : EvaluationMode) (value : Bool)
    (first second : Outcome) :
    connective.continueWith mode value
        (first.bind fun next => connective.continueWith mode next second) =
      (connective.continueWith mode value first).bind fun next =>
        connective.continueWith mode next second := by
  cases hsettled : connective.isSettledBy value with
  | false => rw [connective.eq_neutral hsettled, continueWith_neutral, continueWith_neutral]
  | true =>
    cases mode with
    | shortCircuit => simp [continueWith, hsettled, Except.bind]
    | exhaustive =>
      cases first with
      | error error => simp [continueWith, Except.bind, Except.map]
      | ok next =>
        cases second with
        | error error => simp [continueWith, Except.bind, Except.map]
        | ok last => simp [continueWith, Except.bind, Except.map, apply_assoc]

theorem joinOutcomes_append (connective : Connective) (mode : EvaluationMode)
    (first second : List Outcome) :
    connective.joinOutcomes mode (first ++ second) =
      connective.joinOutcomes mode
        [connective.joinOutcomes mode first, connective.joinOutcomes mode second] := by
  rw [joinOutcomes_pair]
  induction first with
  | nil =>
    rw [List.nil_append, joinOutcomes_nil]
    exact (connective.continueWith_neutral mode _).symm
  | cons outcome rest ih =>
    rw [List.cons_append, joinOutcomes_cons, joinOutcomes_cons, ih]
    cases outcome with
    | error error => rfl
    | ok value => exact connective.continueWith_bind mode value _ _

theorem joinOutcomes_assoc (connective : Connective) (mode : EvaluationMode)
    (first second third : Outcome) :
    connective.joinOutcomes mode [connective.joinOutcomes mode [first, second], third] =
      connective.joinOutcomes mode [first, connective.joinOutcomes mode [second, third]] := by
  have hleft := connective.joinOutcomes_append mode [first, second] [third]
  have hright := connective.joinOutcomes_append mode [first] [second, third]
  rw [joinOutcomes_singleton] at hleft hright
  exact hleft.symm.trans hright

theorem joinOutcomes_flatten (connective : Connective) (mode : EvaluationMode)
    (rows : List (List Outcome)) :
    connective.joinOutcomes mode rows.flatten =
      connective.joinOutcomes mode (rows.map (connective.joinOutcomes mode)) := by
  induction rows with
  | nil => rfl
  | cons row rest ih =>
    rw [List.flatten_cons, joinOutcomes_append, joinOutcomes_pair, ih, List.map_cons,
      joinOutcomes_cons]

theorem ofResult?_exhaustively (connective : Connective) (outcomes : List Outcome) :
    RuleError.ofResult? (connective.exhaustively outcomes) =
      outcomes.findSome? RuleError.ofResult? := by
  rw [exhaustively]
  split <;> simp [RuleError.ofResult?, *]

end Connective

end Verdict
