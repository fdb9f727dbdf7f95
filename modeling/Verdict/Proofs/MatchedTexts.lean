import Verdict.Proofs.SingleConditions
import Verdict.Record

namespace Verdict

open Text (IsPlain)

namespace Condition

variable {condition : Condition} {fields : Fields} {mode : EvaluationMode}
  {text field value : String}

/-- A plain text without a quote at either end, which a literal of `=` can be equal to. -/
def IsMatchable (text : String) : Prop :=
  IsPlain text.toList ∧ text.toList.head? ≠ some '\'' ∧ text.toList.getLast? ≠ some '\''

instance (text : String) : Decidable (IsMatchable text) :=
  inferInstanceAs (Decidable (_ ∧ _ ∧ _))

theorem holdsFor_text_eq_true_iff :
    condition.holdsFor (.text value) = .ok true ↔
      condition.operator = .equal ∧ condition.literal = .text value := by
  obtain ⟨field, operator, literal⟩ := condition
  cases operator with
  | equal =>
    cases literal with
    | integer number => simp [holdsFor]
    | text expected => simpa [holdsFor] using eq_comm
  | _ => cases literal <;> simp [holdsFor]

/-- Both sides of an `=` that governs a compacted text are plain. -/
theorem isPlain_of_governs_equal {field literal : List Char}
    (hgoverns : Operator.equal.Governs (Text.compact text.toList))
    (htext : field ++ '=' :: literal = Text.compact text.toList) : IsPlain (field ++ literal) := by
  obtain ⟨hgreater, hless, hequal⟩ := hgoverns
  intro c hc
  have hmem : c ∈ Text.compact text.toList := by
    rw [← htext, List.mem_append, List.mem_cons]
    exact (List.mem_append.mp hc).imp_right .inr
  refine ⟨((Text.mem_compact_iff c text.toList).mp hmem).2, ?_⟩
  intro hoperator
  simp only [List.mem_cons, List.not_mem_nil, or_false] at hoperator
  obtain rfl | rfl | rfl := hoperator
  · exact List.count_eq_zero.mp hgreater hmem
  · exact List.count_eq_zero.mp hless hmem
  · rw [← htext] at hequal
    obtain ⟨hfield, hliteral⟩ := Text.notMem_of_count_eq_one hequal
    exact (List.mem_append.mp hc).elim hfield hliteral

theorem isMatchable_of_isUnquoted {inner literal : List Char} (hplain : IsPlain literal)
    (h : IsUnquoted inner literal) : IsMatchable (String.ofList inner) := by
  obtain ⟨opening, closing, rfl, -, hends⟩ := h
  rw [IsMatchable, String.toList_ofList]
  exact ⟨fun c hc => hplain c (by simp [hc]), hends⟩

theorem isMatchable_of_holdsFor (hcondition : ofText text = .ok condition)
    (hholds : condition.holdsFor (.text value) = .ok true) :
    IsPlain condition.field.toList ∧ IsMatchable value := by
  obtain ⟨hoperator, hvalue⟩ := holdsFor_text_eq_true_iff.mp hholds
  obtain ⟨hgoverns, literal, htext, hliteral⟩ := ofText_eq_ok_iff.mp hcondition
  rw [hvalue, hoperator, ← isLiteral_iff] at hliteral
  obtain ⟨inner, hunquoted, hinner⟩ := hliteral
  rw [hoperator] at hgoverns htext
  have hmark : Operator.equal.symbol.toList = ['='] := rfl
  rw [hmark, List.append_assoc, List.singleton_append] at htext
  obtain ⟨hfield, hplain⟩ :=
    List.forall_mem_append.mp (isPlain_of_governs_equal hgoverns htext)
  rw [Value.text.inj hinner]
  exact ⟨hfield, isMatchable_of_isUnquoted hplain hunquoted⟩

theorem holds_eq_ok_iff {result : Bool} :
    condition.holds fields = .ok result ↔
      ∃ actual, fields condition.field = some actual ∧ condition.holdsFor actual = .ok result := by
  rw [holds]
  cases fields condition.field <;> simp

theorem evaluate_leaf_eq_ok_iff {result : Bool} :
    (Expr.leaf text).evaluate mode fields = .ok result ↔
      ∃ condition actual, ofText text = .ok condition ∧ fields condition.field = some actual ∧
        condition.holdsFor actual = .ok result := by
  constructor
  · intro h
    rw [Expr.evaluate] at h
    obtain ⟨condition, hcondition, hholds⟩ := bind_eq_ok_iff.mp h
    obtain ⟨actual, hactual, hholdsFor⟩ := holds_eq_ok_iff.mp hholds
    exact ⟨condition, actual, hcondition, hactual, hholdsFor⟩
  · rintro ⟨condition, actual, hcondition, hactual, hholdsFor⟩
    rw [Expr.evaluate_leaf mode fields hcondition]
    exact holds_eq_ok_iff.mpr ⟨actual, hactual, hholdsFor⟩

/-- The condition without blanks in which a text stands behind `=` as it is. -/
theorem exists_ofText_of_isMatchable (hfield : IsPlain field.toList) (hvalue : IsMatchable value) :
    ∃ text : String,
      ofText (String.ofList (Text.trim text.toList)) = .ok ⟨field, .equal, .text value⟩ := by
  obtain ⟨hplain, hends⟩ := hvalue
  have hmark : Operator.equal.symbol.toList = ['='] := rfl
  have hunquoted : IsUnquoted value.toList value.toList :=
    ⟨[], [], (List.append_nil _).symm, nofun, hends⟩
  let blanks : Text.Blanks := ⟨"", rfl⟩
  have hread := ofText_written ⟨blanks, blanks, blanks, blanks⟩ hmark hfield hplain
  rw [literalOf_of_isUnquoted hunquoted, String.ofList_toList] at hread
  exact ⟨_, hread⟩

/--
A text in a field can be matched just when the field is plain and the text is plain and has no quote
at its ends. No condition at all holds for a text that is not so, whatever other fields there are.
-/
theorem exists_matching_condition_iff (mode : EvaluationMode) (field value : String) :
    ((∃ text : String, (Expr.comparison text.toList).evaluate mode
        (Record.ofList [(field, .text value)]).get? = .ok true) ↔
      IsPlain field.toList ∧ IsMatchable value) ∧
    ∀ (fields : Fields) (text : String) (condition : Condition), ofText text = .ok condition →
      fields condition.field = some (.text value) →
      (Expr.leaf text).evaluate mode fields = .ok true → IsMatchable value := by
  refine ⟨⟨?_, ?_⟩, ?_⟩
  · rintro ⟨text, h⟩
    obtain ⟨condition, actual, hcondition, hactual, hholds⟩ := evaluate_leaf_eq_ok_iff.mp h
    rw [Record.get?_ofList_singleton, Option.ite_none_right_eq_some] at hactual
    obtain ⟨hname, hvalue⟩ := hactual
    cases hvalue
    rw [hname]
    exact isMatchable_of_holdsFor hcondition hholds
  · rintro ⟨hfield, hvalue⟩
    obtain ⟨text, hcondition⟩ := exists_ofText_of_isMatchable hfield hvalue
    refine ⟨text, evaluate_leaf_eq_ok_iff.mpr ⟨_, .text value, hcondition, ?_, ?_⟩⟩
    · rw [Record.get?_ofList_singleton, if_pos rfl]
    · exact holdsFor_text_eq_true_iff.mpr ⟨rfl, rfl⟩
  · intro fields text condition hcondition hfield h
    obtain ⟨other, actual, hother, hactual, hholds⟩ := evaluate_leaf_eq_ok_iff.mp h
    rw [hcondition] at hother
    cases hother
    rw [hfield] at hactual
    cases hactual
    exact (isMatchable_of_holdsFor hcondition hholds).2

/-- A quote inside a text does no harm, and a field may have no name. A space cannot be matched. -/
theorem exists_matching_condition_iff_inner_quote :
    (∃ text : String, (Expr.comparison text.toList).evaluate .shortCircuit
        (Record.ofList [("", .text "it's")]).get? = .ok true) ∧
      (¬ ∃ text : String, (Expr.comparison text.toList).evaluate .exhaustive
        (Record.ofList [("team", .text "North East")]).get? = .ok true) ∧
      (Expr.leaf " team = ''it's' ").evaluate .exhaustive (fun _ => some (.text "it's")) = .ok true ∧
      IsMatchable "it's" := by
  obtain ⟨-, hmatched⟩ := exists_matching_condition_iff .exhaustive "team" "it's"
  obtain ⟨hunnamed, -⟩ := exists_matching_condition_iff .shortCircuit "" "it's"
  obtain ⟨hspaced, -⟩ := exists_matching_condition_iff .exhaustive "team" "North East"
  have hcondition : ofText " team = ''it's' " = .ok ⟨"team", .equal, .text "it's"⟩ := by
    decide +kernel
  have hholds : (Expr.leaf " team = ''it's' ").evaluate .exhaustive
      (fun _ => some (.text "it's")) = .ok true :=
    evaluate_leaf_eq_ok_iff.mpr ⟨_, .text "it's", hcondition, rfl, rfl⟩
  refine ⟨hunnamed.mpr (by decide), ?_, hholds, hmatched _ _ _ hcondition rfl hholds⟩
  rw [hspaced]
  decide

end Condition

end Verdict
