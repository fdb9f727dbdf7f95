import Verdict.Proofs.Conditions
import Verdict.Proofs.Configurations

/-!
# The texts that are conditions

Which texts are conditions, and what they say, can be told without the search for an operator. Only
three operators are ever found, since a text with `>=` or `<=` also has `>` or `<` in it. The one
that governs a text must stand in it once, and none that counts before it may stand in it. Then the
sides of the operator are the field and the literal. Behind `>` and `<` a literal is an integer if it
spells one of 64 bits, with any number of digits, and behind `=` it is what its outer quotes leave.
-/

namespace Verdict

/--
The operator stands once in the text, and no operator that counts before it stands there. The two
operators of two characters govern nothing.
-/
def Operator.Governs : Operator → List Char → Prop
  | .greater, text => text.count '>' = 1
  | .less, text => text.count '>' = 0 ∧ text.count '<' = 1
  | .equal, text => text.count '>' = 0 ∧ text.count '<' = 0 ∧ text.count '=' = 1
  | .greaterEqual, _ | .lessEqual, _ => False

namespace Condition

open Text (Spells)

variable {operator : Operator} {mark : Char} {compacted literal : List Char} {text : String}
  {condition : Condition} {value : Value}

theorem operatorOf?_eq (text : List Char) :
    operatorOf? text =
      if '>' ∈ text then some .greater
      else if '<' ∈ text then some .less
      else if '=' ∈ text then some .equal
      else none := by
  have hlonger (first : Char) (h : first ∉ text) : Text.occurs [first, '='] text = false :=
    Text.occurs_eq_false_of_notMem List.mem_cons_self h
  have hsingle (mark : Char) : Text.occurs [mark] text = decide (mark ∈ text) := by
    rw [Bool.eq_iff_iff, Text.occurs_singleton_iff, decide_eq_true_iff]
  simp only [operatorOf?, Operator.scanOrder, List.find?_cons, List.find?_nil]
  by_cases hgreater : '>' ∈ text
  · simp [Operator.symbol, hsingle, hgreater]
  by_cases hless : '<' ∈ text
  · simp [Operator.symbol, hsingle, hgreater, hless]
  by_cases hequal : '=' ∈ text
  · simp [Operator.symbol, hsingle, hgreater, hless, hlonger, hequal]
  · simp [Operator.symbol, hsingle, hgreater, hless, hlonger, hequal]

theorem governs_iff (hmark : operator.symbol.toList = [mark]) :
    operator.Governs compacted ↔
      operatorOf? compacted = some operator ∧ compacted.count mark = 1 := by
  have hmem (h : compacted.count mark = 1) : mark ∈ compacted :=
    List.count_pos_iff.mp (by omega)
  rw [operatorOf?_eq]
  obtain ⟨rfl, rfl⟩ | ⟨rfl, rfl⟩ | ⟨rfl, rfl⟩ := cases_of_symbol hmark
  · simp only [Operator.Governs]
    grind
  · simp only [Operator.Governs, List.count_eq_zero]
    grind
  · simp only [Operator.Governs, List.count_eq_zero]
    grind

theorem exists_mark_of_governs (h : operator.Governs compacted) :
    ∃ mark, operator.symbol.toList = [mark] := by
  cases operator with
  | greater => exact ⟨'>', rfl⟩
  | less => exact ⟨'<', rfl⟩
  | equal => exact ⟨'=', rfl⟩
  | greaterEqual => exact h.elim
  | lessEqual => exact h.elim

theorem exists_mark_of_operatorOf? (h : operatorOf? compacted = some operator) :
    ∃ mark, operator.symbol.toList = [mark] := by
  rw [operatorOf?_eq] at h
  split at h
  · cases h
    exact ⟨'>', rfl⟩
  split at h
  · cases h
    exact ⟨'<', rfl⟩
  split at h
  · cases h
    exact ⟨'=', rfl⟩
  · cases h

/-- An operator that governs a text stands between two sides of it, which do not have it. -/
theorem governs_append_iff (hmark : operator.symbol.toList = [mark]) {field : List Char}
    (htext : field ++ mark :: literal = compacted) :
    operator.Governs compacted ↔
      operatorOf? compacted = some operator ∧ mark ∉ field ∧ mark ∉ literal := by
  rw [governs_iff hmark, ← htext]
  apply and_congr_right
  intro _
  constructor
  · exact Text.notMem_of_count_eq_one
  · rintro ⟨hfield, hliteral⟩
    exact Text.count_eq_one_of_notMem hfield hliteral

theorem exists_parts_of_governs (h : operator.Governs compacted) :
    ∃ field literal, field ++ operator.symbol.toList ++ literal = compacted := by
  obtain ⟨mark, hmark⟩ := exists_mark_of_governs h
  have hcount := ((governs_iff hmark).mp h).2
  have hmem : mark ∈ compacted := List.count_pos_iff.mp (by omega)
  obtain ⟨field, literal, rfl⟩ := List.append_of_mem hmem
  exact ⟨field, literal, by rw [hmark, List.append_assoc, List.singleton_append]⟩

/-- What a text is taken apart into, told by the operator that governs it. -/
theorem ofText_eq_ok_iff :
    ofText text = .ok condition ↔
      condition.operator.Governs (Text.compact text.toList) ∧
        ∃ literal, condition.field.toList ++ condition.operator.symbol.toList ++ literal =
            Text.compact text.toList ∧
          condition.literal = literalOf condition.operator literal := by
  constructor
  · intro h
    simp only [ofText] at h
    split at h
    · cases h
    rename_i operator hoperator
    split at h
    · rename_i field literal hsplit
      cases h
      obtain ⟨mark, hmark⟩ := exists_mark_of_operatorOf? hoperator
      rw [hmark] at hsplit
      obtain ⟨htext, hsides⟩ := Text.splitAll_singleton_eq_pair_iff.mp hsplit
      refine ⟨(governs_append_iff hmark htext).mpr ⟨hoperator, hsides⟩, literal, ?_, rfl⟩
      rw [String.toList_ofList, hmark, List.append_assoc, List.singleton_append, htext]
    · cases h
  · rintro ⟨hgoverns, literal, htext, hvalue⟩
    obtain ⟨mark, hmark⟩ := exists_mark_of_governs hgoverns
    rw [hmark, List.append_assoc, List.singleton_append] at htext
    obtain ⟨hoperator, hsides⟩ := (governs_append_iff hmark htext).mp hgoverns
    have hsplit := Text.splitAll_singleton_eq_pair_iff.mpr ⟨htext, hsides⟩
    simp only [ofText, hoperator, hmark, hsplit, String.ofList_toList, ← hvalue]

theorem governs_of_isPlain (hmark : operator.symbol.toList = [mark]) {field : List Char}
    (hfield : Text.IsPlain field) (hliteral : Text.IsPlain literal) :
    operator.Governs (field ++ mark :: literal) := by
  have hnone (c : Char) (hc : c ∈ ['>', '<', '=']) : c ∉ field ∧ c ∉ literal :=
    ⟨fun h => (hfield c h).2 hc, fun h => (hliteral c h).2 hc⟩
  have hother (c : Char) (hc : c ∈ ['>', '<', '=']) (hne : c ≠ mark) :
      (field ++ mark :: literal).count c = 0 := by
    rw [List.count_eq_zero]
    simp [hnone c hc, hne]
  have hmarkSides := hnone mark (mem_of_symbol hmark)
  have hone := Text.count_eq_one_of_notMem hmarkSides.1 hmarkSides.2
  obtain ⟨rfl, rfl⟩ | ⟨rfl, rfl⟩ | ⟨rfl, rfl⟩ := cases_of_symbol hmark
  · exact hone
  · exact ⟨hother '>' (by decide) (by decide), hone⟩
  · exact ⟨hother '>' (by decide) (by decide), hother '<' (by decide) (by decide), hone⟩

/-- Between plain sides an operator of one character governs. -/
theorem ofText_of_parts (hmark : operator.symbol.toList = [mark]) {field : List Char}
    (hfield : Text.IsPlain field) (hliteral : Text.IsPlain literal)
    (hcompact : Text.compact text.toList = field ++ mark :: literal) :
    ofText text = .ok ⟨String.ofList field, operator, literalOf operator literal⟩ := by
  rw [ofText_eq_ok_iff, hcompact]
  refine ⟨governs_of_isPlain hmark hfield hliteral, literal, ?_, rfl⟩
  rw [String.toList_ofList, hmark, List.append_assoc, List.singleton_append]

/-- The value is the integer of 64 bits that the literal spells, or else the literal as a text. -/
def IsNumber (literal : List Char) (value : Value) : Prop :=
  (∀ number : Int64, value = .integer number ↔ Spells literal number.toInt) ∧
    ((∀ number : Int64, ¬ Spells literal number.toInt) → value = .text (String.ofList literal))

/-- The value of what stands behind an operator. Behind `=` the quotes around it do not count. -/
def IsLiteral : Operator → List Char → Value → Prop
  | .equal, literal, value =>
    ∃ inner, IsUnquoted inner literal ∧ value = .text (String.ofList inner)
  | _, literal, value => IsNumber literal value

theorem isNumber_iff (hnumeric : operator.isNumeric = true) :
    IsNumber literal value ↔ value = literalOf operator literal := by
  constructor
  · rintro ⟨hinteger, htext⟩
    by_cases hspells : ∃ number : Int64, Spells literal number.toInt
    · obtain ⟨number, hnumber⟩ := hspells
      rw [(hinteger number).mpr hnumber, (literalOf_eq_integer_iff hnumeric).mpr hnumber]
    · rw [not_exists] at hspells
      rw [htext hspells, literalOf_eq_text hnumeric hspells]
  · rintro rfl
    exact ⟨fun number => literalOf_eq_integer_iff hnumeric, literalOf_eq_text hnumeric⟩

theorem isLiteral_iff : IsLiteral operator literal value ↔ value = literalOf operator literal := by
  cases operator with
  | equal =>
    constructor
    · rintro ⟨inner, hinner, rfl⟩
      exact (literalOf_of_isUnquoted hinner).symm
    · rintro rfl
      have hunquoted := isUnquoted_unquote literal
      exact ⟨unquote literal, hunquoted, literalOf_of_isUnquoted hunquoted⟩
  | _ => exact isNumber_iff rfl

/--
A text is a condition just when some operator governs it. Its field and its literal are then the two
sides of this operator.
-/
theorem ofText_eq_ok_iff_grammar (text : String) :
    ((∃ condition, ofText text = .ok condition) ↔
      ∃ operator : Operator, operator.Governs (Text.compact text.toList)) ∧
    (∀ error, ofText text = .error error → error.kind = .malformedRule) ∧
    ∀ condition, ofText text = .ok condition ↔
      condition.operator.Governs (Text.compact text.toList) ∧
        ∃ literal, condition.field.toList ++ condition.operator.symbol.toList ++ literal =
            Text.compact text.toList ∧
          IsLiteral condition.operator literal condition.literal := by
  refine ⟨⟨?_, ?_⟩, onlyMalformed_ofText text, ?_⟩
  · rintro ⟨condition, hcondition⟩
    exact ⟨condition.operator, (ofText_eq_ok_iff.mp hcondition).1⟩
  · rintro ⟨operator, hgoverns⟩
    obtain ⟨field, literal, htext⟩ := exists_parts_of_governs hgoverns
    refine ⟨⟨String.ofList field, operator, literalOf operator literal⟩, ofText_eq_ok_iff.mpr ?_⟩
    exact ⟨hgoverns, literal, by rw [String.toList_ofList, htext], rfl⟩
  · intro condition
    simp only [isLiteral_iff]
    exact ofText_eq_ok_iff

/--
Here `<` belongs to the field, as `>` governs, and the literal is one less than the least integer of
64 bits. With a second `=` a text is not a condition.
-/
theorem ofText_eq_ok_iff_grammar_least :
    ofText " a<b\t> -09223372036854775809" = .ok ⟨"a<b", .greater, .text "-09223372036854775809"⟩ ∧
      (∃ literal, "a<b".toList ++ ">".toList ++ literal = "a<b>-09223372036854775809".toList ∧
        IsLiteral .greater literal (.text "-09223372036854775809")) ∧
      ofText "a<b > -09223372036854775808" = .ok ⟨"a<b", .greater, .integer Int64.minValue⟩ ∧
      ¬ ∃ operator : Operator, operator.Governs (Text.compact "a = = 'b'".toList) := by
  obtain ⟨-, -, hgrammar⟩ := ofText_eq_ok_iff_grammar " a<b\t> -09223372036854775809"
  obtain ⟨haccepted, -, -⟩ := ofText_eq_ok_iff_grammar "a = = 'b'"
  have hcondition : ofText " a<b\t> -09223372036854775809" =
      .ok ⟨"a<b", .greater, .text "-09223372036854775809"⟩ := by
    decide +kernel
  refine ⟨hcondition, ((hgrammar _).mp hcondition).2, by decide +kernel, ?_⟩
  rw [← haccepted]
  rintro ⟨condition, hcondition⟩
  cases hcondition

end Condition

end Verdict
