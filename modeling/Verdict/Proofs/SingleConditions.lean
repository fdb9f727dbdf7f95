import Verdict.Proofs.ConditionGrammar
import Verdict.Proofs.RuleReading
import Verdict.Proofs.Words

namespace Verdict

open Text (IsPlain Spells)

/-- A text of blanks. -/
def Text.Blanks : Type :=
  { text : String // text.toList.all isBlank = true }

namespace Condition

/-- The blanks around the three parts of a condition. -/
structure Spacing where
  beforeField : Text.Blanks
  beforeOperator : Text.Blanks
  beforeLiteral : Text.Blanks
  afterLiteral : Text.Blanks

/-- A condition with blanks around its parts. -/
def written (spacing : Spacing) (field symbol literal : String) : String :=
  spacing.beforeField.val ++ field ++ spacing.beforeOperator.val ++ symbol ++
    spacing.beforeLiteral.val ++ literal ++ spacing.afterLiteral.val

/-- A part of a condition that blanks leave as it is: plain, and not the keyword of a connective. -/
structure IsPart (part : String) : Prop where
  isPlain : IsPlain part.toList
  ne_keyword : ∀ connective : Connective, part ≠ connective.keyword

variable {spacing : Spacing} {operator : Operator} {mark : Char} {part field literal : String}
  {connective : Connective}

theorem written_toList (spacing : Spacing) (field literal : String)
    (hmark : operator.symbol.toList = [mark]) :
    (written spacing field operator.symbol literal).toList =
      spacing.beforeField.val.toList ++ (field.toList ++ spacing.beforeOperator.val.toList) ++
        mark :: (spacing.beforeLiteral.val.toList ++
          (literal.toList ++ spacing.afterLiteral.val.toList)) := by
  simp [written, hmark]

theorem compact_written (spacing : Spacing) (hmark : operator.symbol.toList = [mark])
    (hfield : IsPlain field.toList) (hliteral : IsPlain literal.toList) :
    Text.compact (written spacing field operator.symbol literal).toList =
      field.toList ++ mark :: literal.toList := by
  have hblanks (blanks : Text.Blanks) : Text.compact blanks.val.toList = [] :=
    Text.compact_of_blank (List.all_eq_true.mp blanks.property)
  have hkept (rest : List Char) : Text.compact (mark :: rest) = mark :: Text.compact rest := by
    rw [← List.singleton_append, Text.compact_append, ← hmark, compact_symbol, hmark,
      List.singleton_append]
  rw [written_toList _ _ _ hmark]
  simp only [Text.compact_append, hblanks, hkept, Text.compact_of_isPlain hfield,
    Text.compact_of_isPlain hliteral, List.nil_append, List.append_nil]

theorem notMem_keyword_of_blanks (blanks : Text.Blanks) (connective : Connective) :
    ∀ c ∈ blanks.val.toList, c ∉ connective.keyword.toList := by
  intro c hc hkeyword
  have hblank := List.all_eq_true.mp blanks.property c hc
  rw [Connective.isBlank_of_mem_keyword hkeyword] at hblank
  cases hblank

theorem not_standsIn_part (before after : Text.Blanks) (hpart : IsPart part)
    (connective : Connective) :
    ¬ Text.StandsIn connective.keyword.toList
      (before.val.toList ++ (part.toList ++ after.val.toList)) := by
  intro h
  have hpadded := Text.standsIn_of_padding_append connective.keyword_ne_nil
    (notMem_keyword_of_blanks before connective) h
  have hstands := Text.standsIn_of_append_padding connective.keyword_ne_nil
    (notMem_keyword_of_blanks after connective) hpadded
  have hspace : ' ' ∉ part.toList := fun hmem => absurd (hpart.isPlain ' ' hmem).1 (by decide)
  exact hpart.ne_keyword connective (String.toList_injective (Text.eq_of_standsIn hspace hstands))

theorem occurs_written (spacing : Spacing) (hmark : operator.symbol.toList = [mark])
    (hfield : IsPart field) (hliteral : IsPart literal) (connective : Connective) :
    Text.occurs connective.separator.toList
      (written spacing field operator.symbol literal).toList = false := by
  have hkeyword : mark ∉ connective.keyword.toList := by
    have hall : connective.keyword.toList.all (fun c => decide (c ∉ ['>', '<', '='])) = true := by
      cases connective <;> decide
    intro h
    exact of_decide_eq_true (List.all_eq_true.mp hall mark h) (mem_of_symbol hmark)
  rw [Connective.separator_toList, written_toList _ _ _ hmark]
  apply Text.occurs_of_not_standsIn
  intro h
  obtain hleft | hright := Text.standsIn_left_or_right hkeyword h
  · exact not_standsIn_part spacing.beforeField spacing.beforeOperator hfield connective hleft
  · exact not_standsIn_part spacing.beforeLiteral spacing.afterLiteral hliteral connective hright

theorem written_not_blank (spacing : Spacing) (hmark : operator.symbol.toList = [mark])
    (hfield : IsPlain field.toList) (hliteral : IsPlain literal.toList) :
    (written spacing field operator.symbol literal).toList.all Text.isBlank = false := by
  rw [← Bool.not_eq_true, List.all_eq_true]
  intro hblank
  have hcompact := compact_written spacing hmark hfield hliteral
  rw [Text.compact_of_blank hblank] at hcompact
  simp at hcompact

theorem ofText_written (spacing : Spacing) (hmark : operator.symbol.toList = [mark])
    (hfield : IsPlain field.toList) (hliteral : IsPlain literal.toList) :
    ofText (String.ofList (Text.trim (written spacing field operator.symbol literal).toList)) =
      .ok ⟨field, operator, literalOf operator literal.toList⟩ := by
  have hcompact := compact_written spacing hmark hfield hliteral
  rw [← Text.compact_trim, ← String.toList_ofList (l := Text.trim _)] at hcompact
  rw [ofText_of_parts hmark hfield hliteral hcompact, String.ofList_toList]

end Condition

/-- The rule is read to a tree that looks one field up and has the outcome of its value. -/
def Expr.Decides (options : ParseOptions) (rule field : String) (outcome : Value → Outcome) :
    Prop :=
  ∃ expr, ofRule options rule = .ok expr ∧
    ∀ mode fields, expr.evaluate mode fields =
      match fields field with
      | none => .error (.unknownField field)
      | some value => outcome value

namespace Condition

/-- The outcome of a test of integers. -/
def integerOutcome (field : String) (test : Int64 → Prop) [DecidablePred test] : Value → Outcome
  | .integer actual => .ok (decide (test actual))
  | .text _ => .error (.valueNotInteger field)

/-- The outcome of a comparison with a text. An integer equals no text. -/
def textOutcome (expected : String) : Value → Outcome
  | .integer _ => .ok false
  | .text actual => .ok (decide (actual = expected))

variable {options : ParseOptions} {operator : Operator} {mark : Char} {field literal : String}
  {text : String} {number : Int64}

theorem decides_written (hlimit : 0 < options.maxDepth.toNat) (spacing : Spacing)
    (hmark : operator.symbol.toList = [mark]) (hfield : IsPart field) (hliteral : IsPart literal) :
    Expr.Decides options (written spacing field operator.symbol literal) field
      (holdsFor ⟨field, operator, literalOf operator literal.toList⟩) := by
  have hcondition := ofText_written spacing hmark hfield.isPlain hliteral.isPlain
  refine ⟨_, Expr.ofRule_eq_comparison (occurs_written spacing hmark hfield hliteral)
    (written_not_blank spacing hmark hfield.isPlain hliteral.isPlain) hlimit ?_, ?_⟩
  · apply Expr.checkLeaves_of_firstFault?
    rw [Expr.comparison, Expr.firstFault?, Expr.fringe, List.findSome?_singleton, hcondition]
    rfl
  · intro mode fields
    rw [Expr.comparison, Expr.evaluate, hcondition]
    rfl

theorem isPart_of_spells {number : Int} (h : Spells literal.toList number) : IsPart literal where
  isPlain := Text.isPlain_of_spells h
  ne_keyword := by
    rintro connective rfl
    have hread := Text.integer?_of_spells h
    cases connective <;> cases hread

theorem quoted_toList (text : String) :
    ("'" ++ text ++ "'").toList = '\'' :: (text.toList ++ ['\'']) := by
  rw [String.toList_append, String.toList_append]
  rfl

theorem isPart_quoted (h : IsPlain text.toList) : IsPart ("'" ++ text ++ "'") where
  isPlain := by
    have hquote : Text.isBlank '\'' = false ∧ '\'' ∉ ['>', '<', '='] := by decide
    rw [quoted_toList]
    apply Text.isPlain_cons hquote
    intro c hc
    obtain hinside | hend := List.mem_append.mp hc
    · exact h c hinside
    · rw [List.mem_singleton.mp hend]
      exact hquote
  ne_keyword := by
    intro connective heq
    have hhead := congrArg (fun part => part.toList.head?) heq
    rw [quoted_toList] at hhead
    cases connective <;> cases hhead

theorem holdsFor_integer {test : Int64 → Prop} [DecidablePred test]
    (hnumeric : operator.isNumeric = true)
    (htest : ∀ actual, operator.compareIntegers actual number = decide (test actual)) :
    holdsFor ⟨field, operator, .integer number⟩ = integerOutcome field test := by
  funext value
  cases operator with
  | equal => cases hnumeric
  | _ =>
    cases value with
    | text _ => rfl
    | integer actual => exact congrArg Except.ok (htest actual)

theorem holdsFor_equal : holdsFor ⟨field, .equal, .text text⟩ = textOutcome text := by
  funext value
  cases value with
  | integer _ => rfl
  | text actual => simp only [holdsFor, textOutcome, beq_eq_decide]

/-- An integer literal may be spelled in any way. -/
theorem decides_of_spells {test : Int64 → Prop} [DecidablePred test]
    (hlimit : 0 < options.maxDepth.toNat) (spacing : Spacing)
    (hmark : operator.symbol.toList = [mark]) (hnumeric : operator.isNumeric = true)
    (hfield : IsPart field) (hspells : Spells literal.toList number.toInt)
    (htest : ∀ actual, operator.compareIntegers actual number = decide (test actual)) :
    Expr.Decides options (written spacing field operator.symbol literal) field
      (integerOutcome field test) := by
  have hdecides := decides_written hlimit spacing hmark hfield (isPart_of_spells hspells)
  rwa [(literalOf_eq_integer_iff hnumeric).mpr hspells, holdsFor_integer hnumeric htest] at hdecides

theorem decides_of_quoted (hlimit : 0 < options.maxDepth.toNat) (spacing : Spacing)
    (hfield : IsPart field) (hplain : IsPlain text.toList)
    (hfirst : text.toList.head? ≠ some '\'') (hlast : text.toList.getLast? ≠ some '\'') :
    Expr.Decides options (written spacing field "=" ("'" ++ text ++ "'")) field
      (textOutcome text) := by
  have hmark : Operator.equal.symbol.toList = ['='] := rfl
  have hvalue : literalOf .equal ("'" ++ text ++ "'").toList = .text text := by
    rw [quoted_toList, literalOf_quoted hfirst hlast, String.ofList_toList]
  have hdecides := decides_written hlimit spacing hmark hfield (isPart_quoted hplain)
  rwa [hvalue, holdsFor_equal] at hdecides

/-- A rule with one condition has the outcome of the direct comparison. -/
theorem decides_direct_comparison (hlimit : 0 < options.maxDepth.toNat) (hfield : IsPart field)
    (spacing : Spacing) :
    (∀ (spelling : String) (number : Int64), Spells spelling.toList number.toInt →
      Expr.Decides options (written spacing field ">" spelling) field
        (integerOutcome field fun actual => number.toInt < actual.toInt) ∧
      Expr.Decides options (written spacing field "<" spelling) field
        (integerOutcome field fun actual => actual.toInt < number.toInt)) ∧
    ∀ text : String, IsPlain text.toList → text.toList.head? ≠ some '\'' →
      text.toList.getLast? ≠ some '\'' →
      Expr.Decides options (written spacing field "=" ("'" ++ text ++ "'")) field
        (textOutcome text) := by
  constructor
  · intro spelling number hspells
    have hgreater : Operator.greater.symbol.toList = ['>'] := rfl
    have hless : Operator.less.symbol.toList = ['<'] := rfl
    constructor
    · apply decides_of_spells hlimit spacing hgreater rfl hfield hspells
      exact fun actual => decide_eq_decide.mpr Int64.lt_iff_toInt_lt
    · apply decides_of_spells hlimit spacing hless rfl hfield hspells
      exact fun actual => decide_eq_decide.mpr Int64.lt_iff_toInt_lt
  · intro text hplain hfirst hlast
    exact decides_of_quoted hlimit spacing hfield hplain hfirst hlast

theorem decides_direct_comparison_padded :
    Expr.Decides { validation := .eager } " age\t>  -007" "age"
        (integerOutcome "age" fun actual => -7 < actual.toInt) ∧
      Expr.Decides { validation := .eager } " age\t<  -007" "age"
        (integerOutcome "age" fun actual => actual.toInt < -7) ∧
      Expr.Decides { validation := .eager } " age\t=  'Sales'" "age" (textOutcome "Sales") := by
  have hlimit : 0 < ({ validation := .eager } : ParseOptions).maxDepth.toNat := by decide
  have hfield : IsPart "age" := ⟨by decide, by rintro (_ | _) <;> decide⟩
  have hspells : Spells "-007".toList (Int64.toInt (-7)) :=
    have hdigits : Text.isDigits "007".toList = true := by decide
    .minus hdigits
  obtain ⟨hintegers, htexts⟩ := decides_direct_comparison hlimit hfield
    ⟨⟨" ", by decide⟩, ⟨"\t", by decide⟩, ⟨"  ", by decide⟩, ⟨"", by decide⟩⟩
  obtain ⟨hgreater, hless⟩ := hintegers "-007" (-7) hspells
  exact ⟨hgreater, hless, htexts "Sales" (by decide) (by decide) (by decide)⟩

end Condition

end Verdict
