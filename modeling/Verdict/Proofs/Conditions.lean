import Verdict.Evaluation
import Verdict.Proofs.Numbers
import Verdict.Proofs.Splitting

namespace Verdict

namespace Text

variable {separator text before after digits : List Char} {c : Char} {number : Int}

theorem occurs_eq_false_of_notMem (hc : c ∈ separator) (htext : c ∉ text) :
    occurs separator text = false :=
  occurs_eq_false_iff.mpr fun hheld => htext (hheld.subset hc)

theorem occurs_singleton_iff : occurs [c] text = true ↔ c ∈ text := by
  constructor
  · intro h
    have hheld := occurs_iff_infix.mp h
    exact hheld.subset (List.mem_singleton_self c)
  · intro hc
    obtain ⟨before, after, rfl⟩ := List.append_of_mem hc
    apply occurs_iff_infix.mpr
    exact ⟨before, after, by simp⟩

theorem splitAll_singleton (hbefore : c ∉ before) (hafter : c ∉ after) :
    splitAll [c] (before ++ c :: after) = [before, after] := by
  have hne : [c] ≠ [] := List.cons_ne_nil c []
  have hfirst : occurs [c] (before ++ [c].dropLast) = false := by
    simpa using occurs_eq_false_of_notMem (List.mem_singleton_self c) hbefore
  have hcut := cut?_append_separator hne hfirst after
  rw [List.append_assoc, List.singleton_append] at hcut
  rw [splitAll_of_cut? hne hcut,
    splitAll_of_not_occurs (occurs_eq_false_of_notMem (List.mem_singleton_self c) hafter)]

theorem splitAll_singleton_eq_pair_iff :
    splitAll [c] text = [before, after] ↔
      before ++ c :: after = text ∧ c ∉ before ∧ c ∉ after := by
  constructor
  · intro h
    have hne : [c] ≠ [] := List.cons_ne_nil c []
    cases hcut : cut? [c] text with
    | none =>
      rw [splitAll_of_not_occurs (cut?_eq_none_iff.mp hcut)] at h
      cases h
    | some sides =>
      obtain ⟨first, rest⟩ := sides
      rw [splitAll_of_cut? hne hcut] at h
      obtain ⟨rfl, hrest⟩ := List.cons.inj h
      -- The rest is not split again, so it is the last piece as it stands.
      have hsingle : occurs [c] rest = false := by
        rw [← Bool.not_eq_true]
        intro hoccurs
        have hlength := two_le_length_splitAll hne hoccurs
        rw [hrest, List.length_singleton] at hlength
        omega
      rw [splitAll_of_not_occurs hsingle] at hrest
      cases hrest
      have hfirst := occurs_before_of_cut? hne hcut
      rw [← Bool.not_eq_true, occurs_singleton_iff] at hfirst hsingle
      have htext := append_of_cut? hcut
      rw [List.append_assoc, List.singleton_append] at htext
      exact ⟨htext, hfirst, hsingle⟩
  · rintro ⟨rfl, hbefore, hafter⟩
    exact splitAll_singleton hbefore hafter

theorem count_append_cons (c : Char) (before after : List Char) :
    (before ++ c :: after).count c = before.count c + after.count c + 1 := by
  rw [List.count_append, List.count_cons_self]
  omega

theorem notMem_of_count_eq_one (h : (before ++ c :: after).count c = 1) :
    c ∉ before ∧ c ∉ after := by
  rw [count_append_cons] at h
  constructor
  · exact List.count_eq_zero.mp (by omega)
  · exact List.count_eq_zero.mp (by omega)

theorem count_eq_one_of_notMem (hbefore : c ∉ before) (hafter : c ∉ after) :
    (before ++ c :: after).count c = 1 := by
  rw [count_append_cons, List.count_eq_zero.mpr hbefore, List.count_eq_zero.mpr hafter]

theorem compact_trimLeft (text : List Char) : compact (trimLeft text) = compact text := by
  induction text with
  | nil => rfl
  | cons c rest ih =>
    rw [trimLeft, List.dropWhile_cons]
    by_cases hblank : isBlank c = true
    · have hcompact : compact (c :: rest) = compact rest :=
        List.filter_cons_of_neg (by simp [hblank])
      rw [if_pos hblank, hcompact]
      exact ih
    · rw [if_neg hblank]

theorem compact_trim (text : List Char) : compact (trim text) = compact text := by
  have hreverse (text : List Char) : compact text.reverse = (compact text).reverse :=
    List.filter_reverse ..
  rw [trim, trimRight, hreverse, compact_trimLeft, hreverse, List.reverse_reverse, compact_trimLeft]

theorem compact_of_blank (h : ∀ c ∈ text, isBlank c = true) : compact text = [] := by
  simpa [compact] using h

theorem integer?_bind_int64?_eq_some_iff {word : Int64} :
    (integer? text).bind int64? = some word ↔ Spells text word.toInt := by
  rw [Option.bind_eq_some_iff]
  constructor
  · rintro ⟨number, hnumber, hword⟩
    rw [toInt_of_int64? hword]
    exact spells_of_integer? hnumber
  · intro h
    exact ⟨word.toInt, integer?_of_spells h, int64?_toInt word⟩

/-- A text without a blank and without a character of an operator. -/
def IsPlain (text : List Char) : Prop :=
  ∀ c ∈ text, isBlank c = false ∧ c ∉ ['>', '<', '=']

instance : Decidable (IsPlain text) :=
  List.decidableBAll _ _

theorem compact_of_isPlain (h : IsPlain text) : compact text = text :=
  List.filter_eq_self.mpr fun c hc => by simp [(h c hc).1]

theorem isPlain_cons (hc : isBlank c = false ∧ c ∉ ['>', '<', '=']) (h : IsPlain text) :
    IsPlain (c :: text) :=
  List.forall_mem_cons.mpr ⟨hc, h⟩

theorem isPlain_of_isDigits (h : isDigits digits = true) : IsPlain digits := by
  intro c hc
  have hdigit := isDigit_of_mem_digits h hc
  have hrange : 48 ≤ c.toNat ∧ c.toNat ≤ 57 := Char.isDigit_iff_toNat.mp hdigit
  constructor
  · simp only [isBlank, blankRanges, List.any_cons, List.any_nil, Bool.or_false,
      Bool.or_eq_false_iff, Bool.and_eq_false_iff, decide_eq_false_iff_not]
    omega
  · rintro hoperator
    simp only [List.mem_cons, List.not_mem_nil, or_false] at hoperator
    obtain rfl | rfl | rfl := hoperator <;> exact absurd hdigit (by decide)

theorem isPlain_of_spells (h : Spells text number) : IsPlain text := by
  cases h with
  | unsigned h => exact isPlain_of_isDigits h
  | plus h => exact isPlain_cons (by decide) (isPlain_of_isDigits h)
  | minus h => exact isPlain_cons (by decide) (isPlain_of_isDigits h)

end Text

namespace Condition

open Text (IsPlain Spells)

variable {operator : Operator} {mark : Char} {literal : List Char}

/-- The operators of one character, each with its character. -/
theorem cases_of_symbol (hmark : operator.symbol.toList = [mark]) :
    operator = .greater ∧ mark = '>' ∨ operator = .less ∧ mark = '<' ∨
      operator = .equal ∧ mark = '=' := by
  cases operator with
  | greater | less | equal => simpa [Operator.symbol, eq_comm] using hmark
  | greaterEqual | lessEqual => simp [Operator.symbol] at hmark

theorem mem_of_symbol (hmark : operator.symbol.toList = [mark]) : mark ∈ ['>', '<', '='] := by
  obtain ⟨-, rfl⟩ | ⟨-, rfl⟩ | ⟨-, rfl⟩ := cases_of_symbol hmark <;> decide

theorem compact_symbol (operator : Operator) :
    Text.compact operator.symbol.toList = operator.symbol.toList := by
  cases operator <;> rfl

theorem literalOf_eq_integer_iff {number : Int64} (hnumeric : operator.isNumeric = true) :
    literalOf operator literal = .integer number ↔ Spells literal number.toInt := by
  rw [literalOf, if_pos hnumeric, ← Text.integer?_bind_int64?_eq_some_iff]
  split
  · rename_i word hword
    rw [hword, Value.integer.injEq, Option.some.injEq]
  · rename_i hnone
    simp [hnone]

theorem literalOf_eq_text (hnumeric : operator.isNumeric = true)
    (h : ∀ number : Int64, ¬ Spells literal number.toInt) :
    literalOf operator literal = .text (String.ofList literal) := by
  rw [literalOf, if_pos hnumeric]
  split
  · rename_i word hword
    exact absurd (Text.integer?_bind_int64?_eq_some_iff.mp hword) (h word)
  · rfl

/-- The inner text begins and ends with no quote, and around it stand quotes only. -/
def IsUnquoted (inner literal : List Char) : Prop :=
  ∃ opening closing, literal = opening ++ inner ++ closing ∧
    (∀ c ∈ opening ++ closing, c = '\'') ∧
      inner.head? ≠ some '\'' ∧ inner.getLast? ≠ some '\''

theorem dropWhile_quotes {opening rest : List Char} (hopening : ∀ c ∈ opening, c = '\'')
    (hrest : rest.head? ≠ some '\'') : (opening ++ rest).dropWhile (· == '\'') = rest := by
  have hquotes : ∀ c ∈ opening, (c == '\'') = true := fun c hc => beq_iff_eq.mpr (hopening c hc)
  rw [List.dropWhile_append_of_pos hquotes]
  cases rest with
  | nil => rfl
  | cons first rest =>
    have hfirst : first ≠ '\'' := by simpa using hrest
    rw [List.dropWhile_cons, if_neg (by simpa using hfirst)]

theorem unquote_of_isUnquoted {inner : List Char} (h : IsUnquoted inner literal) :
    unquote literal = inner := by
  obtain ⟨opening, closing, rfl, hquotes, hfirst, hlast⟩ := h
  rw [List.forall_mem_append] at hquotes
  obtain ⟨hopening, hclosing⟩ := hquotes
  have hclosingReverse : ∀ c ∈ closing.reverse, c = '\'' := by simpa using hclosing
  obtain rfl | hne := eq_or_ne inner []
  · have hall : ∀ c ∈ opening ++ [] ++ closing, c = '\'' := by
      simpa using List.forall_mem_append.mpr ⟨hopening, hclosing⟩
    have hnothing : ([] : List Char).head? ≠ some '\'' := nofun
    have hnone := dropWhile_quotes hall hnothing
    rw [List.append_nil] at hnone
    rw [unquote, hnone]
    rfl
  · have hopened : (inner ++ closing).head? ≠ some '\'' := by
      rwa [List.head?_append_of_ne_nil _ hne]
    have hclosed : inner.reverse.head? ≠ some '\'' := by rwa [List.head?_reverse]
    calc
      unquote (opening ++ inner ++ closing) =
          ((inner ++ closing).reverse.dropWhile (· == '\'')).reverse := by
        rw [unquote, List.append_assoc, dropWhile_quotes hopening hopened]
      _ = inner.reverse.reverse := by
        rw [List.reverse_append, dropWhile_quotes hclosingReverse hclosed]
      _ = inner := List.reverse_reverse inner

theorem head?_dropWhile_quote (text : List Char) :
    (text.dropWhile (· == '\'')).head? ≠ some '\'' := by
  intro hhead
  have hnot := List.head?_dropWhile_not (· == '\'') text
  rw [hhead] at hnot
  cases hnot

theorem eq_quote_of_mem_takeWhile {c : Char} (h : c ∈ literal.takeWhile (· == '\'')) : c = '\'' :=
  beq_iff_eq.mp (List.all_eq_true.mp List.all_takeWhile c h)

theorem isUnquoted_unquote (literal : List Char) : IsUnquoted (unquote literal) literal := by
  -- `opened` is what the first quotes leave, and `opening` and `closing` are the quotes.
  generalize hopened : literal.dropWhile (· == '\'') = opened
  generalize hopening : literal.takeWhile (· == '\'') = opening
  generalize hclosing : (opened.reverse.takeWhile (· == '\'')).reverse = closing
  have hinner : unquote literal = (opened.reverse.dropWhile (· == '\'')).reverse := by
    rw [unquote, hopened]
  have hliteral : literal = opening ++ opened := by
    rw [← hopening, ← hopened, List.takeWhile_append_dropWhile]
  have hsides : opened = unquote literal ++ closing := by
    rw [hinner, ← hclosing, ← List.reverse_append, List.takeWhile_append_dropWhile,
      List.reverse_reverse]
  refine ⟨opening, closing, ?_, ?_, ?_, ?_⟩
  · rw [List.append_assoc, ← hsides]
    exact hliteral
  · rw [List.forall_mem_append, ← hopening, ← hclosing]
    exact ⟨fun c => eq_quote_of_mem_takeWhile,
      fun c hc => eq_quote_of_mem_takeWhile (List.mem_reverse.mp hc)⟩
  · intro hhead
    apply head?_dropWhile_quote literal
    rw [hopened, hsides, List.head?_append, hhead]
    rfl
  · rw [hinner, List.getLast?_reverse]
    exact head?_dropWhile_quote _

theorem literalOf_of_isUnquoted {inner : List Char} (h : IsUnquoted inner literal) :
    literalOf .equal literal = .text (String.ofList inner) := by
  have hnumeric : ¬ Operator.equal.isNumeric = true := Bool.false_ne_true
  rw [literalOf, if_neg hnumeric, unquote_of_isUnquoted h]

theorem literalOf_quoted (hfirst : literal.head? ≠ some '\'')
    (hlast : literal.getLast? ≠ some '\'') :
    literalOf .equal ('\'' :: (literal ++ ['\''])) = .text (String.ofList literal) := by
  have hunquoted : IsUnquoted literal ('\'' :: (literal ++ ['\''])) :=
    ⟨['\''], ['\''], rfl, by simp, hfirst, hlast⟩
  exact literalOf_of_isUnquoted hunquoted

end Condition

end Verdict
