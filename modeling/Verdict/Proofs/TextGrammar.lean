import Verdict.Proofs.AcceptedTexts
import Verdict.Proofs.Layouts

/-!
# The grammar of texts

The texts that are read as a document are its layouts. At every point of a text that is accepted so
far, what has been read is a layout of the finished tokens and the beginning of one more, and the
lexer finishes only where this token is complete.
-/

namespace Verdict.Json

/-- The code unit that hexadecimal digits stand for. -/
def unitValue (values : List Nat) : Nat :=
  values.foldl (fun unit value => 16 * unit + value) 0

theorem unitValue_concat (values : List Nat) (value : Nat) :
    unitValue (values ++ [value]) = 16 * unitValue values + value := by
  rw [unitValue, List.foldl_concat]
  rfl

theorem hexDigits_unitValue {values : List Nat} (hlength : values.length = 4)
    (hvalues : ∀ value ∈ values, value < 16) :
    unitValue values < 0x10000 ∧ hexDigits (unitValue values) = values := by
  obtain ⟨first, second, third, fourth, rfl⟩ := List.length_eq_four.mp hlength
  simp only [List.forall_mem_cons] at hvalues
  obtain ⟨hfirst, hsecond, hthird, hfourth, -⟩ := hvalues
  have hvalue : unitValue [first, second, third, fourth] =
      16 * (16 * (16 * (16 * 0 + first) + second) + third) + fourth := rfl
  refine ⟨by omega, ?_⟩
  rw [hexDigits, List.cons.injEq, List.cons.injEq, List.cons.injEq, List.cons.injEq]
  exact ⟨by omega, by omega, by omega, by omega, rfl⟩

theorem isHexDigit_of_hexValue? {c : Char} {value : Nat} (h : hexValue? c = some value) :
    value < 16 ∧ IsHexDigit c value := by
  have hall : ∀ code : Fin 128, ∀ value ∈ hexValue? (Char.ofNat code.val),
      value < 16 ∧ (Char.ofNat code.val = Nat.digitChar value ∨
        Char.ofNat code.val = (Nat.digitChar value).toUpper) := by
    decide +kernel
  have hsmall : c.toNat < 128 := by
    unfold hexValue? at h
    split at h
    · rename_i hrange
      exact Nat.lt_of_le_of_lt hrange.2 (by decide)
    split at h
    · rename_i hrange
      exact Nat.lt_of_le_of_lt hrange.2 (by decide)
    split at h
    · rename_i hrange
      exact Nat.lt_of_le_of_lt hrange.2 (by decide)
    · cases h
  have hc : Char.ofNat c.toNat = c := Char.ofNat_toNat c
  have hvalue := hall ⟨c.toNat, hsmall⟩ value
  rw [hc] at hvalue
  exact hvalue h

theorem unit?_ofUnit {unit : Nat} (h : unit < 0x10000) : (Piece.ofUnit unit).unit? = some unit := by
  unfold Piece.ofUnit
  split
  · rw [Piece.unit?, Fin.val_ofNat]
    exact congrArg some (by omega)
  split
  · rw [Piece.unit?, Fin.val_ofNat]
    exact congrArg some (by omega)
  · have hvalid : unit.isValidChar := by
      unfold Nat.isValidChar
      omega
    rw [Piece.unit?, toNat_ofNat hvalid, if_pos h]

theorem mem_letterEscapes {letter c : Char} (h : shortEscape? letter = some c) :
    (letter, c) ∈ letterEscapes := by
  unfold shortEscape? at h
  split at h <;> cases h <;> decide

/-- What has been read of the open token. -/
inductive Lexeme.Holds : Lexeme → List Char → Prop where
  | between : Holds .between []
  | word (text : List Char) : Holds (.word text) text.reverse
  | number (text : List Char) : Holds (.number text) text.reverse
  | quoted {pieces : List Piece} {spellings : List (List Char)}
      (h : List.Forall₂ Piece.IsSpelling pieces.reverse spellings) :
      Holds (.quoted pieces) ('"' :: spellings.flatten)
  | escape {pieces : List Piece} {text : List Char} (h : Holds (.quoted pieces) text) :
      Holds (.escape pieces) (text ++ ['\\'])
  | unit {pieces : List Piece} {text digits : List Char} {values : List Nat} {missing : Nat}
      (h : Holds (.quoted pieces) text) (hdigits : List.Forall₂ IsHexDigit digits values)
      (hvalues : ∀ value ∈ values, value < 16) (hmissing : values.length + missing = 3) :
      Holds (.unit pieces missing (unitValue values)) (text ++ '\\' :: 'u' :: digits)

/-- The text is a layout of the finished tokens and what has been read of the open one. -/
def Lexer.Holds (lexer : Lexer) (text : List Char) : Prop :=
  ∃ closed opened, IsLayout lexer.tokens.reverse closed ∧ lexer.lexeme.Holds opened ∧
    text = closed ++ opened

variable {lexer next last : Lexer} {tokens : List Token} {token : Token} {pieces : List Piece}
  {piece : Piece} {text opened : List Char} {c : Char}

theorem isLayout_concat (h : IsLayout tokens.reverse text) (htoken : token.IsSpelling opened) :
    IsLayout (token :: tokens).reverse (text ++ opened) := by
  have hlast : IsLayout [token] (opened ++ []) := .token htoken .nil
  rw [List.reverse_cons, ← List.append_nil opened]
  exact isLayout_append h hlast

theorem isSpelling_of_ofWord? (h : Token.ofWord? text = some token) : token.IsSpelling text := by
  obtain ⟨rfl, rfl⟩ | ⟨rfl, rfl⟩ | ⟨rfl, rfl⟩ := ofWord?_cases h
  · exact .written .null
  · exact .written (.bool true)
  · exact .written (.bool false)

theorem isSpelling_of_punctuation? (h : Token.punctuation? c = some token) :
    token.IsSpelling [c] := by
  unfold Token.punctuation? at h
  split at h <;> cases h <;> exact .written _

theorem isLayout_of_settled? (h : lexer.Holds text) (hsettled : lexer.settled? = some tokens) :
    IsLayout tokens.reverse text := by
  obtain ⟨lexeme, done⟩ := lexer
  obtain ⟨closed, opened, hclosed, hopened, rfl⟩ := h
  cases hopened with
  | between =>
    cases hsettled
    rwa [List.append_nil]
  | word text =>
    obtain ⟨token, htoken, rfl⟩ := Option.map_eq_some_iff.mp hsettled
    exact isLayout_concat hclosed (isSpelling_of_ofWord? htoken)
  | number text =>
    obtain ⟨number, hnumber, rfl⟩ := Option.map_eq_some_iff.mp hsettled
    exact isLayout_concat hclosed (.number (Number.read?_eq_some_iff.mp hnumber))
  | _ => cases hsettled

theorem holds_begin? (h : IsLayout tokens.reverse text)
    (hbegin : Lexer.begin? tokens c = some next) : next.Holds (text ++ [c]) := by
  unfold Lexer.begin? at hbegin
  split at hbegin
  · rename_i hspace
    cases hbegin
    have hblank : c ∈ spaces := by simpa [isSpace, spaces, or_assoc] using hspace
    have hlayout := isLayout_append h (.blank hblank .nil)
    exact ⟨_, [], by simpa using hlayout, .between, by simp⟩
  split at hbegin
  · rename_i hquote
    cases hbegin
    rw [beq_iff_eq.mp hquote]
    exact ⟨text, _, h, @Lexeme.Holds.quoted [] [] .nil, rfl⟩
  split at hbegin
  · cases hbegin
    exact ⟨text, _, h, .number [c], rfl⟩
  split at hbegin
  · cases hbegin
    exact ⟨text, _, h, .word [c], rfl⟩
  · obtain ⟨token, htoken, rfl⟩ := Option.map_eq_some_iff.mp hbegin
    exact ⟨_, [], isLayout_concat h (isSpelling_of_punctuation? htoken), .between, by simp⟩

theorem holds_piece {spelling : List Char} (h : Lexeme.Holds (.quoted pieces) text)
    (hpiece : piece.IsSpelling spelling) :
    Lexeme.Holds (.quoted (piece :: pieces)) (text ++ spelling) := by
  cases h with
  | @quoted pieces spellings h =>
    have hpieces : List.Forall₂ Piece.IsSpelling (piece :: pieces).reverse
        (spellings ++ [spelling]) := by
      rw [List.reverse_cons]
      exact List.rel_append h (.cons hpiece .nil)
    have hholds := Lexeme.Holds.quoted hpieces
    rwa [List.flatten_append, List.flatten_singleton] at hholds

theorem isSpelling_of_quoted (h : Lexeme.Holds (.quoted pieces) text) :
    Token.IsSpelling (.string pieces.reverse) (text ++ ['"']) := by
  cases h with
  | quoted h => exact .string ⟨_, h, rfl⟩

theorem holds_quotedStep? (hclosed : IsLayout tokens.reverse text)
    (h : Lexeme.Holds (.quoted pieces) opened)
    (hstep : Lexer.quotedStep? tokens pieces c = some next) :
    next.Holds (text ++ (opened ++ [c])) := by
  unfold Lexer.quotedStep? at hstep
  split at hstep
  · rename_i hquote
    cases hstep
    rw [beq_iff_eq.mp hquote]
    exact ⟨_, [], isLayout_concat hclosed (isSpelling_of_quoted h), .between, by simp⟩
  split at hstep
  · rename_i hbackslash
    cases hstep
    rw [beq_iff_eq.mp hbackslash]
    exact ⟨text, _, hclosed, .escape h, rfl⟩
  split at hstep
  · cases hstep
  · rename_i hquote hbackslash hcontrol
    cases hstep
    have hplain : Piece.IsSpelling (.char c) [c] :=
      .plain (by simp_all) (Nat.le_of_not_lt hcontrol)
    exact ⟨text, _, hclosed, holds_piece h hplain, rfl⟩

theorem holds_escapeStep? (hclosed : IsLayout tokens.reverse text)
    (h : Lexeme.Holds (.quoted pieces) opened)
    (hstep : Lexer.escapeStep? tokens pieces c = some next) :
    next.Holds (text ++ (opened ++ ['\\'] ++ [c])) := by
  unfold Lexer.escapeStep? at hstep
  rw [List.append_assoc]
  split at hstep
  · rename_i hunit
    cases hstep
    rw [beq_iff_eq.mp hunit]
    exact ⟨text, _, hclosed, .unit h .nil (by simp) rfl, rfl⟩
  · obtain ⟨plain, hplain, rfl⟩ := Option.map_eq_some_iff.mp hstep
    exact ⟨text, _, hclosed, holds_piece h (.letter (mem_letterEscapes hplain)), rfl⟩

theorem holds_unitStep? {digits : List Char} {values : List Nat} {missing : Nat}
    (hclosed : IsLayout tokens.reverse text) (h : Lexeme.Holds (.quoted pieces) opened)
    (hdigits : List.Forall₂ IsHexDigit digits values) (hvalues : ∀ value ∈ values, value < 16)
    (hmissing : values.length + missing = 3)
    (hstep : Lexer.unitStep? tokens pieces missing (unitValue values) c = some next) :
    next.Holds (text ++ (opened ++ '\\' :: 'u' :: digits ++ [c])) := by
  obtain ⟨value, hvalue, hnext⟩ := Option.map_eq_some_iff.mp hstep
  obtain ⟨hsmall, hdigit⟩ := isHexDigit_of_hexValue? hvalue
  have hmore : List.Forall₂ IsHexDigit (digits ++ [c]) (values ++ [value]) :=
    List.rel_append hdigits (.cons hdigit .nil)
  have hmoreValues : ∀ digit ∈ values ++ [value], digit < 16 := by
    rw [List.forall_mem_append, List.forall_mem_singleton]
    exact ⟨hvalues, hsmall⟩
  rw [← unitValue_concat] at hnext
  rw [List.append_assoc, List.cons_append, List.cons_append]
  cases missing with
  | zero =>
    cases hnext
    have hlength : (values ++ [value]).length = 4 := by
      rw [List.length_append, List.length_singleton]
      omega
    obtain ⟨hunit, hback⟩ := hexDigits_unitValue hlength hmoreValues
    have hpiece := Piece.IsSpelling.unit (unit?_ofUnit hunit) (hback ▸ hmore)
    exact ⟨text, _, hclosed, holds_piece h hpiece, rfl⟩
  | succ missing =>
    cases hnext
    refine ⟨text, _, hclosed, .unit h hmore hmoreValues ?_, rfl⟩
    rw [List.length_append, List.length_singleton]
    omega

theorem holds_step? (h : lexer.Holds text) (hstep : lexer.step? c = some next) :
    next.Holds (text ++ [c]) := by
  obtain ⟨lexeme, done⟩ := lexer
  have hsettled {tokens : List Token} (hsettled : Lexer.settled? ⟨lexeme, done⟩ = some tokens) :=
    isLayout_of_settled? h hsettled
  obtain ⟨closed, opened, hclosed, hopened, rfl⟩ := h
  cases hopened with
  | between => exact holds_begin? (hsettled rfl) hstep
  | word text =>
    simp only [Lexer.step?] at hstep
    split at hstep
    · cases hstep
      exact ⟨closed, _, hclosed, .word _, by simp⟩
    · obtain ⟨token, htoken, hstep⟩ := Option.bind_eq_some_iff.mp hstep
      exact holds_begin? (hsettled (by simp [Lexer.settled?, htoken])) hstep
  | number text =>
    simp only [Lexer.step?] at hstep
    split at hstep
    · cases hstep
      exact ⟨closed, _, hclosed, .number _, by simp⟩
    · obtain ⟨number, hnumber, hstep⟩ := Option.bind_eq_some_iff.mp hstep
      exact holds_begin? (hsettled (by simp [Lexer.settled?, hnumber])) hstep
  | quoted hpieces =>
    rw [List.append_assoc]
    exact holds_quotedStep? hclosed (.quoted hpieces) hstep
  | escape hquoted =>
    rw [List.append_assoc]
    exact holds_escapeStep? hclosed hquoted hstep
  | unit hquoted hdigits hvalues hmissing =>
    rw [List.append_assoc]
    exact holds_unitStep? hclosed hquoted hdigits hvalues hmissing hstep

theorem holds_foldlM {rest : List Char} (h : lexer.Holds text)
    (hread : rest.foldlM Lexer.step? lexer = some last) : last.Holds (text ++ rest) := by
  induction rest generalizing lexer text with
  | nil =>
    cases hread
    rwa [List.append_nil]
  | cons c rest ih =>
    rw [List.foldlM_cons] at hread
    obtain ⟨next, hstep, hrest⟩ := Option.bind_eq_some_iff.mp hread
    have hlast := ih (holds_step? h hstep) hrest
    rwa [List.append_assoc] at hlast

/-- A text that is cut into tokens is a layout of them. -/
theorem isLayout_of_tokens? (h : tokens? text = some tokens) : IsLayout tokens text := by
  obtain ⟨last, hread, hfinish⟩ := Option.bind_eq_some_iff.mp h
  rw [Lexer.finish?_eq_settled?] at hfinish
  obtain ⟨done, hsettled, rfl⟩ := Option.map_eq_some_iff.mp hfinish
  have hstart : Lexer.start.Holds [] := ⟨[], [], .nil, .between, rfl⟩
  exact isLayout_of_settled? (holds_foldlM hstart hread) hsettled

/-- The texts that are read as a document are exactly its layouts. -/
theorem Document.parse?_eq_some_iff {document : Document} {text : String} :
    parse? text = some document ↔ document.LaidOutAs text := by
  constructor
  · intro h
    obtain ⟨tokens, htokens, hdocument⟩ := Option.bind_eq_some_iff.mp h
    rw [LaidOutAs, tokens_eq_of_ofTokens? hdocument]
    exact isLayout_of_tokens? htokens
  · exact parse?_of_laidOutAs

end Verdict.Json
