import Mathlib.Data.List.Chain
import Verdict.Proofs.Numbers

/-!
# Spelled tokens

A token is read back from every spelling of it as one token. A word or a number is only known to be
complete when the next character cannot continue it, so the lexer behind it is described by the
tokens that it holds once it is settled. Tokens may follow each other without blanks as long as no
two words or numbers touch.
-/

namespace Verdict.Json

namespace Lexer

/-- The tokens, backwards, when the open word or number is taken as it stands. -/
def settled? (lexer : Lexer) : Option (List Token) :=
  match lexer.lexeme with
  | .between => some lexer.tokens
  | .word text => (Token.ofWord? text.reverse).map fun token => token :: lexer.tokens
  | .number text => (Number.read? text.reverse).map fun number => .number number :: lexer.tokens
  | _ => none

variable {lexer : Lexer} {tokens : List Token} {c : Char}

theorem finish?_eq_settled? (lexer : Lexer) : lexer.finish? = lexer.settled?.map List.reverse := by
  obtain ⟨lexeme, tokens⟩ := lexer
  cases lexeme with
  | word text => cases h : Token.ofWord? text.reverse <;> simp [finish?, settled?, h]
  | number text => cases h : Number.read? text.reverse <;> simp [finish?, settled?, h]
  | _ => rfl

theorem step?_of_settled? (hsettled : lexer.settled? = some tokens) (hword : isWordChar c = false)
    (hnumber : isNumberChar c = false) : lexer.step? c = begin? tokens c := by
  obtain ⟨lexeme, done⟩ := lexer
  cases lexeme with
  | between =>
    cases hsettled
    rfl
  | word text =>
    obtain ⟨token, htoken, rfl⟩ := Option.map_eq_some_iff.mp hsettled
    simp [step?, hword, htoken]
  | number text =>
    obtain ⟨number, hread, rfl⟩ := Option.map_eq_some_iff.mp hsettled
    simp [step?, hnumber, hread]
  | _ => cases hsettled

end Lexer

theorem hexValue?_of_isHexDigit {c : Char} {value : Nat} (hc : IsHexDigit c value)
    (h : value < 16) : hexValue? c = some value := by
  have hall : ∀ digit : Fin 16, hexValue? (Nat.digitChar digit.val) = some digit.val ∧
      hexValue? (Nat.digitChar digit.val).toUpper = some digit.val := by decide
  obtain ⟨hlower, hupper⟩ := hall ⟨value, h⟩
  obtain rfl | rfl := hc
  · exact hlower
  · exact hupper

theorem letterEscapes_spec {letter c : Char} (h : (letter, c) ∈ letterEscapes) :
    letter ≠ 'u' ∧ shortEscape? letter = some c := by
  have hall : ∀ escape ∈ letterEscapes, escape.1 ≠ 'u' ∧ shortEscape? escape.1 = some escape.2 := by
    decide
  exact hall (letter, c) h

theorem ofUnit_of_unit? {piece : Piece} {unit : Nat} (h : piece.unit? = some unit) :
    unit < 0x10000 ∧ Piece.ofUnit unit = piece := by
  cases piece with
  | char c =>
    obtain ⟨hsmall, hunit⟩ := Option.ite_none_right_eq_some.mp h
    cases hunit
    -- The halves of pairs are no characters.
    have hvalid : c.toNat < 0xD800 ∨ 0xDFFF < c.toNat ∧ c.toNat < 0x110000 := c.valid
    refine ⟨hsmall, ?_⟩
    rw [Piece.ofUnit, if_neg (by omega), if_neg (by omega), Char.ofNat_toNat]
  | high bits =>
    cases h
    refine ⟨by omega, ?_⟩
    rw [Piece.ofUnit, if_pos (by omega)]
    exact congrArg Piece.high (Fin.ext (by simp))
  | low bits =>
    cases h
    refine ⟨by omega, ?_⟩
    rw [Piece.ofUnit, if_neg (by omega), if_pos (by omega)]
    exact congrArg Piece.low (Fin.ext (by simp))

section Pieces

variable (pieces : List Piece) (tokens : List Token)

theorem step?_unit (missing value : Nat) {c : Char} {digit : Nat} (h : hexValue? c = some digit) :
    Lexer.step? ⟨.unit pieces (missing + 1) value, tokens⟩ c =
      some ⟨.unit pieces missing (16 * value + digit), tokens⟩ := by
  simp [Lexer.step?, Lexer.unitStep?, h]

theorem step?_lastUnit (value : Nat) {c : Char} {digit : Nat} (h : hexValue? c = some digit) :
    Lexer.step? ⟨.unit pieces 0 value, tokens⟩ c =
      some ⟨.quoted (Piece.ofUnit (16 * value + digit) :: pieces), tokens⟩ := by
  simp [Lexer.step?, Lexer.unitStep?, h]

theorem foldlM_hexDigits {unit : Nat} {digits : List Char} (h : unit < 0x10000)
    (hdigits : List.Forall₂ IsHexDigit digits (hexDigits unit)) :
    digits.foldlM Lexer.step? ⟨.unit pieces 3 0, tokens⟩ =
      some ⟨.quoted (Piece.ofUnit unit :: pieces), tokens⟩ := by
  have hunit : 16 * (16 * (16 * (16 * 0 + unit / 4096 % 16) + unit / 256 % 16) + unit / 16 % 16) +
      unit % 16 = unit := by omega
  have hvalue (c : Char) (value : Nat) (hc : IsHexDigit c (value % 16)) :
      hexValue? c = some (value % 16) :=
    hexValue?_of_isHexDigit hc (Nat.mod_lt value (by decide))
  obtain _ | ⟨hfirst, _ | ⟨hsecond, _ | ⟨hthird, _ | ⟨hfourth, hend⟩⟩⟩⟩ := hdigits
  cases hend
  simp only [List.foldlM_cons, List.foldlM_nil, Option.bind_eq_bind, Option.bind_some,
    Option.pure_def, step?_unit pieces tokens _ _ (hvalue _ _ hfirst),
    step?_unit pieces tokens _ _ (hvalue _ _ hsecond),
    step?_unit pieces tokens _ _ (hvalue _ _ hthird),
    step?_lastUnit pieces tokens _ (hvalue _ _ hfourth), hunit]

theorem foldlM_piece {piece : Piece} {text : List Char} (h : piece.IsSpelling text) :
    text.foldlM Lexer.step? ⟨.quoted pieces, tokens⟩ = some ⟨.quoted (piece :: pieces), tokens⟩ := by
  cases h with
  | @plain c hmark hcontrol =>
    simp only [List.mem_cons, List.not_mem_nil, or_false, not_or] at hmark
    simp [Lexer.step?, Lexer.quotedStep?, hmark, Nat.not_lt.mpr hcontrol]
  | @letter letter c h =>
    obtain ⟨hunit, hplain⟩ := letterEscapes_spec h
    change Lexer.step? ⟨.escape pieces, tokens⟩ letter >>= pure = _
    simp [Lexer.step?, Lexer.escapeStep?, hunit, hplain]
  | @unit piece unit digits hunit hdigits =>
    obtain ⟨hsmall, hpiece⟩ := ofUnit_of_unit? hunit
    change List.foldlM Lexer.step? (Lexer.mk (.unit pieces 3 0) tokens) digits = _
    rw [foldlM_hexDigits pieces tokens hsmall hdigits, hpiece]

theorem foldlM_pieces {quoted : Quoted} {spellings : List (List Char)}
    (h : List.Forall₂ Piece.IsSpelling quoted spellings) :
    spellings.flatten.foldlM Lexer.step? ⟨.quoted pieces, tokens⟩ =
      some ⟨.quoted (quoted.reverse ++ pieces), tokens⟩ := by
  induction h generalizing pieces with
  | nil => rfl
  | @cons piece spelling rest others hpiece _ ih =>
    rw [List.flatten_cons, List.foldlM_append, foldlM_piece pieces tokens hpiece]
    simp [ih]

end Pieces

/-- Reading the text adds exactly the token, from any lexer that is settled. -/
def Closes (text : List Char) (token : Token) : Prop :=
  ∀ lexer tokens, Lexer.settled? lexer = some tokens →
    text.foldlM Lexer.step? lexer = some ⟨.between, token :: tokens⟩

/-- Reading the text where no token is open leaves a lexer that settles with the token. -/
def Opens (text : List Char) (token : Token) : Prop :=
  ∀ tokens, ∃ lexer, text.foldlM Lexer.step? ⟨.between, tokens⟩ = some lexer ∧
    lexer.settled? = some (token :: tokens)

theorem closes_quoted {quoted : Quoted} {text : List Char} (h : quoted.IsSpelling text) :
    Closes text (.string quoted) := by
  obtain ⟨spellings, hspellings, rfl⟩ := h
  intro lexer tokens hsettled
  have hopen : lexer.step? '"' = some ⟨.quoted [], tokens⟩ :=
    Lexer.step?_of_settled? hsettled rfl rfl
  rw [List.foldlM_cons, hopen]
  change List.foldlM _ _ _ = _
  rw [List.foldlM_append, foldlM_pieces [] tokens hspellings]
  change Lexer.step? ⟨.quoted (quoted.reverse ++ []), tokens⟩ '"' >>= pure = _
  simp [Lexer.step?, Lexer.quotedStep?]

theorem closes_punctuation {c : Char} {token : Token} (h : Token.punctuation? c = some token) :
    Closes [c] token := by
  intro lexer tokens hsettled
  have hstep : lexer.step? c = some ⟨.between, token :: tokens⟩ := by
    unfold Token.punctuation? at h
    split at h <;> cases h <;> exact Lexer.step?_of_settled? hsettled rfl rfl
  rw [List.foldlM_cons, hstep]
  rfl

theorem foldlM_number (text rest : List Char) (tokens : List Token)
    (h : ∀ c ∈ rest, isNumberChar c = true) :
    rest.foldlM Lexer.step? ⟨.number text, tokens⟩ =
      some ⟨.number (rest.reverse ++ text), tokens⟩ := by
  induction rest generalizing text with
  | nil => rfl
  | cons c rest ih =>
    have hstep : Lexer.step? ⟨.number text, tokens⟩ c = some ⟨.number (c :: text), tokens⟩ :=
      if_pos (h c (by simp))
    rw [List.foldlM_cons, hstep]
    simpa using ih (c :: text) fun c hc => h c (by simp [hc])

theorem begin?_numberStart (tokens : List Token) {c : Char} (h : isNumberStart c = true) :
    Lexer.begin? tokens c = some ⟨.number [c], tokens⟩ := by
  have hspace : isSpace c = false := by
    rw [← Bool.not_eq_true]
    intro hspace
    simp only [isSpace, Bool.or_eq_true, beq_iff_eq] at hspace
    obtain ((rfl | rfl) | rfl) | rfl := hspace <;> exact absurd h (by decide)
  have hquote : c ≠ '"' := by
    rintro rfl
    exact absurd h (by decide)
  simp [Lexer.begin?, hspace, hquote, h]

/-- A text of the characters of numbers is one number, if it can be read as one. -/
theorem opens_number {text : List Char} {number : Number} (hread : Number.read? text = some number)
    (hfirst : ∀ c ∈ text.head?, isNumberStart c = true)
    (hchars : ∀ c ∈ text, isNumberChar c = true) : Opens text (.number number) := by
  intro tokens
  cases text with
  | nil => cases hread
  | cons first rest =>
    refine ⟨⟨.number (rest.reverse ++ [first]), tokens⟩, ?_, ?_⟩
    · have hopen : Lexer.step? ⟨.between, tokens⟩ first = some ⟨.number [first], tokens⟩ :=
        begin?_numberStart tokens (hfirst first rfl)
      rw [List.foldlM_cons, hopen]
      exact foldlM_number [first] rest tokens fun c hc => hchars c (by simp [hc])
    · simp [Lexer.settled?, hread]

theorem ofWord?_cases {word : List Char} {token : Token} (h : Token.ofWord? word = some token) :
    (word = "null".toList ∧ token = .null) ∨ (word = "true".toList ∧ token = .bool true) ∨
      (word = "false".toList ∧ token = .bool false) := by
  unfold Token.ofWord? at h
  split at h
  · rename_i hnull
    exact .inl ⟨hnull, (Option.some.inj h).symm⟩
  split at h
  · rename_i htrue
    exact .inr (.inl ⟨htrue, (Option.some.inj h).symm⟩)
  split at h
  · rename_i hfalse
    exact .inr (.inr ⟨hfalse, (Option.some.inj h).symm⟩)
  · cases h

theorem opens_word {word : List Char} {token : Token} (h : Token.ofWord? word = some token) :
    Opens word token := by
  intro tokens
  obtain ⟨rfl, rfl⟩ | ⟨rfl, rfl⟩ | ⟨rfl, rfl⟩ := ofWord?_cases h
  · exact ⟨_, rfl, rfl⟩
  · exact ⟨_, rfl, rfl⟩
  · exact ⟨_, rfl, rfl⟩

/-- Whether the token is a word or a number, which may go on in the text behind it. -/
def Token.isAtom : Token → Bool
  | .null | .bool _ | .number _ => true
  | _ => false

/-- The text is read as the token, where it stands apart from other words and numbers. -/
def Spells (text : List Char) (token : Token) : Prop :=
  if token.isAtom = true then Opens text token else Closes text token

/-- The second token may follow the first one directly. -/
def MayTouch (first second : Token) : Prop :=
  first.isAtom = false ∨ second.isAtom = false

theorem foldlM_spellings {texts : List (List Char)} {spelled tokens : List Token} {lexer : Lexer}
    (hspelled : List.Forall₂ Spells texts spelled) (hrow : spelled.IsChain MayTouch)
    (hsettled : lexer.settled? = some tokens)
    (hfirst : ∀ token ∈ spelled.head?, token.isAtom = true → lexer.lexeme = .between) :
    ∃ last, texts.flatten.foldlM Lexer.step? lexer = some last ∧
      last.settled? = some (spelled.reverse ++ tokens) := by
  induction hspelled generalizing lexer tokens with
  | nil => exact ⟨lexer, rfl, hsettled⟩
  | @cons text token texts spelled hspell _ ih =>
    obtain ⟨hnext, hrow⟩ := List.isChain_cons.mp hrow
    rw [List.flatten_cons, List.foldlM_append]
    unfold Spells at hspell
    split at hspell
    · rename_i hatom
      obtain ⟨lexeme, done⟩ := lexer
      have hbetween : lexeme = .between := hfirst token rfl hatom
      subst hbetween
      cases hsettled
      obtain ⟨next, hread, hnextSettled⟩ := hspell done
      obtain ⟨last, hlast, hlastSettled⟩ := ih hrow hnextSettled fun second hsecond hatomSecond => by
        -- Two atoms never touch.
        obtain h | h := hnext second hsecond
        · rw [hatom] at h
          cases h
        · rw [hatomSecond] at h
          cases h
      refine ⟨last, ?_, by simpa using hlastSettled⟩
      rw [hread]
      exact hlast
    · have hclosed : Lexer.settled? ⟨.between, token :: tokens⟩ = some (token :: tokens) := rfl
      obtain ⟨last, hlast, hlastSettled⟩ := ih hrow hclosed fun _ _ _ => rfl
      refine ⟨last, ?_, by simpa using hlastSettled⟩
      rw [hspell lexer tokens hsettled]
      exact hlast

theorem tokens?_of_spellings {texts : List (List Char)} {spelled : List Token}
    (hspelled : List.Forall₂ Spells texts spelled) (hrow : spelled.IsChain MayTouch) :
    tokens? texts.flatten = some spelled := by
  have hstart : Lexer.start.settled? = some [] := rfl
  obtain ⟨last, hread, hsettled⟩ := foldlM_spellings hspelled hrow hstart fun _ _ _ => rfl
  rw [tokens?, hread]
  change last.finish? = _
  rw [Lexer.finish?_eq_settled?, hsettled]
  simp

theorem isNumberChar_of_isDigit {c : Char} (h : c.isDigit = true) : isNumberChar c = true := by
  simp [isNumberChar, h]

theorem isNumberChar_of_spells {text : List Char} {value : Int} (h : Text.Spells text value) :
    ∀ c ∈ text, isNumberChar c = true := by
  have hdigits {digits : List Char} (h : Text.isDigits digits = true) :
      ∀ c ∈ digits, isNumberChar c = true := fun c hc =>
    isNumberChar_of_isDigit (Text.isDigit_of_mem_digits h hc)
  cases h with
  | unsigned h => exact hdigits h
  | plus h => exact List.forall_mem_cons.mpr ⟨rfl, hdigits h⟩
  | minus h => exact List.forall_mem_cons.mpr ⟨rfl, hdigits h⟩

theorem isNumberChar_of_isExponentSpelling {exponent : Option Int} {text : List Char}
    (h : Number.IsExponentSpelling exponent text) : ∀ c ∈ text, isNumberChar c = true := by
  cases h with
  | absent => simp
  | present hmark h =>
    refine List.forall_mem_cons.mpr ⟨?_, isNumberChar_of_spells h⟩
    simp only [List.mem_cons, List.not_mem_nil, or_false] at hmark
    obtain rfl | rfl := hmark <;> rfl

theorem isNumberChar_of_mem_fractionWritten {fraction : List (Fin 10)} {c : Char}
    (h : c ∈ Number.fractionWritten fraction) : isNumberChar c = true := by
  cases fraction with
  | nil => cases h
  | cons first others =>
    obtain rfl | hdigit := List.mem_cons.mp h
    · rfl
    · obtain ⟨digit, -, rfl⟩ := List.mem_map.mp hdigit
      exact isNumberChar_of_isDigit (by simp [Nat.isDigit_digitChar])

theorem isNumberChar_of_isSpelling {number : Number} {text : List Char}
    (h : number.IsSpelling text) : ∀ c ∈ text, isNumberChar c = true := by
  obtain ⟨exponent, hexponent, rfl⟩ := h
  intro c hc
  simp only [List.mem_append] at hc
  obtain hsign | hwhole | hfraction | hexponentChar := hc
  · split at hsign
    · rw [List.mem_singleton.mp hsign]
      rfl
    · cases hsign
  · exact isNumberChar_of_isDigit (Text.isDigit_of_mem_toDigits hwhole)
  · exact isNumberChar_of_mem_fractionWritten hfraction
  · exact isNumberChar_of_isExponentSpelling hexponent c hexponentChar

theorem isNumberStart_of_isSpelling {number : Number} {text : List Char}
    (h : number.IsSpelling text) : ∀ c ∈ text.head?, isNumberStart c = true := by
  obtain ⟨exponent, -, rfl⟩ := h
  intro c hc
  obtain ⟨first, others, hdigits⟩ :=
    List.exists_cons_of_ne_nil (Nat.toDigits_ne_nil (n := number.whole) (b := 10))
  rw [hdigits] at hc
  split at hc
  · cases hc
    rfl
  · cases hc
    have hmem : c ∈ Nat.toDigits 10 number.whole := by simp [hdigits]
    have hdigit : c.isDigit = true := Text.isDigit_of_mem_toDigits hmem
    simp [isNumberStart, hdigit]

theorem opens_of_isSpelling {number : Number} {text : List Char} (h : number.IsSpelling text) :
    Opens text (.number number) :=
  opens_number (Number.read?_of_isSpelling h) (isNumberStart_of_isSpelling h)
    (isNumberChar_of_isSpelling h)

/-- Every token is read back from each of its spellings. -/
theorem spells_of_isSpelling {token : Token} {text : List Char} (h : token.IsSpelling text) :
    Spells text token := by
  cases h with
  | number h => exact opens_of_isSpelling h
  | string h => exact closes_quoted h
  | written token =>
    cases token with
    | null => exact opens_word rfl
    | bool value => cases value <;> exact opens_word rfl
    | number value => exact opens_of_isSpelling value.isSpelling_written
    | string quoted => exact closes_quoted quoted.isSpelling_written
    | _ => exact closes_punctuation rfl

theorem tokens?_flatMap_written {tokens : List Token} (hrow : tokens.IsChain MayTouch) :
    tokens? (tokens.flatMap Token.written) = some tokens := by
  rw [List.flatMap_def]
  refine tokens?_of_spellings ?_ hrow
  rw [List.forall₂_map_left_iff]
  exact List.forall₂_same.mpr fun token _ => spells_of_isSpelling (.written token)

end Verdict.Json
