import Mathlib.Data.List.Forall2
import Verdict.Json.Token

namespace Verdict

namespace Text

/-- An optional sign and one or more digits, and the integer that they name. -/
inductive Spells : List Char → Int → Prop where
  | unsigned {digits : List Char} (h : isDigits digits = true) :
      Spells digits (digitsValue digits)
  | plus {digits : List Char} (h : isDigits digits = true) :
      Spells ('+' :: digits) (digitsValue digits)
  | minus {digits : List Char} (h : isDigits digits = true) :
      Spells ('-' :: digits) (-(digitsValue digits : Int))

theorem isDigit_of_mem_toDigits {value : Nat} {c : Char} (h : c ∈ Nat.toDigits 10 value) :
    c.isDigit = true :=
  Nat.isDigit_of_mem_toDigits (by decide) (by decide) h

theorem digitsValue_toDigits (value : Nat) : digitsValue (Nat.toDigits 10 value) = value :=
  Nat.ofDigitChars_toDigits (by decide) (by decide)

theorem isDigits_toDigits (value : Nat) : isDigits (Nat.toDigits 10 value) = true := by
  rw [isDigits, Bool.and_eq_true, List.all_eq_true]
  exact ⟨by simp [Nat.toDigits_ne_nil], fun c hc => isDigit_of_mem_toDigits hc⟩

end Text

namespace Json

namespace Number

theorem spells_integerWritten (value : Int) : Text.Spells (integerWritten value) value := by
  have hdigits := Text.isDigits_toDigits value.natAbs
  rw [integerWritten]
  by_cases hneg : value < 0
  · have hspells := Text.Spells.minus hdigits
    rw [Text.digitsValue_toDigits, show -(value.natAbs : Int) = value by omega] at hspells
    rwa [if_pos hneg]
  · have hspells := Text.Spells.unsigned hdigits
    rw [Text.digitsValue_toDigits, show (value.natAbs : Int) = value by omega] at hspells
    rwa [if_neg hneg]

/-- The mark of an exponent and an integer behind it, or nothing. -/
inductive IsExponentSpelling : Option Int → List Char → Prop where
  | absent : IsExponentSpelling none []
  | present {mark : Char} {digits : List Char} {value : Int} (hmark : mark ∈ ['e', 'E'])
      (h : Text.Spells digits value) : IsExponentSpelling (some value) (mark :: digits)

def IsSpelling (number : Number) (text : List Char) : Prop :=
  ∃ exponent, IsExponentSpelling number.exponent exponent ∧
    text = (if number.negative then ['-'] else []) ++
      (Nat.toDigits 10 number.whole ++ (fractionWritten number.fraction ++ exponent))

theorem isExponentSpelling_written (exponent : Option Int) :
    IsExponentSpelling exponent (exponentWritten exponent) := by
  cases exponent with
  | none => exact .absent
  | some value => exact .present (by simp) (spells_integerWritten value)

theorem isSpelling_written (number : Number) : number.IsSpelling number.written :=
  ⟨exponentWritten number.exponent, isExponentSpelling_written number.exponent, rfl⟩

end Number

theorem toNat_ofNat {code : Nat} (h : code.isValidChar) : (Char.ofNat code).toNat = code := by
  rw [Char.ofNat, dif_pos h]
  rfl

/-- The letters that may stand behind a backslash, each with the character that it stands for. -/
def letterEscapes : List (Char × Char) :=
  [('"', '"'), ('\\', '\\'), ('/', '/'), ('b', '\x08'), ('f', '\x0c'), ('n', '\n'), ('r', '\r'),
    ('t', '\t')]

def IsHexDigit (c : Char) (value : Nat) : Prop :=
  c = Nat.digitChar value ∨ c = (Nat.digitChar value).toUpper

/-- The values of the four hexadecimal digits of a code unit. -/
def hexDigits (unit : Nat) : List Nat :=
  [unit / 4096 % 16, unit / 256 % 16, unit / 16 % 16, unit % 16]

namespace Piece

/-- The code unit of a piece. A character beyond the first 65536 has none. -/
def unit? : Piece → Option Nat
  | .char c => if c.toNat < 0x10000 then some c.toNat else none
  | .high bits => some (0xD800 + bits.val)
  | .low bits => some (0xDC00 + bits.val)

inductive IsSpelling : Piece → List Char → Prop where
  | plain {c : Char} (hmark : c ∉ ['"', '\\']) (hcontrol : 0x20 ≤ c.toNat) :
      IsSpelling (.char c) [c]
  | letter {letter c : Char} (h : (letter, c) ∈ letterEscapes) :
      IsSpelling (.char c) ['\\', letter]
  | unit {piece : Piece} {unit : Nat} {digits : List Char} (hunit : piece.unit? = some unit)
      (hdigits : List.Forall₂ IsHexDigit digits (hexDigits unit)) :
      IsSpelling piece ('\\' :: 'u' :: digits)

theorem isSpelling_unitEscape {piece : Piece} {unit : Nat} (h : piece.unit? = some unit) :
    piece.IsSpelling (unitEscape unit) := by
  have hdigits : List.Forall₂ IsHexDigit ((hexDigits unit).map Nat.digitChar) (hexDigits unit) := by
    rw [List.forall₂_map_left_iff]
    exact List.forall₂_same.mpr fun value _ => .inl rfl
  exact .unit h hdigits

theorem isSpelling_escape (c : Char) : IsSpelling (.char c) (escape c) := by
  unfold escape
  split
  · exact .letter (by decide)
  · exact .letter (by decide)
  · exact .letter (by decide)
  · exact .letter (by decide)
  · exact .letter (by decide)
  · exact .letter (by decide)
  · exact .letter (by decide)
  · rename_i hquote hbackslash _ _ _ _ _
    split
    · rename_i hcontrol
      exact isSpelling_unitEscape (if_pos (by omega))
    · rename_i hcontrol
      refine .plain ?_ (by omega)
      simpa using ⟨hquote, hbackslash⟩

theorem isSpelling_written (piece : Piece) : piece.IsSpelling piece.written := by
  cases piece with
  | char c => exact isSpelling_escape c
  | high bits => exact isSpelling_unitEscape rfl
  | low bits => exact isSpelling_unitEscape rfl

end Piece

namespace Quoted

def IsSpelling (quoted : Quoted) (text : List Char) : Prop :=
  ∃ spellings, List.Forall₂ Piece.IsSpelling quoted spellings ∧
    text = '"' :: (spellings.flatten ++ ['"'])

theorem isSpelling_written (quoted : Quoted) : quoted.IsSpelling quoted.written := by
  refine ⟨quoted.map Piece.written, ?_, by rw [written, List.flatMap_def]⟩
  rw [List.forall₂_map_right_iff]
  exact List.forall₂_same.mpr fun piece _ => piece.isSpelling_written

/-- The pieces stand for a text: one for each character, or the two halves of it. -/
inductive StandsFor : Quoted → List Char → Prop where
  | nil : StandsFor [] []
  | char {quoted : Quoted} {text : List Char} (c : Char) (h : StandsFor quoted text) :
      StandsFor (.char c :: quoted) (c :: text)
  | halves {quoted : Quoted} {text : List Char} {c : Char} {high low : Fin 1024}
      (hc : c.toNat = 0x10000 + 1024 * high.val + low.val) (h : StandsFor quoted text) :
      StandsFor (.high high :: .low low :: quoted) (c :: text)

theorem standsFor_ofText (text : String) : (ofText text).StandsFor text.toList := by
  rw [ofText]
  induction text.toList with
  | nil => exact .nil
  | cons c rest ih => exact .char c ih

theorem decodeFrom_of_standsFor {quoted : Quoted} {text : List Char} (h : quoted.StandsFor text)
    (done : List Char) : decodeFrom done quoted = some (done.reverse ++ text) := by
  induction h generalizing done with
  | nil => simp [decodeFrom]
  | char c _ ih => simp [decodeFrom, ih]
  | halves hc _ ih => simp [decodeFrom, joinHalves, ← hc, Char.ofNat_toNat, ih]

theorem content?_of_standsFor {quoted : Quoted} {text : String}
    (h : quoted.StandsFor text.toList) : quoted.content? = some text := by
  rw [content?, decodeFrom_of_standsFor h]
  simp

theorem toNat_joinHalves (high low : Fin 1024) :
    (joinHalves high low).toNat = 0x10000 + 1024 * high.val + low.val := by
  have hvalid : (0x10000 + 1024 * high.val + low.val).isValidChar := by
    unfold Nat.isValidChar
    omega
  rw [joinHalves, toNat_ofNat hvalid]

theorem exists_of_decodeFrom {quoted : Quoted} {done all : List Char}
    (h : decodeFrom done quoted = some all) :
    ∃ text, quoted.StandsFor text ∧ all = done.reverse ++ text := by
  fun_induction decodeFrom done quoted with
  | case1 done =>
    cases h
    exact ⟨[], .nil, (List.append_nil _).symm⟩
  | case2 done c rest ih =>
    obtain ⟨text, htext, rfl⟩ := ih h
    exact ⟨c :: text, .char c htext, by simp⟩
  | case3 done high low rest ih =>
    obtain ⟨text, htext, rfl⟩ := ih h
    exact ⟨_, .halves (toNat_joinHalves high low) htext, by simp⟩
  | case4 => cases h

/-- The content of a quoted text is what its pieces stand for. -/
theorem content?_eq_some_iff {quoted : Quoted} {text : String} :
    quoted.content? = some text ↔ quoted.StandsFor text.toList := by
  constructor
  · intro h
    obtain ⟨all, hall, rfl⟩ := Option.map_eq_some_iff.mp h
    obtain ⟨text, htext, rfl⟩ := exists_of_decodeFrom hall
    rwa [String.toList_ofList]
  · exact content?_of_standsFor

end Quoted

namespace Token

def written : Token → List Char
  | .openArray => ['[']
  | .closeArray => [']']
  | .openObject => ['{']
  | .closeObject => ['}']
  | .comma => [',']
  | .colon => [':']
  | .null => "null".toList
  | .bool true => "true".toList
  | .bool false => "false".toList
  | .number value => value.written
  | .string quoted => quoted.written

inductive IsSpelling : Token → List Char → Prop where
  | written (token : Token) : IsSpelling token token.written
  | number {number : Number} {text : List Char} (h : number.IsSpelling text) :
      IsSpelling (.number number) text
  | string {quoted : Quoted} {text : List Char} (h : quoted.IsSpelling text) :
      IsSpelling (.string quoted) text

end Token

end Json

end Verdict
