import Verdict.Text.Decimal

/-!
# Numbers

A number is an optional minus sign, an integer part without superfluous zeros, an optional fraction
and an optional exponent. It is an integer only when it has neither fraction nor exponent, and minus
zero is none.
-/

namespace Verdict.Json

structure Number where
  negative : Bool
  /-- The integer part. -/
  whole : Nat
  /-- The digits after the point; a number without a point has none. -/
  fraction : List (Fin 10)
  exponent : Option Int
deriving DecidableEq, Repr

namespace Number

/-- The integer part is a single zero or does not start with one. -/
def isWhole : List Char → Bool
  | [] => false
  | ['0'] => true
  | first :: _ => first != '0'

def digitOfChar (c : Char) : Fin 10 :=
  Fin.ofNat 10 (c.toNat - '0'.toNat)

def readFraction? : List Char → Option (List (Fin 10) × List Char)
  | '.' :: rest =>
    match rest.span Char.isDigit with
    | ([], _) => none
    | (digits, rest) => some (digits.map digitOfChar, rest)
  | rest => some ([], rest)

def readExponent? : List Char → Option (Option Int)
  | [] => some none
  | c :: rest => if c == 'e' || c == 'E' then (Text.integer? rest).map some else none

def readUnsigned? (negative : Bool) (text : List Char) : Option Number := do
  let (digits, rest) := text.span Char.isDigit
  guard (isWhole digits)
  let (fraction, rest) ← readFraction? rest
  let exponent ← readExponent? rest
  return { negative, whole := Text.digitsValue digits, fraction, exponent }

def read? : List Char → Option Number
  | '-' :: rest => readUnsigned? true rest
  | text => readUnsigned? false text

def integer? (number : Number) : Option Int :=
  if number.fraction.isEmpty && number.exponent.isNone then
    if !number.negative then some number.whole
    else if number.whole = 0 then none
    else some (-(number.whole : Int))
  else
    none

def natural? (number : Number) : Option Nat :=
  number.integer?.bind Int.toNat?

def ofInt (value : Int) : Number where
  negative := value < 0
  whole := value.natAbs
  fraction := []
  exponent := none

@[simp]
theorem integer?_ofInt (value : Int) : (ofInt value).integer? = some value := by
  have hcases : (ofInt value).integer? =
      if !decide (value < 0) then some (value.natAbs : Int)
      else if value.natAbs = 0 then none
      else some (-(value.natAbs : Int)) := rfl
  rw [hcases]
  by_cases h : value < 0
  · rw [if_neg (by simp [h]), if_neg (by omega)]
    exact congrArg some (by omega)
  · rw [if_pos (by simp [h])]
    exact congrArg some (by omega)

def fractionWritten : List (Fin 10) → List Char
  | [] => []
  | digits => '.' :: digits.map fun digit => Nat.digitChar digit.val

def integerWritten (value : Int) : List Char :=
  if value < 0 then '-' :: Nat.toDigits 10 value.natAbs else Nat.toDigits 10 value.natAbs

def exponentWritten : Option Int → List Char
  | none => []
  | some value => 'e' :: integerWritten value

def written (number : Number) : List Char :=
  (if number.negative then ['-'] else []) ++
    (Nat.toDigits 10 number.whole ++
      (fractionWritten number.fraction ++ exponentWritten number.exponent))

/-! ## Range

A number has a double-precision value unless it is too large. Its significand is made of its leading
digits, as many as fit 64 bits. Both the significand and the power of ten that scales it are rounded
to 53 bits, and so is their product.
-/

/-- Takes digits into a significand while it fits 64 bits, and gives the digits left over. -/
def absorb (significand : Nat) : List (Fin 10) → Nat × List (Fin 10)
  | [] => (significand, [])
  | digit :: rest =>
    let next := 10 * significand + digit.val
    if next < UInt64.size then absorb next rest else (significand, digit :: rest)

/-- The significand of a number and the power of ten that scales it. -/
def scientific (number : Number) : Nat × Int :=
  let whole := absorb 0 ((Nat.toDigits 10 number.whole).map digitOfChar)
  let all := absorb whole.1 number.fraction
  let taken := number.fraction.length - all.2.length
  (all.1, (whole.2.length : Int) - taken + number.exponent.getD 0)

/-- The nearest number with at most 53 significant bits; a tie goes to the even neighbour. -/
def roundTo53Bits (value : Nat) : Nat :=
  let unit := 1 <<< (Nat.log2 value + 1 - 53)
  let low := value / unit
  let rest := value % unit
  let up := unit < 2 * rest || (2 * rest == unit && low % 2 == 1)
  (if up then low + 1 else low) * unit

/-- Halfway between the largest double and the power of two above it. -/
def overflowThreshold : Nat :=
  1 <<< 1024 - 1 <<< 970

/-- Whether the number has a double-precision value. -/
def isFinite (number : Number) : Bool :=
  let (significand, exponent) := number.scientific
  significand == 0 || exponent < 0 ||
    (exponent ≤ 308 &&
      roundTo53Bits significand * roundTo53Bits (Nat.pow 10 exponent.toNat) < overflowThreshold)

end Number

end Verdict.Json
