namespace Verdict.Text

/-- The number that a run of decimal digits names. -/
def digitsValue (digits : List Char) : Nat :=
  Nat.ofDigitChars 10 digits 0

def isDigits (text : List Char) : Bool :=
  !text.isEmpty && text.all Char.isDigit

def natural? (text : List Char) : Option Nat :=
  if isDigits text then some (digitsValue text) else none

/-- The integer named by an optional sign and one or more digits. -/
def integer? : List Char → Option Int
  | '-' :: digits => (natural? digits).map fun value => -(value : Int)
  | '+' :: digits => (natural? digits).map Int.ofNat
  | digits => (natural? digits).map Int.ofNat

/-- The 64-bit integer of a given value, if there is one. -/
def int64? (value : Int) : Option Int64 :=
  if Int64.minValue.toInt ≤ value ∧ value ≤ Int64.maxValue.toInt then some (Int64.ofInt value)
  else none

theorem toInt_of_int64? {value : Int} {word : Int64} (h : int64? value = some word) :
    word.toInt = value := by
  unfold int64? at h
  split at h
  · rename_i hrange
    rw [Int64.toInt_minValue, Int64.toInt_maxValue] at hrange
    cases h
    exact Int64.toInt_ofInt_of_le (by omega) (by omega)
  · cases h

@[simp]
theorem int64?_toInt (word : Int64) : int64? word.toInt = some word := by
  unfold int64?
  rw [if_pos ⟨Int64.minValue_le_toInt word, Int64.toInt_le word⟩, Int64.ofInt_toInt]

end Verdict.Text
