namespace Verdict.Text

/-- The code points with the property White_Space, as inclusive ranges in increasing order. -/
def blankRanges : List (Nat × Nat) :=
  [(0x0009, 0x000D), (0x0020, 0x0020), (0x0085, 0x0085), (0x00A0, 0x00A0), (0x1680, 0x1680),
    (0x2000, 0x200A), (0x2028, 0x2029), (0x202F, 0x202F), (0x205F, 0x205F), (0x3000, 0x3000)]

def isBlank (c : Char) : Bool :=
  blankRanges.any fun range => range.1 ≤ c.toNat && c.toNat ≤ range.2

def trimLeft (text : List Char) : List Char :=
  text.dropWhile isBlank

def trimRight (text : List Char) : List Char :=
  (trimLeft text.reverse).reverse

def trim (text : List Char) : List Char :=
  trimRight (trimLeft text)

def compact (text : List Char) : List Char :=
  text.filter fun c => !isBlank c

@[simp]
theorem mem_compact_iff (c : Char) (text : List Char) :
    c ∈ compact text ↔ c ∈ text ∧ isBlank c = false := by
  simp [compact]

@[simp]
theorem compact_append (left right : List Char) :
    compact (left ++ right) = compact left ++ compact right := by
  simp [compact]

@[simp]
theorem compact_compact (text : List Char) : compact (compact text) = compact text := by
  simp [compact]

end Verdict.Text
