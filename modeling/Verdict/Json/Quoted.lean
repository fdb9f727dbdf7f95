/-!
# Quoted text

A quoted text is a list of pieces: characters, and halves of surrogate pairs, which only an escape
can write. A high half directly before a low one stands for one character beyond the first 65536;
any other half stands for nothing, and then the quoted text has no content.
-/

namespace Verdict.Json

inductive Piece where
  | char (c : Char)
  /-- The surrogate `0xD800 + bits`. -/
  | high (bits : Fin 1024)
  /-- The surrogate `0xDC00 + bits`. -/
  | low (bits : Fin 1024)
deriving DecidableEq, Repr

abbrev Quoted := List Piece

namespace Quoted

def joinHalves (high low : Fin 1024) : Char :=
  Char.ofNat (0x10000 + 1024 * high.val + low.val)

/-- Decodes pieces behind the characters decoded so far, which are held backwards. -/
def decodeFrom (done : List Char) : Quoted → Option (List Char)
  | [] => some done.reverse
  | .char c :: rest => decodeFrom (c :: done) rest
  | .high high :: .low low :: rest => decodeFrom (joinHalves high low :: done) rest
  | _ => none

def content? (quoted : Quoted) : Option String :=
  (decodeFrom [] quoted).map String.ofList

/-- The quoted text that stands for a text, without any surrogates. -/
def ofText (text : String) : Quoted :=
  text.toList.map .char

theorem decodeFrom_map_char (done text : List Char) :
    decodeFrom done (text.map .char) = some (done.reverse ++ text) := by
  induction text generalizing done with
  | nil => simp [decodeFrom]
  | cons c rest ih => simp [decodeFrom, ih]

@[simp]
theorem content?_ofText (text : String) : (ofText text).content? = some text := by
  simp [content?, ofText, decodeFrom_map_char]

end Quoted

/-- The characters that a backslash and one letter stand for. -/
def shortEscape? : Char → Option Char
  | '"' => some '"'
  | '\\' => some '\\'
  | '/' => some '/'
  | 'b' => some '\x08'
  | 'f' => some '\x0c'
  | 'n' => some '\n'
  | 'r' => some '\r'
  | 't' => some '\t'
  | _ => none

def hexValue? (c : Char) : Option Nat :=
  if '0' ≤ c ∧ c ≤ '9' then some (c.toNat - '0'.toNat)
  else if 'a' ≤ c ∧ c ≤ 'f' then some (c.toNat - 'a'.toNat + 10)
  else if 'A' ≤ c ∧ c ≤ 'F' then some (c.toNat - 'A'.toNat + 10)
  else none

/-- The piece that a 16-bit code unit stands for. -/
def Piece.ofUnit (unit : Nat) : Piece :=
  if 0xD800 ≤ unit ∧ unit < 0xDC00 then .high (Fin.ofNat 1024 (unit - 0xD800))
  else if 0xDC00 ≤ unit ∧ unit < 0xE000 then .low (Fin.ofNat 1024 (unit - 0xDC00))
  else .char (Char.ofNat unit)

/-- The escape of a code unit, with four hexadecimal digits in lower case. -/
def unitEscape (unit : Nat) : List Char :=
  ['\\', 'u', Nat.digitChar (unit / 4096 % 16), Nat.digitChar (unit / 256 % 16),
    Nat.digitChar (unit / 16 % 16), Nat.digitChar (unit % 16)]

/--
How a character is written: the quote, the backslash and the control characters below U+0020 as
escapes, and every other character as itself.
-/
def escape (c : Char) : List Char :=
  match c with
  | '"' => ['\\', '"']
  | '\\' => ['\\', '\\']
  | '\x08' => ['\\', 'b']
  | '\x0c' => ['\\', 'f']
  | '\n' => ['\\', 'n']
  | '\r' => ['\\', 'r']
  | '\t' => ['\\', 't']
  | c => if c.toNat < 0x20 then unitEscape c.toNat else [c]

def Piece.written : Piece → List Char
  | .char c => escape c
  | .high bits => unitEscape (0xD800 + bits.val)
  | .low bits => unitEscape (0xDC00 + bits.val)

def Quoted.written (quoted : Quoted) : List Char :=
  '"' :: (quoted.flatMap Piece.written ++ ['"'])

end Verdict.Json
