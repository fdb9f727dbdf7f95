import Verdict.Json.Number
import Verdict.Json.Quoted

namespace Verdict.Json

inductive Token where
  | openArray
  | closeArray
  | openObject
  | closeObject
  | comma
  | colon
  | null
  | bool (value : Bool)
  | number (value : Number)
  | string (quoted : Quoted)
deriving DecidableEq, Repr

/-- The blanks of JSON. -/
def isSpace (c : Char) : Bool :=
  c == ' ' || c == '\t' || c == '\n' || c == '\r'

def isWordChar (c : Char) : Bool :=
  'a' ≤ c && c ≤ 'z'

def isNumberStart (c : Char) : Bool :=
  c.isDigit || c == '-'

def isNumberChar (c : Char) : Bool :=
  c.isDigit || c == '-' || c == '+' || c == '.' || c == 'e' || c == 'E'

namespace Token

def punctuation? : Char → Option Token
  | '[' => some .openArray
  | ']' => some .closeArray
  | '{' => some .openObject
  | '}' => some .closeObject
  | ',' => some .comma
  | ':' => some .colon
  | _ => none

def ofWord? (word : List Char) : Option Token :=
  if word = "null".toList then some .null
  else if word = "true".toList then some (.bool true)
  else if word = "false".toList then some (.bool false)
  else none

end Token

/-- The token that is open; its characters so far are held backwards. -/
inductive Lexeme where
  | between
  | word (text : List Char)
  | number (text : List Char)
  | quoted (pieces : List Piece)
  | escape (pieces : List Piece)
  /-- Inside the escape of a code unit, with some digits still to come after the next one. -/
  | unit (pieces : List Piece) (missing : Nat) (value : Nat)
deriving DecidableEq, Repr

/-- The open token and the finished ones, which are held backwards. -/
structure Lexer where
  lexeme : Lexeme
  tokens : List Token
deriving DecidableEq, Repr

namespace Lexer

def start : Lexer :=
  ⟨.between, []⟩

def begin? (tokens : List Token) (c : Char) : Option Lexer :=
  if isSpace c then some ⟨.between, tokens⟩
  else if c == '"' then some ⟨.quoted [], tokens⟩
  else if isNumberStart c then some ⟨.number [c], tokens⟩
  else if isWordChar c then some ⟨.word [c], tokens⟩
  else (Token.punctuation? c).map fun token => ⟨.between, token :: tokens⟩

def quotedStep? (tokens : List Token) (pieces : List Piece) (c : Char) : Option Lexer :=
  if c == '"' then some ⟨.between, .string pieces.reverse :: tokens⟩
  else if c == '\\' then some ⟨.escape pieces, tokens⟩
  else if c.toNat < 0x20 then none
  else some ⟨.quoted (.char c :: pieces), tokens⟩

def escapeStep? (tokens : List Token) (pieces : List Piece) (c : Char) : Option Lexer :=
  if c == 'u' then some ⟨.unit pieces 3 0, tokens⟩
  else (shortEscape? c).map fun plain => ⟨.quoted (.char plain :: pieces), tokens⟩

def unitStep? (tokens : List Token) (pieces : List Piece) (missing value : Nat) (c : Char) :
    Option Lexer :=
  (hexValue? c).map fun digit =>
    let value := 16 * value + digit
    match missing with
    | 0 => ⟨.quoted (Piece.ofUnit value :: pieces), tokens⟩
    | missing + 1 => ⟨.unit pieces missing value, tokens⟩

def step? (lexer : Lexer) (c : Char) : Option Lexer :=
  match lexer.lexeme with
  | .between => begin? lexer.tokens c
  | .word text =>
    if isWordChar c then some ⟨.word (c :: text), lexer.tokens⟩
    else (Token.ofWord? text.reverse).bind fun token => begin? (token :: lexer.tokens) c
  | .number text =>
    if isNumberChar c then some ⟨.number (c :: text), lexer.tokens⟩
    else (Number.read? text.reverse).bind fun number => begin? (.number number :: lexer.tokens) c
  | .quoted pieces => quotedStep? lexer.tokens pieces c
  | .escape pieces => escapeStep? lexer.tokens pieces c
  | .unit pieces missing value => unitStep? lexer.tokens pieces missing value c

/-- The tokens at the end of the text, in order. -/
def finish? (lexer : Lexer) : Option (List Token) :=
  match lexer.lexeme with
  | .between => some lexer.tokens.reverse
  | .word text => (Token.ofWord? text.reverse).map fun token => (token :: lexer.tokens).reverse
  | .number text =>
    (Number.read? text.reverse).map fun number => (.number number :: lexer.tokens).reverse
  | _ => none

end Lexer

def tokens? (text : List Char) : Option (List Token) :=
  (text.foldlM Lexer.step? Lexer.start).bind Lexer.finish?

end Verdict.Json
