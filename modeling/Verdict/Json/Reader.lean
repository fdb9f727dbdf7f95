import Verdict.Json.Document

/-!
# Reading documents

Tokens are read one at a time. The reader keeps the containers that are still open, from the inner
to the outer, so that no document is too deep for it; a limit on their number is optional.
-/

namespace Verdict.Json

/-- A container that waits for a value, with what it holds so far, backwards. -/
inductive Frame where
  | array (items : List Document)
  | object (members : List (Quoted × Document)) (key : Quoted)

/-- What the reader has seen last, and the containers around it. -/
inductive Reader where
  | beforeValue (frames : List Frame)
  | afterOpenArray (frames : List Frame)
  | afterOpenObject (frames : List Frame)
  | beforeKey (members : List (Quoted × Document)) (frames : List Frame)
  | beforeColon (members : List (Quoted × Document)) (key : Quoted) (frames : List Frame)
  | afterValue (document : Document) (frames : List Frame)

namespace Reader

/-- Whether one more container may be opened inside the given ones. -/
def mayOpen (limit : Option Nat) (frames : List Frame) : Bool :=
  limit.all fun limit => frames.length < limit

def begin? (limit : Option Nat) (frames : List Frame) : Token → Option Reader
  | .openArray => if mayOpen limit frames then some (.afterOpenArray frames) else none
  | .openObject => if mayOpen limit frames then some (.afterOpenObject frames) else none
  | .null => some (.afterValue .null frames)
  | .bool value => some (.afterValue (.bool value) frames)
  | .number value => some (.afterValue (.number value) frames)
  | .string quoted => some (.afterValue (.string quoted) frames)
  | _ => none

def step? (limit : Option Nat) : Reader → Token → Option Reader
  | .beforeValue frames, token => begin? limit frames token
  | .afterOpenArray frames, .closeArray => some (.afterValue (.array []) frames)
  | .afterOpenArray frames, token => begin? limit (.array [] :: frames) token
  | .afterOpenObject frames, .closeObject => some (.afterValue (.object []) frames)
  | .afterOpenObject frames, .string quoted => some (.beforeColon [] quoted frames)
  | .beforeKey members frames, .string quoted => some (.beforeColon members quoted frames)
  | .beforeColon members key frames, .colon => some (.beforeValue (.object members key :: frames))
  | .afterValue document (.array items :: frames), .comma =>
      some (.beforeValue (.array (document :: items) :: frames))
  | .afterValue document (.array items :: frames), .closeArray =>
      some (.afterValue (.array (document :: items).reverse) frames)
  | .afterValue document (.object members key :: frames), .comma =>
      some (.beforeKey ((key, document) :: members) frames)
  | .afterValue document (.object members key :: frames), .closeObject =>
      some (.afterValue (.object ((key, document) :: members).reverse) frames)
  | _, _ => none

def finish? : Reader → Option Document
  | .afterValue document [] => some document
  | _ => none

end Reader

namespace Document

def ofTokens? (limit : Option Nat) (tokens : List Token) : Option Document :=
  (tokens.foldlM (Reader.step? limit) (.beforeValue [])).bind Reader.finish?

/-- The document that a text is, with at most `limit` containers open at any time. -/
def read? (limit : Option Nat) (text : List Char) : Option Document :=
  (tokens? text).bind (ofTokens? limit)

/-- The document that a text is. -/
def parse? (text : String) : Option Document :=
  read? none text.toList

end Document

end Verdict.Json
