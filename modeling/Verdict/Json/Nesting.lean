/-!
# Nesting

How deep the brackets of a text nest, found in one pass that knows of JSON only where its quoted
texts end. It works on any text. A closing bracket without an opening one counts for nothing.
-/

namespace Verdict.Json

structure Nesting where
  /-- The brackets that are open. -/
  depth : Nat := 0
  /-- The most brackets that have been open at one time. -/
  deepest : Nat := 0
  quoted : Bool := false
  /-- Whether the last character was a backslash that escapes the next one. -/
  escaped : Bool := false
deriving DecidableEq, Repr

namespace Nesting

def quotedStep (state : Nesting) (c : Char) : Nesting :=
  if state.escaped then { state with escaped := false }
  else if c == '\\' then { state with escaped := true }
  else if c == '"' then { state with quoted := false }
  else state

def plainStep (state : Nesting) (c : Char) : Nesting :=
  if c == '"' then { state with quoted := true }
  else if c == '[' || c == '{' then
    { state with depth := state.depth + 1, deepest := max state.deepest (state.depth + 1) }
  else if c == ']' || c == '}' then { state with depth := state.depth - 1 }
  else state

def step (state : Nesting) (c : Char) : Nesting :=
  if state.quoted then state.quotedStep c else state.plainStep c

end Nesting

/-- The most brackets that are open at one time outside quoted texts. -/
def nesting (text : List Char) : Nat :=
  (text.foldl Nesting.step {}).deepest

end Verdict.Json
