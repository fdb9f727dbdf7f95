import Verdict.Expr.Basic

namespace Verdict

theorem Connective.separator_toList_ne_nil (connective : Connective) :
    connective.separator.toList ≠ [] := by
  cases connective <;> decide

/--
The tree of a segment, without any limit. It is cut at its first AND, or if it has none at its first
OR, and both sides are read in the same way.
-/
def Expr.ofFirstCuts (text : List Char) : Expr :=
  match hand : Text.cut? Connective.and.separator.toList text with
  | some (before, after) =>
    have := Text.length_lt_of_cut? (Connective.separator_toList_ne_nil .and) hand
    .node .and (ofFirstCuts before) (ofFirstCuts after)
  | none =>
    match hor : Text.cut? Connective.or.separator.toList text with
    | some (before, after) =>
      have := Text.length_lt_of_cut? (Connective.separator_toList_ne_nil .or) hor
      .node .or (ofFirstCuts before) (ofFirstCuts after)
    | none => .comparison text
termination_by text.length

end Verdict
