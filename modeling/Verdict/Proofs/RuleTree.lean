import Verdict.Proofs.Splitting
import Verdict.Proofs.Walks
import Verdict.Rule.FirstCut
import Verdict.Rule.Segment

/-!
# The tree of a segment

Without a limit, the tree of a segment is a chain over its pieces, each read with the tighter
connectives. Cutting at first occurrences builds the same tree. Reading with a limit gives this
tree when it fits and refuses it when it does not, wherever in the segment the limit is found out to
be passed.
-/

namespace Verdict.Rule

def chain (connective : Connective) : List Expr → Expr
  | [] => .comparison []
  | [expr] => expr
  | expr :: next :: rest => .node connective expr (chain connective (next :: rest))

/-- The tree of a segment with the given connectives, listed from the loosest to the tightest. -/
def treeOf : List Connective → List Char → Expr
  | [], text => .comparison text
  | connective :: tighter, text =>
    chain connective ((Text.splitAll connective.separator.toList text).map (treeOf tighter))

variable {connective : Connective} {tighter : List Connective} {text before after : List Char}
  {exprs : List Expr}

theorem chain_cons (expr : Expr) (hne : exprs ≠ []) :
    chain connective (expr :: exprs) = .node connective expr (chain connective exprs) := by
  cases exprs with
  | nil => exact absurd rfl hne
  | cons next rest => rfl

theorem length_le_height_chain (connective : Connective) (exprs : List Expr) :
    exprs.length ≤ (chain connective exprs).height := by
  induction exprs with
  | nil => exact Nat.zero_le _
  | cons expr rest ih =>
    cases rest with
    | nil => exact expr.height_pos
    | cons next rest =>
      rw [chain, Expr.height, List.length_cons]
      omega

theorem fringe_chain (connective : Connective) (hne : exprs ≠ []) :
    (chain connective exprs).fringe = exprs.flatMap Expr.fringe := by
  induction exprs with
  | nil => exact absurd rfl hne
  | cons expr rest ih =>
    by_cases hrest : rest = []
    · subst hrest
      simp [chain]
    · rw [chain_cons expr hrest, Expr.fringe, ih hrest, List.flatMap_cons]

theorem treeOf_of_not_occurs
    (h : Text.occurs connective.separator.toList text = false) :
    treeOf (connective :: tighter) text = treeOf tighter text := by
  rw [treeOf, Text.splitAll_of_not_occurs h]
  rfl

theorem treeOf_of_cut?
    (h : Text.cut? connective.separator.toList text = some (before, after)) :
    treeOf (connective :: tighter) text =
      .node connective (treeOf tighter before) (treeOf (connective :: tighter) after) := by
  rw [treeOf, treeOf, Text.splitAll_of_cut? connective.separator_toList_ne_nil h, List.map_cons,
    chain_cons]
  simpa using Text.splitAll_ne_nil _ after

/-- A text without a separator is a single condition. -/
theorem treeOf_eq_comparison
    (h : ∀ connective : Connective, Text.occurs connective.separator.toList text = false) :
    treeOf Connective.scanOrder text = .comparison text := by
  rw [Connective.scanOrder, treeOf_of_not_occurs (h .and), treeOf_of_not_occurs (h .or), treeOf]

/-- Cutting at first occurrences builds the tree that splitting builds. -/
theorem ofFirstCuts_eq_treeOf (text : List Char) :
    Expr.ofFirstCuts text = treeOf Connective.scanOrder text := by
  fun_induction Expr.ofFirstCuts text with
  | case1 text before after hand _ ihBefore ihAfter =>
    -- The part before the first AND has none, so only its ORs are left to read.
    have hbefore : Text.occurs Connective.and.separator.toList before = false :=
      Text.occurs_before_of_cut? Connective.and.separator_toList_ne_nil hand
    rw [ihBefore, ihAfter, Connective.scanOrder, treeOf_of_cut? hand, treeOf_of_not_occurs hbefore]
  | case2 text hand before after hor _ ihBefore ihAfter =>
    rw [Text.cut?_eq_none_iff] at hand
    have hbefore : Text.occurs Connective.or.separator.toList before = false :=
      Text.occurs_before_of_cut? Connective.or.separator_toList_ne_nil hor
    have handBefore := Text.occurs_eq_false_of_infix (Text.before_infix_of_cut? hor) hand
    have handAfter := Text.occurs_eq_false_of_infix (Text.after_infix_of_cut? hor) hand
    rw [ihBefore, ihAfter, Connective.scanOrder, treeOf_of_not_occurs hand, treeOf_of_cut? hor,
      treeOf_of_not_occurs handBefore, treeOf_of_not_occurs handAfter,
      treeOf_of_not_occurs hbefore]
  | case3 text hand hor =>
    rw [Text.cut?_eq_none_iff] at hand hor
    rw [treeOf_eq_comparison]
    rintro (_ | _)
    · exact hand
    · exact hor

section Limit

variable {limit : Nat} {readPart : List Char → Except RuleError Measured}
  {tree : List Char → Expr} {part : List Char} {parts : List (List Char)}

/--
An expression with its depth, or the refusal of one that is too deep. A leaf is never refused here,
also when the limit is zero.
-/
def within (limit : Nat) (expr : Expr) : Except RuleError Measured :=
  if max 1 limit < expr.height then .error (.tooDeep limit) else .ok (expr, expr.height)

theorem joinPart_eq_within (hlimit : 1 ≤ limit) (joined : Expr)
    (hread : readPart part = within limit (tree part)) :
    joinPart connective limit readPart (joined, joined.height) part =
      within limit (.node connective (tree part) joined) := by
  rw [joinPart, hread, within]
  by_cases hdeep : max 1 limit < (tree part).height
  · have hnode : max 1 limit < (Expr.node connective (tree part) joined).height := by
      rw [Expr.height]
      omega
    rw [if_pos hdeep, within, if_pos hnode]
    rfl
  · rw [if_neg hdeep, within, Expr.height, Nat.max_eq_right hlimit, Nat.max_comm]
    rfl

theorem joinParts_concat (hne : parts ≠ []) (part : List Char) :
    joinParts connective limit readPart (parts ++ [part]) =
      joinParts connective limit readPart parts >>= fun joined =>
        joinPart connective limit readPart joined part := by
  cases parts with
  | nil => exact absurd rfl hne
  | cons last earlier =>
    rw [List.cons_append, joinParts, joinParts, bind_assoc]
    congr 1
    funext joined
    rw [List.foldlM_append]
    simp only [List.foldlM_cons, List.foldlM_nil, bind_pure]

/-- The parts are joined to their chain unless the chain is too deep. -/
theorem joinParts_eq_within (hlimit : 1 ≤ limit) (hne : parts ≠ [])
    (hread : ∀ part, readPart part = within limit (tree part)) :
    joinParts connective limit readPart parts.reverse =
      within limit (chain connective (parts.map tree)) := by
  induction parts with
  | nil => exact absurd rfl hne
  | cons part rest ih =>
    rw [List.reverse_cons, List.map_cons]
    by_cases hrest : rest = []
    · subst hrest
      rw [List.reverse_nil, List.nil_append, joinParts, hread]
      exact bind_pure _
    · rw [joinParts_concat (by simpa using hrest), ih hrest, chain_cons _ (by simpa using hrest)]
      generalize chain connective (rest.map tree) = joined
      by_cases hdeep : max 1 limit < joined.height
      · have hnode : max 1 limit < (Expr.node connective (tree part) joined).height := by
          rw [Expr.height]
          omega
        rw [within, if_pos hdeep, within, if_pos hnode]
        rfl
      · rw [within, if_neg hdeep]
        exact joinPart_eq_within hlimit joined (hread part)

/-- A segment is read to its tree unless the tree is too deep. -/
theorem readSegment_eq_within (limit : Nat) (connectives : List Connective) (text : List Char) :
    readSegment limit connectives text = within limit (treeOf connectives text) := by
  induction connectives generalizing text with
  | nil =>
    have hleaf : ¬ max 1 limit < (treeOf [] text).height := by
      rw [treeOf, Expr.comparison, Expr.height_leaf]
      omega
    rw [within, if_neg hleaf]
    rfl
  | cons connective tighter ih =>
    rw [readSegment]
    by_cases hoccurs : Text.occurs connective.separator.toList text = true
    · have hparts := Text.two_le_length_splitAll connective.separator_toList_ne_nil hoccurs
      have hheight : (Text.splitAll connective.separator.toList text).length ≤
          (treeOf (connective :: tighter) text).height := by
        simpa [treeOf] using length_le_height_chain connective
          ((Text.splitAll connective.separator.toList text).map (treeOf tighter))
      rw [if_pos hoccurs]
      by_cases hmany : limit < (Text.splitAll connective.separator.toList text).length
      · have hdeep : max 1 limit < (treeOf (connective :: tighter) text).height := by omega
        rw [if_pos hmany, within, if_pos hdeep]
      · rw [if_neg hmany]
        exact joinParts_eq_within (by omega) (Text.splitAll_ne_nil _ _) ih
    · rw [if_neg hoccurs, ih, treeOf_of_not_occurs (by simpa using hoccurs)]

end Limit

end Verdict.Rule
