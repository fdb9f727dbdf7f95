import Verdict.Proofs.Walks
import Verdict.Proofs.Words

/-!
# Displayed trees

A tree is displayed with its leaves as they are and parentheses around every joined pair. Where a
leaf ends can be told from what follows it: nothing, a closing parenthesis or a separator. A leaf
without parentheses, in which no keyword stands alone, holds no such end itself. So a displayed tree
can be told from the text behind it, and then one text shows one tree only.
-/

namespace Verdict.Expr

/-- Whether a leaf can be told from the rest of a displayed tree. It may be empty or untrimmed. -/
structure IsShownText (text : String) : Prop where
  notMem_parentheses : ∀ c ∈ text.toList, c ∉ ['(', ')']
  not_occurs : ∀ connective : Connective,
    Text.occurs connective.separator.toList (" " ++ text ++ " ").toList = false

/-- What stands behind a tree that is displayed, on its own or as an operand. -/
inductive Follows : List Char → Prop where
  | nothing : Follows []
  | closing (rest : List Char) : Follows (')' :: rest)
  | separator (connective : Connective) (rest : List Char) :
      Follows (connective.separator.toList ++ rest)

variable {expr other left right : Expr} {connective : Connective} {text otherText : String}
  {before more rest otherRest : List Char}

theorem display_node_toList (connective : Connective) (left right : Expr) :
    (Expr.node connective left right).display.toList =
      '(' :: (left.display.toList ++ (connective.separator.toList ++
        (right.display.toList ++ [')']))) := by
  simp [display, Connective.separator]

theorem notMem_keyword_of_follows (h : Follows rest) (connective : Connective) :
    ∀ c ∈ rest.head?, c ∉ connective.keyword.toList := by
  intro c hc
  cases h with
  | nothing => cases hc
  | closing rest =>
    cases hc
    cases connective <;> decide
  | separator joint rest =>
    rw [Connective.separator_toList] at hc
    cases hc
    exact connective.space_notMem_keyword

/-- Nothing of a leaf can be taken for what follows a leaf. -/
theorem eq_nil_of_follows (htext : IsShownText text) (hsplit : text.toList = before ++ more)
    (hrest : Follows rest) (hmore : Follows (more ++ rest)) : more = [] := by
  cases more with
  | nil => rfl
  | cons first more =>
    exfalso
    have hfirst : first ∈ text.toList := by simp [hsplit]
    generalize hwhole : first :: more ++ rest = whole at hmore
    cases hmore with
    | nothing => cases hwhole
    | closing others =>
      cases hwhole
      exact htext.notMem_parentheses ')' hfirst (by simp)
    | separator joint others =>
      have hstands : Text.StandsIn joint.keyword.toList text.toList := by
        rw [hsplit]
        apply Text.standsIn_of_spaced_prefix (by simp) (notMem_keyword_of_follows hrest joint)
        rw [hwhole, Connective.separator_toList]
        exact List.prefix_append _ others
      exact joint.not_standsIn_of_not_occurs (htext.not_occurs joint) hstands

theorem leaf_append_inj (htext : IsShownText text) (hother : IsShownText otherText)
    (hrest : Follows rest) (hotherRest : Follows otherRest)
    (h : text.toList ++ rest = otherText.toList ++ otherRest) :
    text = otherText ∧ rest = otherRest := by
  obtain ⟨more, hsplit, hmore⟩ | ⟨more, hsplit, hmore⟩ := List.append_eq_append_iff.mp h
  · have hnone := eq_nil_of_follows hother hsplit hotherRest (hmore ▸ hrest)
    subst hnone
    exact ⟨String.toList_inj.mp (by simpa using hsplit.symm), hmore⟩
  · have hnone := eq_nil_of_follows htext hsplit hrest (hmore ▸ hotherRest)
    subst hnone
    exact ⟨String.toList_inj.mp (by simpa using hsplit), hmore.symm⟩

/-- A leaf cannot be taken for a joined pair, which starts with a parenthesis. -/
theorem leaf_append_ne (htext : IsShownText text) (hrest : Follows rest) (shown : List Char) :
    text.toList ++ rest ≠ '(' :: shown := by
  intro h
  cases hchars : text.toList with
  | nil =>
    rw [hchars, List.nil_append] at h
    subst h
    generalize hwhole : '(' :: shown = whole at hrest
    cases hrest with
    | nothing => cases hwhole
    | closing others => cases hwhole
    | separator joint others =>
      rw [Connective.separator_toList] at hwhole
      cases hwhole
  | cons first others =>
    rw [hchars] at h
    obtain ⟨rfl, -⟩ := List.cons.inj h
    exact htext.notMem_parentheses '(' (by simp [hchars]) (by simp)

theorem separator_append_inj {joint : Connective}
    (h : connective.separator.toList ++ rest = joint.separator.toList ++ otherRest) :
    connective = joint ∧ rest = otherRest := by
  cases connective <;> cases joint <;>
    simp_all [Connective.separator, Connective.keyword]

/-- A displayed tree is told from what follows it, and no other tree is displayed in this way. -/
theorem display_append_inj (hleaves : ∀ text ∈ expr.fringe, IsShownText text)
    (hotherLeaves : ∀ text ∈ other.fringe, IsShownText text) (hrest : Follows rest)
    (hotherRest : Follows otherRest)
    (h : expr.display.toList ++ rest = other.display.toList ++ otherRest) :
    expr = other ∧ rest = otherRest := by
  induction expr generalizing other rest otherRest with
  | leaf text =>
    have htext : IsShownText text := hleaves text (by simp [fringe])
    cases other with
    | leaf otherText =>
      have hother : IsShownText otherText := hotherLeaves otherText (by simp [fringe])
      obtain ⟨rfl, hsame⟩ := leaf_append_inj htext hother hrest hotherRest h
      exact ⟨rfl, hsame⟩
    | node joint otherLeft otherRight =>
      rw [display_node_toList] at h
      exact absurd h (leaf_append_ne htext hrest _)
  | node connective left right ihLeft ihRight =>
    cases other with
    | leaf otherText =>
      have hother : IsShownText otherText := hotherLeaves otherText (by simp [fringe])
      rw [display_node_toList] at h
      exact absurd h.symm (leaf_append_ne hother hotherRest _)
    | node joint otherLeft otherRight =>
      simp only [fringe, List.forall_mem_append] at hleaves hotherLeaves
      simp only [display_node_toList, List.cons_append, List.append_assoc, List.nil_append,
        List.cons.injEq, true_and] at h
      obtain ⟨rfl, hjoined⟩ := ihLeft hleaves.1 hotherLeaves.1 (.separator _ _) (.separator _ _) h
      obtain ⟨rfl, hright⟩ := separator_append_inj hjoined
      obtain ⟨rfl, hclosed⟩ := ihRight hleaves.2 hotherLeaves.2 (.closing _) (.closing _) hright
      exact ⟨rfl, (List.cons.inj hclosed).2⟩

/-- Trees with such leaves are displayed in the same way only if they are the same tree. -/
theorem display_eq_display_iff (hleaves : ∀ text ∈ expr.leaves, IsShownText text)
    (hotherLeaves : ∀ text ∈ other.leaves, IsShownText text) :
    expr.display = other.display ↔ expr = other := by
  rw [leaves_eq_fringe] at hleaves hotherLeaves
  constructor
  · intro h
    have hchars : expr.display.toList ++ [] = other.display.toList ++ [] := by rw [h]
    exact (display_append_inj hleaves hotherLeaves .nothing .nothing hchars).1
  · rintro rfl
    rfl

/-- Two groupings of the same leaves, an empty and two untrimmed ones among them. -/
theorem display_eq_display_iff_grouped :
    let expr : Expr := .node .and (.node .or (.leaf " a > 1") (.leaf "")) (.leaf "xAND ")
    let other : Expr := .node .or (.leaf " a > 1") (.node .and (.leaf "") (.leaf "xAND "))
    (∀ text ∈ expr.leaves, IsShownText text) ∧ other.leaves = expr.leaves ∧
      expr.display = "(( a > 1 OR ) AND xAND )" ∧ other.display = "( a > 1 OR ( AND xAND ))" ∧
      expr.display ≠ other.display := by
  intro expr other
  have hshown : ∀ text ∈ [" a > 1", "", "xAND "], IsShownText text := by
    intro text htext
    simp only [List.mem_cons, List.not_mem_nil, or_false] at htext
    obtain rfl | rfl | rfl := htext <;>
      exact ⟨by simp, fun connective => by cases connective <;> decide⟩
  have hleaves : expr.leaves = [" a > 1", "", "xAND "] := by
    rw [leaves_eq_fringe]
    rfl
  have hotherLeaves : other.leaves = [" a > 1", "", "xAND "] := by
    rw [leaves_eq_fringe]
    rfl
  rw [← hleaves] at hshown
  have hsame : other.leaves = expr.leaves := hotherLeaves.trans hleaves.symm
  have hiff := display_eq_display_iff hshown (hsame ▸ hshown)
  refine ⟨hshown, hsame, by decide +kernel, by decide +kernel, ?_⟩
  rw [ne_eq, hiff]
  decide

/-- A leaf with parentheses of its own may be displayed as a joined pair is. -/
example : (leaf "(a AND b)").display = (node .and (leaf "a") (leaf "b")).display := by
  decide +kernel

end Verdict.Expr
