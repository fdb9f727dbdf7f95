import Verdict.Proofs.RuleReading
import Verdict.Proofs.Words

namespace Verdict.Expr

/-- Conditions joined by OR that lean to the right. -/
inductive IsAlternatives : Expr → Prop where
  | single (text : String) : IsAlternatives (.leaf text)
  | or (text : String) {rest : Expr} (hrest : IsAlternatives rest) :
      IsAlternatives (.node .or (.leaf text) rest)

/-- Alternatives joined by AND that lean to the right. -/
inductive IsClauses : Expr → Prop where
  | single {clause : Expr} (hclause : IsAlternatives clause) : IsClauses clause
  | and {clause rest : Expr} (hclause : IsAlternatives clause) (hrest : IsClauses rest) :
      IsClauses (.node .and clause rest)

/-- The leaves in order, with the separators of their connectives between them. -/
def flatText : Expr → String
  | .leaf text => text
  | .node connective left right => left.flatText ++ connective.separator ++ right.flatText

/-- Whether a text can be a leaf of a rule: trimmed, and without a separator between spaces. -/
structure IsLeafText (text : String) : Prop where
  trim_eq : Text.trim text.toList = text.toList
  not_occurs : ∀ connective : Connective,
    Text.occurs connective.separator.toList (" " ++ text ++ " ").toList = false

variable {expr left right rest : Expr} {text : String} {connective : Connective}

theorem not_standsIn_of_isLeafText (h : IsLeafText text) (connective : Connective) :
    ¬ Text.StandsIn connective.keyword.toList text.toList :=
  connective.not_standsIn_of_not_occurs (h.not_occurs connective)

theorem comparison_of_isLeafText (h : IsLeafText text) :
    comparison text.toList = .leaf text := by
  rw [comparison, h.trim_eq, String.ofList_toList]

theorem flatText_node_toList (connective : Connective) (left right : Expr) :
    (Expr.node connective left right).flatText.toList =
      left.flatText.toList ++ Text.spaced connective.keyword.toList ++ right.flatText.toList := by
  rw [flatText, String.toList_append, String.toList_append, Connective.separator_toList]

theorem treeOf_of_not_standsIn {tighter : List Connective}
    (h : ¬ Text.StandsIn connective.keyword.toList text.toList) :
    Rule.treeOf (connective :: tighter) text.toList = Rule.treeOf tighter text.toList := by
  apply Rule.treeOf_of_not_occurs
  rw [Connective.separator_toList]
  exact Text.occurs_of_not_standsIn h

theorem treeOf_flatText_node {tighter : List Connective}
    (h : ¬ Text.StandsIn connective.keyword.toList left.flatText.toList) :
    Rule.treeOf (connective :: tighter) (Expr.node connective left right).flatText.toList =
      .node connective (Rule.treeOf tighter left.flatText.toList)
        (Rule.treeOf (connective :: tighter) right.flatText.toList) := by
  apply Rule.treeOf_of_cut?
  rw [flatText_node_toList, Connective.separator_toList]
  exact Text.cut?_of_not_standsIn connective.space_notMem_keyword h _

/-- Alternatives hold no AND, since it is neither in a leaf nor the OR between two of them. -/
theorem not_standsIn_flatText (hshape : IsAlternatives expr)
    (hleaves : ∀ text ∈ expr.fringe, IsLeafText text) :
    ¬ Text.StandsIn Connective.and.keyword.toList expr.flatText.toList := by
  induction hshape with
  | single text => exact not_standsIn_of_isLeafText (hleaves text (by simp [fringe])) .and
  | @or text rest _ ih =>
    intro h
    rw [flatText_node_toList] at h
    obtain hleft | hjoint | hrest :=
      Text.standsIn_of_joined Connective.and.space_notMem_keyword h
    · exact not_standsIn_of_isLeafText (hleaves text (by simp [fringe])) .and hleft
    · have hsame := Text.eq_of_standsIn Connective.or.space_notMem_keyword hjoint
      exact absurd hsame (by decide)
    · exact ih (fun other hother => hleaves other (by simp [fringe, hother])) hrest

theorem treeOf_flatText_of_isAlternatives (hshape : IsAlternatives expr)
    (hleaves : ∀ text ∈ expr.fringe, IsLeafText text) :
    Rule.treeOf [.or] expr.flatText.toList = expr := by
  induction hshape with
  | single text =>
    have hleaf := hleaves text (by simp [fringe])
    rw [flatText, treeOf_of_not_standsIn (not_standsIn_of_isLeafText hleaf .or), Rule.treeOf,
      comparison_of_isLeafText hleaf]
  | @or text rest _ ih =>
    have hleaf := hleaves text (by simp [fringe])
    have hfirst : ¬ Text.StandsIn Connective.or.keyword.toList (Expr.leaf text).flatText.toList :=
      not_standsIn_of_isLeafText hleaf .or
    have hrest := ih fun other hother => hleaves other (by simp [fringe, hother])
    rw [treeOf_flatText_node hfirst, hrest, flatText, Rule.treeOf, comparison_of_isLeafText hleaf]

theorem treeOf_flatText (hshape : IsClauses expr)
    (hleaves : ∀ text ∈ expr.fringe, IsLeafText text) :
    Rule.treeOf Connective.scanOrder expr.flatText.toList = expr := by
  induction hshape with
  | single hclause =>
    rw [Connective.scanOrder, treeOf_of_not_standsIn (not_standsIn_flatText hclause hleaves),
      treeOf_flatText_of_isAlternatives hclause hleaves]
  | @and clause rest hclause _ ih =>
    have hleft : ∀ text ∈ clause.fringe, IsLeafText text := fun text htext =>
      hleaves text (List.mem_append_left _ htext)
    have hrest := ih fun text htext => hleaves text (List.mem_append_right _ htext)
    rw [Connective.scanOrder] at hrest ⊢
    rw [treeOf_flatText_node (not_standsIn_flatText hclause hleft), hrest,
      treeOf_flatText_of_isAlternatives hclause hleft]

theorem flatText_not_blank (hleaves : ∀ text ∈ expr.fringe, IsLeafText text)
    (hne : expr ≠ .leaf "") : expr.flatText.toList.all Text.isBlank = false := by
  cases expr with
  | leaf text =>
    have htext : text.toList ≠ [] := fun hnil => hne (by rw [String.toList_eq_nil_iff.mp hnil])
    rw [flatText, ← Text.trim_isEmpty, (hleaves text (by simp [fringe])).trim_eq]
    simpa using htext
  | node connective left right =>
    obtain ⟨c, hc⟩ := List.exists_mem_of_ne_nil _ connective.keyword_ne_nil
    rw [List.all_eq_false]
    refine ⟨c, ?_, by simp [Connective.isBlank_of_mem_keyword hc]⟩
    rw [flatText_node_toList]
    simp [Text.spaced, hc]

/-- A tree that is written out is read back, with every limit that it does not pass. -/
theorem ofRule_flatText {maxDepth : UInt64} (hshape : IsClauses expr)
    (hleaves : ∀ text ∈ expr.leaves, IsLeafText text) (hne : expr ≠ .leaf "")
    (hlimit : expr.depth ≤ maxDepth.toNat) :
    ofRule ⟨.deferred, maxDepth⟩ expr.flatText = .ok expr := by
  rw [leaves_eq_fringe] at hleaves
  rw [depth_eq_height] at hlimit
  rw [ofRule_eq, flatText_not_blank hleaves hne, treeOf_flatText hshape hleaves]
  simp [Nat.not_lt.mpr hlimit, checkLeaves, Except.map]

/-- Empty leaves put separators next to each other, and the limit is the depth of the tree. -/
theorem ofRule_flatText_empty_leaves :
    let expr : Expr := .node .and (.node .or (.leaf "a > 1") (.leaf ""))
      (.node .and (.leaf "") (.leaf "b < 2"))
    expr.flatText = "a > 1 OR  AND  AND b < 2" ∧ expr.depth = 3 ∧
      ofRule ⟨.deferred, 3⟩ "a > 1 OR  AND  AND b < 2" = .ok expr := by
  intro expr
  have htext : expr.flatText = "a > 1 OR  AND  AND b < 2" := by decide +kernel
  have hdepth : expr.depth = 3 := by
    rw [depth_eq_height]
    rfl
  have hshape : IsClauses expr := .and (.or _ (.single _)) (.and (.single _) (.single (.single _)))
  have hleaves : ∀ text ∈ expr.leaves, IsLeafText text := by
    have hmember : ∀ text ∈ ["a > 1", "", "", "b < 2"], IsLeafText text := by
      intro text htext
      simp only [List.mem_cons, List.not_mem_nil, or_false] at htext
      obtain rfl | rfl | rfl | rfl := htext <;>
        exact ⟨by decide, fun connective => by cases connective <;> decide⟩
    rw [leaves_eq_fringe]
    exact hmember
  refine ⟨htext, hdepth, ?_⟩
  rw [← htext]
  exact ofRule_flatText hshape hleaves (by decide) (by rw [hdepth]; decide)

end Verdict.Expr
