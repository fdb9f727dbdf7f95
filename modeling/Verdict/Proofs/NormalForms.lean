import Verdict.Proofs.WrittenRules

namespace Verdict

theorem Text.trim_infix (text : List Char) : trim text <:+: text := by
  have hleft (text : List Char) : trimLeft text <:+ text := List.dropWhile_suffix _
  have hright : trimRight (trimLeft text) <+: trimLeft text := by
    rw [← List.reverse_suffix, trimRight, List.reverse_reverse]
    exact hleft _
  exact hright.isInfix.trans (hleft text).isInfix

namespace Expr

variable {expr left right part : Expr} {pieces leftPieces rightPieces : List (List Char)}
  {text before after : List Char} {connectives : List Connective}

/-- The connectives between neighbouring leaves, from left to right. -/
def joints : Expr → List Connective
  | .leaf _ => []
  | .node connective left right => left.joints ++ connective :: right.joints

/-- Pieces in a row, with the separators of the given connectives between them. -/
def joinPieces : List Connective → List (List Char) → List Char
  | connective :: connectives, piece :: pieces =>
    piece ++ connective.separator.toList ++ joinPieces connectives pieces
  | _, pieces => pieces.flatten

/-- There is one connective less than there are leaves, so every one stands between two of them. -/
theorem length_fringe (expr : Expr) : expr.fringe.length = expr.joints.length + 1 := by
  induction expr with
  | leaf text => rfl
  | node connective left right ihLeft ihRight =>
    rw [fringe, joints, List.length_append, List.length_append, List.length_cons, ihLeft,
      ihRight]
    omega

theorem joinPieces_append (connective : Connective) (otherConnectives : List Connective)
    (others : List (List Char)) (hlength : pieces.length = connectives.length + 1) :
    joinPieces (connectives ++ connective :: otherConnectives) (pieces ++ others) =
      joinPieces connectives pieces ++ connective.separator.toList ++
        joinPieces otherConnectives others := by
  induction connectives generalizing pieces with
  | nil =>
    obtain ⟨piece, rfl⟩ := List.length_eq_one_iff.mp hlength
    simp [joinPieces]
  | cons first connectives ih =>
    obtain ⟨piece, pieces, rfl⟩ := List.exists_cons_of_length_eq_add_one hlength
    rw [List.length_cons, List.length_cons, Nat.add_right_cancel_iff] at hlength
    rw [List.cons_append, List.cons_append, joinPieces, ih hlength, joinPieces]
    simp only [List.append_assoc]

/-- The pieces are trimmed to the leaves, and with the separators between them they are the text. -/
structure IsCut (expr : Expr) (pieces : List (List Char)) (text : List Char) : Prop where
  fringe_eq : expr.fringe = pieces.map fun piece => String.ofList (Text.trim piece)
  joinPieces_eq : joinPieces expr.joints pieces = text

theorem isCut_comparison (text : List Char) : IsCut (comparison text) [text] text where
  fringe_eq := rfl
  joinPieces_eq := List.flatten_singleton

theorem isCut_node (connective : Connective) (hleft : IsCut left leftPieces before)
    (hright : IsCut right rightPieces after) :
    IsCut (.node connective left right) (leftPieces ++ rightPieces)
      (before ++ connective.separator.toList ++ after) where
  fringe_eq := by rw [fringe, hleft.fringe_eq, hright.fringe_eq, List.map_append]
  joinPieces_eq := by
    have hlength : leftPieces.length = left.joints.length + 1 := by
      rw [← length_fringe, hleft.fringe_eq, List.length_map]
    rw [joints, joinPieces_append connective right.joints rightPieces hlength,
      hleft.joinPieces_eq, hright.joinPieces_eq]

theorem exists_isCut_ofFirstCuts (text : List Char) :
    ∃ pieces, IsCut (ofFirstCuts text) pieces text := by
  fun_induction ofFirstCuts text with
  | case1 text before after hand _ ihBefore ihAfter =>
    obtain ⟨leftPieces, hleft⟩ := ihBefore
    obtain ⟨rightPieces, hright⟩ := ihAfter
    rw [← Text.append_of_cut? hand]
    exact ⟨_, isCut_node .and hleft hright⟩
  | case2 text _ before after hor _ ihBefore ihAfter =>
    obtain ⟨leftPieces, hleft⟩ := ihBefore
    obtain ⟨rightPieces, hright⟩ := ihAfter
    rw [← Text.append_of_cut? hor]
    exact ⟨_, isCut_node .or hleft hright⟩
  | case3 text _ _ => exact ⟨_, isCut_comparison text⟩

/-- No separator is left in a leaf, and trimming cannot make one. -/
theorem occurs_of_mem_fringe {leaf : String} (h : leaf ∈ (ofFirstCuts text).fringe)
    (connective : Connective) :
    Text.occurs connective.separator.toList leaf.toList = false := by
  fun_induction ofFirstCuts text with
  | case1 text before after _ _ ihBefore ihAfter =>
    exact (List.mem_append.mp h).elim ihBefore ihAfter
  | case2 text _ before after _ _ ihBefore ihAfter =>
    exact (List.mem_append.mp h).elim ihBefore ihAfter
  | case3 text hand hor =>
    rw [comparison, fringe, List.mem_singleton] at h
    rw [h, String.toList_ofList]
    apply Text.occurs_eq_false_of_infix (Text.trim_infix text)
    cases connective with
    | and => exact Text.cut?_eq_none_iff.mp hand
    | or => exact Text.cut?_eq_none_iff.mp hor

theorem isAlternatives_chain (pieces : List (List Char)) :
    IsAlternatives (Rule.chain .or (pieces.map comparison)) := by
  induction pieces with
  | nil => exact .single _
  | cons piece rest ih =>
    cases rest with
    | nil => exact .single _
    | cons next rest => exact .or _ ih

theorem isClauses_chain {clauses : List Expr} (hne : clauses ≠ [])
    (hclauses : ∀ clause ∈ clauses, IsAlternatives clause) :
    IsClauses (Rule.chain .and clauses) := by
  induction clauses with
  | nil => exact absurd rfl hne
  | cons clause rest ih =>
    rw [List.forall_mem_cons] at hclauses
    by_cases hrest : rest = []
    · subst hrest
      exact .single hclauses.1
    · rw [Rule.chain_cons clause hrest]
      exact .and hclauses.1 (ih hrest hclauses.2)

theorem isClauses_treeOf (text : List Char) :
    IsClauses (Rule.treeOf Connective.scanOrder text) := by
  rw [Connective.scanOrder, Rule.treeOf]
  apply isClauses_chain
  · simpa using Text.splitAll_ne_nil _ text
  · intro clause hmem
    obtain ⟨segment, -, rfl⟩ := List.mem_map.mp hmem
    exact isAlternatives_chain _

/-- One expression stands in another, at the root or below it. -/
inductive IsWithin (part : Expr) : Expr → Prop where
  | root : IsWithin part part
  | left (connective : Connective) {left : Expr} (right : Expr) (h : IsWithin part left) :
      IsWithin part (.node connective left right)
  | right (connective : Connective) (left : Expr) {right : Expr} (h : IsWithin part right) :
      IsWithin part (.node connective left right)

/-- The conditions on single nodes that make a tree a row of clauses. -/
structure IsNormal (expr : Expr) : Prop where
  /-- No AND stands below an OR. -/
  not_and_below_or : ∀ left right, IsWithin (.node .or left right) expr →
    ∀ first second, ¬ IsWithin (.node .and first second) (.node .or left right)
  left_of_and : ∀ left right, IsWithin (.node .and left right) expr →
    left.connective? ≠ some .and
  left_of_or : ∀ left right, IsWithin (.node .or left right) expr → ∃ text, left = .leaf text

theorem IsAlternatives.of_isWithin (h : IsAlternatives expr) (hpart : IsWithin part expr) :
    IsAlternatives part := by
  induction hpart with
  | root => exact h
  | left connective right hpart ih =>
    cases h with
    | or text hrest => exact ih (.single text)
  | right connective left hpart ih =>
    cases h with
    | or text hrest => exact ih hrest

theorem IsClauses.of_isWithin (h : IsClauses expr) (hpart : IsWithin part expr) :
    IsClauses part := by
  induction hpart with
  | root => exact h
  | left connective right hpart ih =>
    cases h with
    | single hclause => exact .single (hclause.of_isWithin (.left connective right hpart))
    | and hclause hrest => exact ih (.single hclause)
  | right connective left hpart ih =>
    cases h with
    | single hclause => exact .single (hclause.of_isWithin (.right connective left hpart))
    | and hclause hrest => exact ih hrest

theorem not_isAlternatives_and : ¬ IsAlternatives (.node .and left right) := by
  rintro ⟨⟩

theorem isAlternatives_of_isClauses_or (h : IsClauses (.node .or left right)) :
    IsAlternatives (.node .or left right) := by
  cases h with
  | single hclause => exact hclause

theorem isNormal_of_isClauses (h : IsClauses expr) : IsNormal expr where
  not_and_below_or left right hor first second hand := by
    have halternatives := isAlternatives_of_isClauses_or (h.of_isWithin hor)
    exact not_isAlternatives_and (halternatives.of_isWithin hand)
  left_of_and left right hand := by
    cases h.of_isWithin hand with
    | single hclause => exact absurd hclause not_isAlternatives_and
    | and hclause hrest =>
      rintro heq
      cases hclause <;> cases heq
  left_of_or left right hor := by
    cases isAlternatives_of_isClauses_or (h.of_isWithin hor) with
    | or text hrest => exact ⟨text, rfl⟩

/--
Reading keeps the whole text but for the blanks around its pieces, which come in the order of the
leaves, and it gives a normal form.
-/
theorem ofRule_keeps_text {options : ParseOptions} {text : String}
    (hread : ofRule options text = .ok expr) :
    (∃ pieces : List (List Char),
      expr.leaves = pieces.map (fun piece => String.ofList (Text.trim piece)) ∧
        joinPieces expr.joints pieces = text.toList) ∧
    (∀ leaf ∈ expr.leaves, ∀ connective : Connective,
      Text.occurs connective.separator.toList leaf.toList = false) ∧
    IsNormal expr := by
  obtain ⟨rfl, -⟩ := eq_treeOf_of_ofRule hread
  rw [leaves_eq_fringe]
  refine ⟨?_, ?_, isNormal_of_isClauses (isClauses_treeOf _)⟩
  · rw [← Rule.ofFirstCuts_eq_treeOf]
    obtain ⟨pieces, hcut⟩ := exists_isCut_ofFirstCuts text.toList
    exact ⟨pieces, hcut.fringe_eq, hcut.joinPieces_eq⟩
  · intro leaf hmem connective
    rw [← Rule.ofFirstCuts_eq_treeOf] at hmem
    exact occurs_of_mem_fringe hmem connective

/-- A piece may be nothing but blanks, as it is behind a separator with no condition after it. -/
theorem ofRule_keeps_text_dangling :
    let text := " a > 1 OR  AND  b = 'x' AND "
    let expr : Expr := .node .and (.node .or (.leaf "a > 1") (.leaf ""))
      (.node .and (.leaf "b = 'x'") (.leaf ""))
    ofRule {} text = .ok expr ∧
      (∃ pieces : List (List Char),
        expr.leaves = pieces.map (fun piece => String.ofList (Text.trim piece)) ∧
          joinPieces [.or, .and, .and] pieces = text.toList) ∧
      IsNormal expr := by
  intro text expr
  have hread : ofRule {} text = .ok expr := by
    simp only [text, expr]
    rfl
  obtain ⟨hpieces, -, hnormal⟩ := ofRule_keeps_text hread
  exact ⟨hread, hpieces, hnormal⟩

end Expr

end Verdict
