import Verdict.Proofs.RuleVerdict
import Verdict.Proofs.Words

/-!
# Combined and written conjunctions

Rules may be combined to one conjunction, which leans to the left, or written as one rule with AND
between them, which leans to the right. The clauses of the written rule are those of all the rules
in a row, so both trees have the same leaves and the same outcome in either mode. Only a rule that
ends with a dangling AND may not stand before another one, since it would take the first space of
the joint.
-/

namespace Verdict

namespace Expr

/-! ## One chain for all rows

Every row is joined to a chain of its own, and these chains are joined from the left. A single chain
over all the operands is another way to group the same row. -/

section Rows

variable {first : List Expr} {others : List (List Expr)}

theorem fringe_foldl_chain (connective : Connective) (hrow : ∀ row ∈ first :: others, row ≠ []) :
    ((others.map (Rule.chain connective)).foldl (.node connective)
        (Rule.chain connective first)).fringe =
      (Rule.chain connective (first :: others).flatten).fringe := by
  have hne : (first :: others).flatten ≠ [] :=
    List.append_ne_nil_of_left_ne_nil (hrow first (by simp)) _
  rw [fringe_foldl_node, ← List.map_cons, Rule.fringe_chain connective hne, List.flatMap_map,
    List.flatten_eq_flatMap, List.flatMap_assoc]
  apply List.flatMap_congr
  intro row hmem
  exact Rule.fringe_chain connective (hrow row hmem)

theorem evaluate_foldl_chain (mode : EvaluationMode) (fields : Fields) (connective : Connective)
    (hrow : ∀ row ∈ first :: others, row ≠ []) :
    ((others.map (Rule.chain connective)).foldl (.node connective)
        (Rule.chain connective first)).evaluate mode fields =
      (Rule.chain connective (first :: others).flatten).evaluate mode fields := by
  have hne : (first :: others).flatten ≠ [] :=
    List.append_ne_nil_of_left_ne_nil (hrow first (by simp)) _
  have houtcomes : (first :: others).map (evaluate mode fields ∘ Rule.chain connective) =
      (first :: others).map (connective.joinOutcomes mode ∘ List.map (evaluate mode fields)) := by
    apply List.map_congr_left
    intro row hmem
    exact evaluate_chain mode fields connective (hrow row hmem)
  calc
    _ = connective.joinOutcomes mode
          (((first :: others).map (Rule.chain connective)).map (evaluate mode fields)) :=
      evaluate_foldl_node mode fields connective _ _
    _ = connective.joinOutcomes mode
          (((first :: others).map (List.map (evaluate mode fields))).map
            (connective.joinOutcomes mode)) := by
      rw [List.map_map, houtcomes, List.map_map]
    _ = connective.joinOutcomes mode ((first :: others).flatten.map (evaluate mode fields)) := by
      rw [← Connective.joinOutcomes_flatten, List.map_flatten]
    _ = _ := (evaluate_chain mode fields connective hne).symm

end Rows

end Expr

namespace Rule

def clauseTrees (text : List Char) : List Expr :=
  (Text.splitAll Connective.and.separator.toList text).map (treeOf [.or])

theorem clauseTrees_ne_nil (text : List Char) : clauseTrees text ≠ [] := by
  simpa [clauseTrees] using Text.splitAll_ne_nil _ text

theorem treeOf_eq_chain (text : List Char) :
    treeOf Connective.scanOrder text = chain .and (clauseTrees text) := rfl

theorem clauseTrees_intercalate {texts : List (List Char)} (hne : texts ≠ [])
    (hends : ∀ text ∈ texts.dropLast, ¬ " AND".toList <:+ text) :
    clauseTrees (Connective.and.separator.toList.intercalate texts) =
      texts.flatMap clauseTrees := by
  have hpieces := Text.splitAll_intercalate Connective.and.space_notMem_keyword hne hends
  rw [← Connective.separator_toList] at hpieces
  rw [clauseTrees, hpieces, List.map_flatMap]
  rfl

/-- The rule that is written has the clauses of all the rules in a row. -/
theorem clauseTrees_written {rules : List String} (hne : rules ≠ [])
    (hends : ∀ rule ∈ rules.dropLast, ¬ " AND".toList <:+ rule.toList) :
    clauseTrees (" AND ".intercalate rules).toList =
      ((rules.map String.toList).map clauseTrees).flatten := by
  have hends : ∀ text ∈ (rules.map String.toList).dropLast, ¬ " AND".toList <:+ text := by
    intro text hmem
    rw [← List.map_dropLast] at hmem
    obtain ⟨rule, hrule, rfl⟩ := List.mem_map.mp hmem
    exact hends rule hrule
  rw [String.toList_intercalate, ← List.flatMap_def]
  exact clauseTrees_intercalate (by simpa using hne) hends

/-- The trees that several rules are read to are the chains over their clauses. -/
theorem eq_map_chain_of_areRead {options : ParseOptions} {rules : List String} {exprs : List Expr}
    (h : Expr.AreRead options rules exprs) :
    exprs = ((rules.map String.toList).map clauseTrees).map (chain .and) := by
  induction h with
  | nil => rfl
  | cons hread _ ih => rw [List.map_cons, List.map_cons, List.map_cons, ← ih,
      (Expr.eq_treeOf_of_ofRule hread).1, treeOf_eq_chain]

end Rule

namespace Expr

/--
Rules that are combined and rules that are written with AND between them have the same leaves and
the same outcome.
-/
theorem combined_agrees_with_written {options : ParseOptions} {rules : List String}
    {combined written : Expr}
    (hends : ∀ rule ∈ rules.dropLast, ¬ " AND".toList <:+ rule.toList)
    (hcombined : ofRules options rules = .ok (some combined))
    (hwritten : ofRule options (" AND ".intercalate rules) = .ok written) :
    combined.leaves = written.leaves ∧
      ∀ mode fields, combined.evaluate mode fields = written.evaluate mode fields := by
  cases rules with
  | nil => cases hcombined
  | cons first others =>
    obtain ⟨expr, exprs, hread, hfold⟩ := ofRules_eq_ok hcombined
    cases hfold
    obtain ⟨rfl, rfl⟩ := List.cons.inj (Rule.eq_map_chain_of_areRead hread)
    have hrow : ∀ row ∈ ((first :: others).map String.toList).map Rule.clauseTrees, row ≠ [] := by
      intro row hmem
      obtain ⟨text, -, rfl⟩ := List.mem_map.mp hmem
      exact Rule.clauseTrees_ne_nil text
    rw [(eq_treeOf_of_ofRule hwritten).1, Rule.treeOf_eq_chain,
      Rule.clauseTrees_written (by simp) hends, leaves_eq_fringe, leaves_eq_fringe]
    constructor
    · exact fringe_foldl_chain .and hrow
    · intro mode fields
      exact evaluate_foldl_chain mode fields .and hrow

/-- Both trees come to the alternative whose field is missing, and neither looks behind it. -/
theorem combined_agrees_with_written_mixed :
    let rules := ["a > 1 AND b = 'x' OR c > 0", "d < 2"]
    let combined : Expr := .node .and
      (.node .and (.leaf "a > 1") (.node .or (.leaf "b = 'x'") (.leaf "c > 0"))) (.leaf "d < 2")
    let written : Expr := .node .and (.leaf "a > 1")
      (.node .and (.node .or (.leaf "b = 'x'") (.leaf "c > 0")) (.leaf "d < 2"))
    let fields : Fields := fun name =>
      if name = "a" then some (.integer 5)
      else if name = "b" then some (.text "y")
      else none
    ofRules {} rules = .ok (some combined) ∧
      ofRule {} (" AND ".intercalate rules) = .ok written ∧
      combined.leaves = written.leaves ∧
      combined.evaluate .shortCircuit fields = .error (.unknownField "c") := by
  intro rules combined written fields
  have hcombined : ofRules {} rules = .ok (some combined) := by
    simp only [rules, combined, ofRules, List.foldlM_cons, List.foldlM_nil, joinRule,
      depth_eq_height]
    rfl
  have hwritten : ofRule {} (" AND ".intercalate rules) = .ok written := by
    simp only [rules, written]
    rfl
  obtain ⟨hleaves, hevaluate⟩ :=
    combined_agrees_with_written (by decide) hcombined hwritten
  refine ⟨hcombined, hwritten, hleaves, ?_⟩
  rw [hevaluate]
  rfl

end Expr

end Verdict
