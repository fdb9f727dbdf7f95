import Verdict.Proofs.TreeLayouts
import Verdict.Proofs.Walks

namespace Verdict

namespace Expr

theorem depth_toDocument (expr : Expr) : expr.toDocument.depth = expr.height := by
  induction expr with
  | leaf text => rfl
  | node connective left right ihLeft ihRight =>
    change 1 + max 0 (max 0 (max left.toDocument.depth (max right.toDocument.depth 0))) = _
    rw [ihLeft, ihRight, height]
    omega

theorem ofDocument?_toDocument (expr : Expr) : ofDocument? expr.toDocument = some expr :=
  ofDocument?_of_describedBy (describedBy_toDocument _ expr)

theorem nesting_toText (expr : Expr) :
    Json.nesting expr.toDocument.toText.toList = expr.depth := by
  calc
    Json.nesting expr.toDocument.toText.toList = Json.nesting expr.toDocument.written := by
      rw [Json.Document.toText, String.toList_ofList]
    _ = expr.toDocument.depth := Json.nesting_written expr.toDocument
    _ = expr.height := expr.depth_toDocument
    _ = expr.depth := expr.depth_eq_height.symm

theorem ofJson_toText {expr : Expr} (h : expr.depth ≤ defaultMaxDepth) :
    ofJson expr.toDocument.toText = .ok expr := by
  have hnesting : Json.nesting expr.toDocument.toText.toList ≤ defaultMaxDepth := by
    rw [nesting_toText]
    exact h
  exact ofJson_of_parse? hnesting (Json.Document.parse?_toText _) (ofDocument?_toDocument expr)

theorem toJson_eq_ok {expr : Expr} (h : expr.depth ≤ defaultMaxDepth) :
    expr.toJson = .ok expr.toDocument.toText := by
  rw [toJson, if_neg (Nat.not_lt.mpr h)]

theorem toJson_eq_error {expr : Expr} (h : defaultMaxDepth < expr.depth) :
    expr.toJson = .error .treeTooDeep := by
  rw [toJson, if_pos h]

/--
A tree is written exactly if it has at most 256 levels. The scan of brackets finds the number of
its levels in the text, and the text is read back as the tree, whatever stands in its leaves.
-/
theorem toJson_roundTrip (expr : Expr) :
    ((∃ text, expr.toJson = .ok text) ↔ expr.depth ≤ 256) ∧
      (expr.toJson = .error .treeTooDeep ↔ 256 < expr.depth) ∧
      DocumentError.treeTooDeep.message? =
        some "Invalid input: Expression tree nests deeper than 256 levels" ∧
      ∀ text, expr.toJson = .ok text →
        Json.nesting text.toList = expr.depth ∧ ofJson text = .ok expr := by
  obtain hdeep | hdepth := Nat.lt_or_ge defaultMaxDepth expr.depth
  · have hrefused := toJson_eq_error hdeep
    refine ⟨⟨?_, ?_⟩, ⟨fun _ => hdeep, fun _ => hrefused⟩, rfl, ?_⟩
    · rintro ⟨text, htext⟩
      rw [hrefused] at htext
      cases htext
    · intro hdepth
      exact absurd hdepth (Nat.not_le.mpr hdeep)
    · intro text htext
      rw [hrefused] at htext
      cases htext
  · have hwritten := toJson_eq_ok hdepth
    refine ⟨⟨fun _ => hdepth, fun _ => ⟨_, hwritten⟩⟩, ⟨?_, ?_⟩, rfl, ?_⟩
    · intro herror
      rw [hwritten] at herror
      cases herror
    · intro hdeep
      exact absurd hdepth (Nat.not_le.mpr hdeep)
    · intro text htext
      rw [hwritten] at htext
      cases htext
      exact ⟨expr.nesting_toText, ofJson_toText hdepth⟩

/-- Leaves with quotes, backslashes, brackets, control characters and JSON of their own. -/
theorem toJson_roundTrip_leaves :
    let expr : Expr := .node .or (.leaf "a = \"\x7b[\x7d\\")
      (.leaf "\x7b\"type\":\"comparison\"\n\x01]é𝄞")
    let text := "\x7b\"type\":\"boolean\",\"connective\":\"OR\"," ++
      "\"left\":\x7b\"type\":\"comparison\",\"condition\":\"a = \\\"\x7b[\x7d\\\\\"\x7d," ++
      "\"right\":\x7b\"type\":\"comparison\",\"condition\":" ++
      "\"\x7b\\\"type\\\":\\\"comparison\\\"\\n\\u0001]é𝄞\"\x7d\x7d"
    expr.toJson = .ok text ∧ Json.nesting text.toList = 2 ∧ ofJson text = .ok expr := by
  intro expr text
  have hdepth : expr.depth = 2 := by
    rw [depth_eq_height]
    rfl
  have hwritten : expr.toJson = .ok text := by
    rw [toJson, hdepth]
    exact congrArg Except.ok (by decide +kernel)
  obtain ⟨hnesting, hread⟩ := (toJson_roundTrip expr).2.2.2 text hwritten
  exact ⟨hwritten, hnesting.trans hdepth, hread⟩

end Expr

end Verdict
