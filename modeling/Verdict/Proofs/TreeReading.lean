import Verdict.Proofs.AcceptedTexts
import Verdict.Proofs.TreeDocuments

namespace Verdict

namespace Json.Document

theorem depth_le_depthOfItems {items : List Document} {item : Document} (h : item ∈ items) :
    item.depth ≤ depthOfItems items := by
  induction items with
  | nil => cases h
  | cons first rest ih =>
    rw [depthOfItems]
    obtain rfl | hrest := List.mem_cons.mp h
    · exact Nat.le_max_left ..
    · exact (ih hrest).trans (Nat.le_max_right ..)

theorem depth_le_depthOfMembers {members : List (Quoted × Document)} {value : Document}
    (h : value ∈ members.map Prod.snd) : value.depth ≤ depthOfMembers members := by
  induction members with
  | nil => cases h
  | cons first rest ih =>
    rw [depthOfMembers]
    obtain rfl | hrest := List.mem_cons.mp h
    · exact Nat.le_max_left ..
    · exact (ih hrest).trans (Nat.le_max_right ..)

theorem depth_lt_of_mem_children {document child : Document} (h : child ∈ document.children) :
    child.depth < document.depth := by
  cases document with
  | array items =>
    have hitem : child.depth ≤ depthOfItems items := depth_le_depthOfItems h
    rw [depth]
    omega
  | object members =>
    have hvalue : child.depth ≤ depthOfMembers members := depth_le_depthOfMembers h
    rw [depth]
    omega
  | _ => cases h

end Json.Document

namespace Expr

variable {isRoot : Bool} {document : Json.Document} {expr : Expr}

theorem Parts.depth_pos_of_ofDocument? {parts : Parts}
    (h : Parts.ofDocument? isRoot document = some parts) : 0 < document.depth := by
  cases document with
  | array items =>
    rw [Json.Document.depth]
    omega
  | object members =>
    rw [Json.Document.depth]
    omega
  | _ => cases h

/-- Every level of a tree is a container of its document. -/
theorem height_le_depth_of_ofNode? (h : ofNode? isRoot document = some expr) :
    expr.height ≤ document.depth := by
  fun_induction ofNode? isRoot document generalizing expr with
  | case1 isRoot document hparts => cases h
  | case2 isRoot document condition hparts =>
    obtain ⟨text, -, rfl⟩ := Option.map_eq_some_iff.mp h
    exact Parts.depth_pos_of_ofDocument? hparts
  | case3 isRoot document keyword left right hparts _ ihLeft ihRight =>
    obtain ⟨connective, -, h⟩ := Option.bind_eq_some_iff.mp h
    obtain ⟨leftExpr, hleft, h⟩ := Option.bind_eq_some_iff.mp h
    obtain ⟨rightExpr, hright, rfl⟩ := Option.map_eq_some_iff.mp h
    obtain ⟨hleftChild, hrightChild⟩ := Parts.mem_children_of_ofDocument? hparts
    have hleftDepth := Json.Document.depth_lt_of_mem_children hleftChild
    have hrightDepth := Json.Document.depth_lt_of_mem_children hrightChild
    have hleftHeight := ihLeft hleft
    have hrightHeight := ihRight hright
    rw [height]
    omega

theorem height_le_depth_of_ofDocument? (h : ofDocument? document = some expr) :
    expr.height ≤ document.depth := by
  unfold ofDocument? at h
  split at h
  · exact height_le_depth_of_ofNode? h
  · cases h

theorem ofJson_eq_ok {text : String} (h : ofJson text = .ok expr) :
    Json.nesting text.toList ≤ defaultMaxDepth ∧
      ∃ document, Json.Document.parse? text = some document ∧ ofDocument? document = some expr := by
  unfold ofJson at h
  split at h
  · cases h
  · rename_i hnesting
    refine ⟨Nat.le_of_not_lt hnesting, Option.bind_eq_some_iff.mp ?_⟩
    split at h
    · rename_i hread
      cases h
      exact hread
    · cases h

/--
A tree that is read from a text is at most as high as the brackets of the text nest, so it can be
written again. What is written for it is read back, and is written the same way from then on.
-/
theorem ofJson_rewritable {text : String} (h : ofJson text = .ok expr) :
    expr.depth ≤ Json.nesting text.toList ∧ Json.nesting text.toList ≤ 256 ∧
      ∃ written, expr.toJson = .ok written ∧ ofJson written = .ok expr ∧
        (ofJson written).bind toJson = .ok written := by
  obtain ⟨hnesting, document, hparse, hdocument⟩ := ofJson_eq_ok h
  have hdepth : expr.depth ≤ Json.nesting text.toList := by
    rw [depth_eq_height, Json.Document.nesting_of_read? hparse]
    exact height_le_depth_of_ofDocument? hdocument
  have hread := ofJson_toText (hdepth.trans hnesting)
  have hwritten := toJson_eq_ok (hdepth.trans hnesting)
  refine ⟨hdepth, hnesting, _, hwritten, hread, ?_⟩
  rw [hread]
  exact hwritten

/-- An object and an array as operands, keys in another order, and a value that is passed over. -/
theorem ofJson_rewritable_mixed :
    let text := "\x7b\"right\":[\"comparison\",\"a = '[\x7b'\"],\"note\":[[[\x7b\"]\":[]\x7d]]]," ++
      "\"connective\":\"OR\",\"type\":\"boolean\"," ++
      "\"left\":\x7b\"condition\":\"b > \\\"1\",\"type\":0\x7d\x7d"
    let expr : Expr := .node .or (.leaf "b > \"1") (.leaf "a = '[\x7b'")
    ofJson text = .ok expr ∧ expr.depth ≤ Json.nesting text.toList ∧
      Json.nesting text.toList ≤ 256 ∧
      ∃ written, expr.toJson = .ok written ∧ ofJson written = .ok expr ∧
        (ofJson written).bind toJson = .ok written := by
  intro text expr
  let left : Json.Document := .ofMembers [("condition", .ofString "b > \"1"), ("type", .ofInt 0)]
  let right : Json.Document := .array [.ofString "comparison", .ofString "a = '[\x7b'"]
  let note : Json.Document := .array [.array [.array [.ofMembers [("]", .array [])]]]]
  let members : List (String × Json.Document) :=
    [("right", right), ("note", note), ("connective", .ofString "OR"),
      ("type", .ofString "boolean"), ("left", left)]
  have htext : text = (Json.Document.ofMembers members).toText := by decide +kernel
  have hsound : (Json.Document.ofMembers members).isSound = true := by decide +kernel
  have hnesting : Json.nesting text.toList = 6 := by decide +kernel
  have hleft : ofNode? false left = some (.leaf "b > \"1") := by
    have hparts : Parts.ofDocument? false left = some (.comparison (.ofString "b > \"1")) := rfl
    rw [ofNode?_of_comparison hparts]
    rfl
  have hright : ofNode? false right = some (.leaf "a = '[\x7b'") := by
    have hparts : Parts.ofDocument? false right =
        some (.comparison (.ofString "a = '[\x7b'")) := rfl
    rw [ofNode?_of_comparison hparts]
    rfl
  have hparts : Parts.ofDocument? true (.ofMembers members) =
      some (.boolean (.ofString "OR") left right) := by
    rw [Json.Document.ofMembers, Parts.ofDocument?, Parts.ofMembers?,
      Json.only?_ofText "type" rfl, Json.only?_ofText "connective" rfl,
      Json.only?_ofText "left" rfl, Json.only?_ofText "right" rfl]
    rfl
  have hread : ofJson text = .ok expr := by
    rw [ofJson, hnesting, if_neg (by decide), htext, Json.Document.parse?_toText, Option.bind_some,
      ofDocument?, if_pos hsound, ofNode?_of_boolean hparts, hleft, hright]
    rfl
  exact ⟨hread, ofJson_rewritable hread⟩

end Expr

end Verdict
