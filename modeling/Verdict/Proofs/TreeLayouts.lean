import Verdict.Expr.Json
import Verdict.Proofs.Layouts
import Verdict.Proofs.NamedMembers
import Verdict.Proofs.SoundDocuments

namespace Verdict

namespace Expr

/-- The names of the members that a node reads. -/
def nodeKeys : List String :=
  ["type", "condition", "connective", "left", "right"]

/-- The members are those of a node, in any order, and others whose values are allowed. -/
def NodeMembers (allowed : Json.Document → Prop) (members : Json.Members)
    (fields : List (String × Json.Document)) : Prop :=
  ∃ others, members.Hold nodeKeys fields others ∧ ∀ member ∈ others, allowed member.2

/--
The document describes the tree, with members in any order, texts in any spelling, and allowed
values under other names.
-/
inductive DescribedBy (allowed : Json.Document → Prop) : Expr → Json.Document → Prop where
  | leaf {text : String} {tag condition : Json.Quoted} {members : Json.Members}
      (htag : tag.StandsFor Tag.comparison.name.toList)
      (hcondition : condition.StandsFor text.toList)
      (hmembers : NodeMembers allowed members
        [("type", .string tag), ("condition", .string condition)]) :
      DescribedBy allowed (.leaf text) (.object members)
  | node {connective : Connective} {left right : Expr} {tag keyword : Json.Quoted}
      {leftDocument rightDocument : Json.Document} {members : Json.Members}
      (htag : tag.StandsFor Tag.boolean.name.toList)
      (hkeyword : keyword.StandsFor connective.keyword.toList)
      (hleft : DescribedBy allowed left leftDocument)
      (hright : DescribedBy allowed right rightDocument)
      (hmembers : NodeMembers allowed members
        [("type", .string tag), ("connective", .string keyword), ("left", leftDocument),
          ("right", rightDocument)]) :
      DescribedBy allowed (.node connective left right) (.object members)

variable {allowed : Json.Document → Prop} {isRoot : Bool} {expr : Expr}
  {document : Json.Document} {quoted : Json.Quoted}

theorem ofNode?_of_comparison {condition : Json.Document}
    (h : Parts.ofDocument? isRoot document = some (.comparison condition)) :
    ofNode? isRoot document = condition.content?.map .leaf := by
  rw [ofNode?]
  split <;> simp_all

theorem ofNode?_of_boolean {connective left right : Json.Document}
    (h : Parts.ofDocument? isRoot document = some (.boolean connective left right)) :
    ofNode? isRoot document =
      (Connective.ofDocument? connective).bind fun connective =>
        (ofNode? false left).bind fun left =>
          (ofNode? false right).map fun right => .node connective left right := by
  rw [ofNode?]
  split <;> simp_all

theorem tag_of_standsFor {tag : Tag} (h : quoted.StandsFor tag.name.toList) :
    Tag.ofDocument? isRoot (.string quoted) = some tag := by
  rw [Tag.ofDocument?, Json.Quoted.content?_of_standsFor h]
  cases tag <;> rfl

theorem connective_of_standsFor {connective : Connective}
    (h : quoted.StandsFor connective.keyword.toList) :
    Connective.ofDocument? (.string quoted) = some connective := by
  rw [Connective.ofDocument?, Json.Quoted.content?_of_standsFor h]
  cases connective <;> rfl

theorem isSound_of_standsFor {text : String} (h : quoted.StandsFor text.toList) :
    (Json.Document.string quoted).isSound = true := by
  rw [Json.Document.isSound, Json.Quoted.content?_of_standsFor h]
  rfl

section Members

variable {members : Json.Members} {fields : List (String × Json.Document)}

theorem isSound_of_nodeMembers (h : NodeMembers Json.Document.IsReadable members fields)
    (hfields : ∀ field ∈ fields, field.2.isSound = true) :
    (Json.Document.object members).isSound = true := by
  obtain ⟨others, hhold, hothers⟩ := h
  refine Json.Document.isSound_of_hold hhold hfields fun member hmember => ?_
  exact Json.Document.isSound_of_isReadable (hothers member hmember)

theorem only?_of_nodeMembers (h : NodeMembers allowed members fields) {name : String}
    (hname : name ∈ nodeKeys) {value : Json.Document}
    (hfield : (fields.filter fun field => field.1 == name) = [(name, value)]) :
    members.only? name = some value := by
  obtain ⟨others, hhold, -⟩ := h
  exact Json.Members.only?_of_hold hhold hname hfield

variable {tag condition keyword : Json.Quoted} {left right : Json.Document}

theorem parts_comparison (htag : tag.StandsFor Tag.comparison.name.toList)
    (h : NodeMembers allowed members
      [("type", .string tag), ("condition", .string condition)]) :
    Parts.ofDocument? isRoot (.object members) = some (.comparison (.string condition)) := by
  have htype : members.only? "type" = some (.string tag) :=
    only?_of_nodeMembers h (by decide) rfl
  have hcondition : members.only? "condition" = some (.string condition) :=
    only?_of_nodeMembers h (by decide) rfl
  rw [Parts.ofDocument?, Parts.ofMembers?, htype, hcondition, Option.bind_eq_bind,
    Option.bind_some, tag_of_standsFor htag]
  rfl

theorem parts_boolean (htag : tag.StandsFor Tag.boolean.name.toList)
    (h : NodeMembers allowed members
      [("type", .string tag), ("connective", .string keyword), ("left", left), ("right", right)]) :
    Parts.ofDocument? isRoot (.object members) = some (.boolean (.string keyword) left right) := by
  have htype : members.only? "type" = some (.string tag) :=
    only?_of_nodeMembers h (by decide) rfl
  have hconnective : members.only? "connective" = some (.string keyword) :=
    only?_of_nodeMembers h (by decide) rfl
  have hleft : members.only? "left" = some left := only?_of_nodeMembers h (by decide) rfl
  have hright : members.only? "right" = some right := only?_of_nodeMembers h (by decide) rfl
  rw [Parts.ofDocument?, Parts.ofMembers?, htype, hconnective, hleft, hright, Option.bind_eq_bind,
    Option.bind_some, tag_of_standsFor htag]
  rfl

end Members

theorem isSound_of_describedBy (h : expr.DescribedBy Json.Document.IsReadable document) :
    document.isSound = true := by
  induction h with
  | leaf htag hcondition hmembers =>
    refine isSound_of_nodeMembers hmembers ?_
    simp [isSound_of_standsFor htag, isSound_of_standsFor hcondition]
  | node htag hkeyword _ _ hmembers ihLeft ihRight =>
    refine isSound_of_nodeMembers hmembers ?_
    simp [isSound_of_standsFor htag, isSound_of_standsFor hkeyword, ihLeft, ihRight]

theorem ofNode?_of_describedBy (h : expr.DescribedBy allowed document) (isRoot : Bool) :
    ofNode? isRoot document = some expr := by
  induction h generalizing isRoot with
  | leaf htag hcondition hmembers =>
    rw [ofNode?_of_comparison (parts_comparison htag hmembers), Json.Document.content?,
      Json.Quoted.content?_of_standsFor hcondition]
    rfl
  | node htag hkeyword _ _ hmembers ihLeft ihRight =>
    rw [ofNode?_of_boolean (parts_boolean htag hmembers), connective_of_standsFor hkeyword,
      ihLeft, ihRight]
    rfl

theorem ofDocument?_of_describedBy (h : expr.DescribedBy Json.Document.IsReadable document) :
    ofDocument? document = some expr := by
  rw [ofDocument?, if_pos (isSound_of_describedBy h)]
  exact ofNode?_of_describedBy h true

/-- What is written for a tree describes it, without any other members. -/
theorem describedBy_toDocument (allowed : Json.Document → Prop) (expr : Expr) :
    expr.DescribedBy allowed expr.toDocument := by
  have hmembers (fields : List (String × Json.Document)) :
      NodeMembers allowed (fields.map fun field => (Json.Quoted.ofText field.1, field.2)) fields :=
    ⟨[], Json.Members.hold_ofText nodeKeys fields, by simp⟩
  induction expr with
  | leaf text =>
    exact .leaf (Json.Quoted.standsFor_ofText _) (Json.Quoted.standsFor_ofText _) (hmembers _)
  | node connective left right ihLeft ihRight =>
    exact .node (Json.Quoted.standsFor_ofText _) (Json.Quoted.standsFor_ofText _) ihLeft ihRight
      (hmembers _)

/-- A leaf as it is written, with one more member behind. -/
def leafBeside (text name : String) (value : Json.Document) : Json.Document :=
  .ofMembers
    [("type", .ofString Tag.comparison.name), ("condition", .ofString text), (name, value)]

theorem describedBy_leafBeside (text : String) {name : String} {value : Json.Document}
    (hname : name ∉ nodeKeys) (hvalue : allowed value) :
    DescribedBy allowed (.leaf text) (leafBeside text name value) := by
  have hothers : Json.Members.Avoid [(.ofText name, value)] nodeKeys := by
    rw [Json.Members.Avoid, List.forall_mem_singleton]
    exact ⟨name, Json.Quoted.standsFor_ofText name, hname⟩
  refine .leaf (Json.Quoted.standsFor_ofText _) (Json.Quoted.standsFor_ofText _)
    ⟨[(.ofText name, value)], Json.Members.hold_of_perm hothers (.refl _), ?_⟩
  rwa [List.forall_mem_singleton]

variable {text : String}

theorem ofJson_of_parse? (hnesting : Json.nesting text.toList ≤ defaultMaxDepth)
    (hparse : Json.Document.parse? text = some document)
    (hdocument : ofDocument? document = some expr) : ofJson text = .ok expr := by
  rw [ofJson, if_neg (Nat.not_lt.mpr hnesting), hparse, Option.bind_some, hdocument]

theorem ofJson_of_not_isSound (hlayout : document.LaidOutAs text)
    (hdepth : document.depth ≤ defaultMaxDepth) (h : document.isSound = false) :
    ofJson text = .error .unreadable := by
  have hnesting : ¬ defaultMaxDepth < Json.nesting text.toList := by
    rw [Json.Document.nesting_of_laidOutAs hlayout]
    exact Nat.not_lt.mpr hdepth
  rw [ofJson, if_neg hnesting, Json.Document.parse?_of_laidOutAs hlayout, Option.bind_some,
    ofDocument?, h]
  rfl

/--
A tree is read from every text that is laid out for a document that describes it, if containers lie
at most 256 deep in the document, and if the values that are passed over are readable.
-/
theorem ofJson_of_laidOutAs (hdescribed : expr.DescribedBy Json.Document.IsReadable document)
    (hlayout : document.LaidOutAs text) (hdepth : document.depth ≤ 256) :
    ofJson text = .ok expr := by
  refine ofJson_of_parse? ?_ (Json.Document.parse?_of_laidOutAs hlayout)
    (ofDocument?_of_describedBy hdescribed)
  rw [Json.Document.nesting_of_laidOutAs hlayout]
  exact hdepth

/--
Keys in another order, escapes of several kinds, blanks, and a member that is passed over. The
significand of its number is by one smaller than that of the least number that is refused.
-/
theorem ofJson_of_laidOutAs_escapes :
    let text := "\x7b\n\"pad\":[17976931348623156224E+289,\"]\x7b\"], " ++
      "\"right\":\x7b\"condition\":\"\\uD834\\udd1e=1\",\"type\":\"comparison\"\x7d," ++
      "\"left\":\x7b\"type\":\"comparison\",\"condition\":\"a\\/\"\x7d," ++
      "\"connective\":\"OR\",\"t\\u0079pe\":\"boolean\"\x7d\t"
    let expr : Expr := .node .or (.leaf "a/") (.leaf "𝄞=1")
    ∃ document, expr.DescribedBy Json.Document.IsReadable document ∧ document.LaidOutAs text ∧
      document.depth ≤ 256 ∧ ofJson text = .ok expr := by
  intro text expr
  let number : Json.Number := ⟨false, 17976931348623156224, [], some 289⟩
  let clef : Json.Quoted := [.high 52, .low 286, .char '=', .char '1']
  let pad : Json.Document := .array [.number number, .ofString "]\x7b"]
  let leftMembers : Json.Members :=
    [(.ofText "type", .ofString "comparison"), (.ofText "condition", .ofString "a/")]
  let rightMembers : Json.Members :=
    [(.ofText "condition", .string clef), (.ofText "type", .ofString "comparison")]
  let members : Json.Members :=
    [(.ofText "pad", pad), (.ofText "right", .object rightMembers),
      (.ofText "left", .object leftMembers), (.ofText "connective", .ofString "OR"),
      (.ofText "type", .ofString "boolean")]
  have hclef : clef.StandsFor "𝄞=1".toList := by
    rw [show "𝄞=1".toList = ['𝄞', '=', '1'] by decide]
    exact .halves rfl (.char '=' (.char '1' .nil))
  have hleft : DescribedBy Json.Document.IsReadable (.leaf "a/") (.object leftMembers) :=
    describedBy_toDocument _ (.leaf "a/")
  have hright : DescribedBy Json.Document.IsReadable (.leaf "𝄞=1") (.object rightMembers) := by
    refine .leaf (Json.Quoted.standsFor_ofText _) hclef ⟨[], ?_, by simp⟩
    exact Json.Members.hold_of_perm (by simp [Json.Members.Avoid])
      (List.reverse_perm rightMembers).symm
  have hpad : Json.Members.Avoid [(.ofText "pad", pad)] nodeKeys := by
    rw [Json.Members.Avoid, List.forall_mem_singleton]
    exact ⟨"pad", Json.Quoted.standsFor_ofText "pad", by decide⟩
  have hreadable : pad.IsReadable := by
    have htokens : pad.tokens =
        [.openArray, .number number, .comma, .string (.ofText "]\x7b"), .closeArray] := rfl
    constructor
    · intro other hother
      obtain rfl : other = number := by simpa [htokens] using hother
      have hmagnitude := Json.Number.magnitude_scaled false 17976931348623156224 289
      exact hmagnitude.trans_lt (Nat.cast_lt.mpr (by decide +kernel))
    · intro quoted hquoted
      obtain rfl : quoted = .ofText "]\x7b" := by simpa [htokens] using hquoted
      exact ⟨_, Json.Quoted.standsFor_ofText _⟩
  have hdescribed : expr.DescribedBy Json.Document.IsReadable (.object members) := by
    refine .node (Json.Quoted.standsFor_ofText _) (Json.Quoted.standsFor_ofText _) hleft hright
      ⟨[(.ofText "pad", pad)], Json.Members.hold_of_perm hpad (List.reverse_perm members).symm, ?_⟩
    rwa [List.forall_mem_singleton]
  have hnumber : Json.Token.IsSpelling (.number number) "17976931348623156224E+289".toList := by
    refine .number ⟨"E+289".toList, ?_, by decide +kernel⟩
    exact .present (by decide) (.plus (by decide))
  have hclefSpelling : Json.Token.IsSpelling (.string clef) "\"\\uD834\\udd1e=1\"".toList := by
    refine .string ⟨["\\uD834".toList, Json.unitEscape 0xDD1E, ['='], ['1']], ?_, by decide⟩
    have hdigits : List.Forall₂ Json.IsHexDigit ['D', '8', '3', '4'] (Json.hexDigits 0xD834) :=
      .cons (.inr rfl) (.cons (.inl rfl) (.cons (.inl rfl) (.cons (.inl rfl) .nil)))
    exact .cons (.unit rfl hdigits) (.cons (Json.Piece.isSpelling_unitEscape rfl)
      (.cons (Json.Piece.isSpelling_escape '=') (.cons (Json.Piece.isSpelling_escape '1') .nil)))
  have hslash : Json.Token.IsSpelling (.string (.ofText "a/")) "\"a\\/\"".toList := by
    refine .string ⟨[['a'], ['\\', '/']], ?_, by decide⟩
    exact .cons (Json.Piece.isSpelling_escape 'a') (.cons (.letter (by decide)) .nil)
  have hkey : Json.Token.IsSpelling (.string (.ofText "type")) "\"t\\u0079pe\"".toList := by
    refine .string ⟨[['t'], Json.unitEscape 0x79, ['p'], ['e']], ?_, by decide⟩
    exact .cons (Json.Piece.isSpelling_escape 't') (.cons (Json.Piece.isSpelling_unitEscape rfl)
      (.cons (Json.Piece.isSpelling_escape 'p') (.cons (Json.Piece.isSpelling_escape 'e') .nil)))
  have hlayout : (Json.Document.object members).LaidOutAs text := by
    let name (text : String) : Json.Token := .string (.ofText text)
    have hspelled :=
      Json.isLayout_append (Json.isLayout_flatMap_written [.openObject]) <|
      .blank (c := '\n') (by decide) <|
      Json.isLayout_append (Json.isLayout_flatMap_written [name "pad", .colon, .openArray]) <|
      .token hnumber <|
      Json.isLayout_append (Json.isLayout_flatMap_written
        [.comma, name "]\x7b", .closeArray, .comma]) <|
      .blank (c := ' ') (by decide) <|
      Json.isLayout_append (Json.isLayout_flatMap_written
        [name "right", .colon, .openObject, name "condition", .colon]) <|
      .token hclefSpelling <|
      Json.isLayout_append (Json.isLayout_flatMap_written
        [.comma, name "type", .colon, name "comparison", .closeObject, .comma, name "left", .colon,
          .openObject, name "type", .colon, name "comparison", .comma, name "condition",
          .colon]) <|
      .token hslash <|
      Json.isLayout_append (Json.isLayout_flatMap_written
        [.closeObject, .comma, name "connective", .colon, name "OR", .comma]) <|
      .token hkey <|
      Json.isLayout_append (Json.isLayout_flatMap_written [.colon, name "boolean", .closeObject]) <|
      .blank (c := '\t') (by decide) .nil
    exact (congrArg₂ Json.IsLayout rfl (by decide +kernel)).mp hspelled
  have hdepth : (Json.Document.object members).depth ≤ 256 := by decide +kernel
  exact ⟨_, hdescribed, hlayout, hdepth, ofJson_of_laidOutAs hdescribed hlayout hdepth⟩

/--
Without these bounds on the values that are passed over, a tree may be refused. The number is not
larger than the largest double, and the text is half of a surrogate pair.
-/
theorem ofJson_of_unreadable_member :
    let large := "\x7b\"type\":\"comparison\",\"condition\":\"a>1\"," ++
      "\"pad\":17976931348623156225e289\x7d"
    let half := "\x7b\"type\":\"comparison\",\"condition\":\"a>1\",\"pad\":\"\\ud800\"\x7d"
    (∃ document, DescribedBy Json.Document.InDoubleRange (.leaf "a>1") document ∧
      document.LaidOutAs large ∧ document.depth ≤ 256 ∧ ofJson large = .error .unreadable) ∧
    ∃ document, DescribedBy Json.Document.InDoubleRange (.leaf "a>1") document ∧
      document.LaidOutAs half ∧ document.depth ≤ 256 ∧ ofJson half = .error .unreadable := by
  intro large half
  let number : Json.Number := ⟨false, 17976931348623156225, [], some 289⟩
  let quoted : Json.Quoted := [.high 0]
  have hnumber : (Json.Document.number number).InDoubleRange := by
    intro other hother
    obtain rfl : other = number := by simpa [Json.Document.tokens] using hother
    have hmagnitude := Json.Number.magnitude_scaled false 17976931348623156225 289
    exact hmagnitude.trans_le (Nat.cast_le.mpr (by decide +kernel))
  have hquoted : (Json.Document.string quoted).InDoubleRange := by
    intro other hother
    simp [Json.Document.tokens] at hother
  have hlarge : (leafBeside "a>1" "pad" (.number number)).LaidOutAs large := by
    have htext : (leafBeside "a>1" "pad" (.number number)).toText = large := by decide +kernel
    exact htext ▸ Json.laidOutAs_toText _
  have hhalf : (leafBeside "a>1" "pad" (.string quoted)).LaidOutAs half := by
    have htext : (leafBeside "a>1" "pad" (.string quoted)).toText = half := by decide +kernel
    exact htext ▸ Json.laidOutAs_toText _
  exact ⟨⟨_, describedBy_leafBeside "a>1" (by decide) hnumber, hlarge, by decide,
      ofJson_of_not_isSound hlarge (by decide) (by decide +kernel)⟩,
    _, describedBy_leafBeside "a>1" (by decide) hquoted, hhalf, by decide,
      ofJson_of_not_isSound hhalf (by decide) (by decide +kernel)⟩

end Expr

end Verdict
