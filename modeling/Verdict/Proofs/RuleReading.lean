import Mathlib.Data.List.Forall2
import Mathlib.Data.List.TakeWhile
import Verdict.Proofs.Outcomes
import Verdict.Proofs.RuleTree
import Verdict.Rule.Basic

namespace Verdict

theorem Text.trim_isEmpty (text : List Char) :
    (Text.trim text).isEmpty = text.all Text.isBlank := by
  have hleft : trimLeft text = [] ↔ ∀ c ∈ text, isBlank c = true := List.dropWhile_eq_nil_iff
  rw [Bool.eq_iff_iff, List.isEmpty_iff, List.all_eq_true, ← hleft, trim, trimRight,
    List.reverse_eq_nil_iff, trimLeft, List.dropWhile_eq_nil_iff]
  constructor
  · intro hblank
    by_contra hne
    -- What is left after trimming starts with a character that is not blank.
    have hfirst : isBlank ((trimLeft text).head hne) = false :=
      List.head_dropWhile_not isBlank hne
    rw [hblank _ (List.mem_reverse.mpr (List.head_mem hne))] at hfirst
    cases hfirst
  · intro htrim
    simp [htrim]

namespace Expr

/-- The error of the first leaf that is no condition. -/
def firstFault? (expr : Expr) : Option RuleError :=
  expr.fringe.findSome? fun text => RuleError.ofResult? (Condition.ofText text)

theorem forM_ofText (texts : List String) :
    (texts.forM fun text => (Condition.ofText text).map fun _ => ()) =
      match texts.findSome? fun text => RuleError.ofResult? (Condition.ofText text) with
      | some error => .error error
      | none => .ok () := by
  induction texts with
  | nil => rfl
  | cons text rest ih =>
    rw [List.forM, List.findSome?_cons]
    cases Condition.ofText text with
    | error error => rfl
    | ok condition => exact ih

theorem validate_eq (expr : Expr) :
    expr.validate =
      match expr.firstFault? with
      | some error => .error error
      | none => .ok () := by
  rw [validate, leaves_eq_fringe]
  exact forM_ofText expr.fringe

/-- The order in which a rule text is refused. -/
theorem ofRule_eq (options : ParseOptions) (text : String) :
    ofRule options text =
      if text.toList.all Text.isBlank then .error .emptyRule
      else if options.maxDepth.toNat < (Rule.treeOf Connective.scanOrder text.toList).height then
        .error (.tooDeep options.maxDepth.toNat)
      else
        (checkLeaves options.validation (Rule.treeOf Connective.scanOrder text.toList)).map fun _ =>
          Rule.treeOf Connective.scanOrder text.toList := by
  rw [ofRule, Rule.readSegment_eq_within, Rule.within, Text.trim_isEmpty]
  generalize Rule.treeOf Connective.scanOrder text.toList = tree
  by_cases hblank : text.toList.all Text.isBlank = true
  · rw [if_pos hblank, if_pos hblank]
    rfl
  rw [if_neg hblank, if_neg hblank]
  have hpos := tree.height_pos
  by_cases hdeep : options.maxDepth.toNat < tree.height
  · rw [if_pos hdeep]
    by_cases hearly : max 1 options.maxDepth.toNat < tree.height
    · rw [if_pos hearly]
      rfl
    · rw [if_neg hearly]
      exact if_pos hdeep
  · have hearly : ¬ max 1 options.maxDepth.toNat < tree.height := by omega
    rw [if_neg hdeep, if_neg hearly]
    change (if options.maxDepth.toNat < tree.height then _ else _) = _
    rw [if_neg hdeep]
    cases tree.checkLeaves options.validation with
    | error error => rfl
    | ok checked => rfl

/-- A rule that is read gives the tree of its text, whatever the options. -/
theorem eq_treeOf_of_ofRule {options : ParseOptions} {text : String} {expr : Expr}
    (h : ofRule options text = .ok expr) :
    expr = Rule.treeOf Connective.scanOrder text.toList ∧
      expr.height ≤ options.maxDepth.toNat := by
  rw [ofRule_eq] at h
  split at h
  · cases h
  split at h
  · cases h
  · rename_i hdeep
    cases hcheck : checkLeaves options.validation
        (Rule.treeOf Connective.scanOrder text.toList) with
    | error error =>
      rw [hcheck] at h
      cases h
    | ok checked =>
      rw [hcheck] at h
      cases h
      exact ⟨rfl, Nat.le_of_not_lt hdeep⟩

/-- A text without a separator is read to a single condition, if it passes the checking. -/
theorem ofRule_eq_comparison {options : ParseOptions} {text : String}
    (hseparator : ∀ connective : Connective,
      Text.occurs connective.separator.toList text.toList = false)
    (hblank : text.toList.all Text.isBlank = false) (hlimit : 0 < options.maxDepth.toNat)
    (hchecked : checkLeaves options.validation (comparison text.toList) = .ok ()) :
    ofRule options text = .ok (comparison text.toList) := by
  have hheight : (comparison text.toList).height = 1 := height_leaf _
  rw [ofRule_eq, hblank, Rule.treeOf_eq_comparison hseparator, hheight, hchecked,
    if_neg Bool.false_ne_true, if_neg (Nat.not_lt.mpr hlimit)]
  rfl

theorem checkLeaves_of_firstFault? {validation : Validation} {expr : Expr}
    (h : expr.firstFault? = none) : checkLeaves validation expr = .ok () := by
  cases validation with
  | deferred => rfl
  | eager => rw [checkLeaves, validate_eq, h]

theorem checkLeaves_map (validation : Validation) (expr : Expr) :
    ((checkLeaves validation expr).map fun _ => expr) =
      match validation, expr.firstFault? with
      | .eager, some error => .error error
      | _, _ => .ok expr := by
  cases validation with
  | deferred => rfl
  | eager =>
    rw [checkLeaves, validate_eq]
    cases expr.firstFault? <;> rfl

def AreRead (options : ParseOptions) : List String → List Expr → Prop :=
  List.Forall₂ fun text expr => ofRule options text = .ok expr

variable {options : ParseOptions}

theorem fringe_foldl_node (connective : Connective) (first : Expr) (others : List Expr) :
    (others.foldl (.node connective) first).fringe = (first :: others).flatMap fringe := by
  induction others generalizing first with
  | nil => simp
  | cons next rest ih =>
    rw [List.foldl_cons, ih]
    simp [fringe]

theorem height_le_height_foldl_node (connective : Connective) (first : Expr) (others : List Expr) :
    first.height ≤ (others.foldl (.node connective) first).height := by
  induction others generalizing first with
  | nil => exact Nat.le_refl _
  | cons next rest ih =>
    calc
      first.height ≤ (Expr.node connective first next).height := by
        rw [height]
        omega
      _ ≤ ((next :: rest).foldl (.node connective) first).height := ih _

theorem joinRule_eq (options : ParseOptions) (combined : Expr) (text : String) :
    joinRule options (combined, combined.height) text =
      ofRule options text >>= fun next =>
        if options.maxDepth.toNat < (Expr.node .and combined next).height then
          .error (.tooDeep options.maxDepth.toNat)
        else
          .ok (.node .and combined next, (Expr.node .and combined next).height) := by
  simp only [joinRule, depth_eq_height]
  rfl

theorem joinRule_eq_ok_iff {combined : Expr} {result : Rule.Measured} {text : String} :
    joinRule options (combined, combined.height) text = .ok result ↔
      ∃ next, ofRule options text = .ok next ∧
        (Expr.node .and combined next).height ≤ options.maxDepth.toNat ∧
        result = (.node .and combined next, (Expr.node .and combined next).height) := by
  rw [joinRule_eq, bind_eq_ok_iff]
  apply exists_congr
  intro next
  apply and_congr_right
  intro _
  by_cases hdeep : options.maxDepth.toNat < (Expr.node .and combined next).height
  · simp [hdeep, Nat.not_le.mpr hdeep]
  · simp [hdeep, Nat.le_of_not_lt hdeep, eq_comm]

/-- The rules behind the first ones are all read, and the tree of all rules fits. -/
theorem foldlM_joinRule_eq_ok_iff {others : List String} {combined : Expr} {result : Rule.Measured}
    (hfits : combined.height ≤ options.maxDepth.toNat) :
    others.foldlM (joinRule options) (combined, combined.height) = .ok result ↔
      ∃ exprs, AreRead options others exprs ∧
        (exprs.foldl (.node .and) combined).height ≤ options.maxDepth.toNat ∧
        result = (exprs.foldl (.node .and) combined,
          (exprs.foldl (.node .and) combined).height) := by
  induction others generalizing combined with
  | nil =>
    constructor
    · intro h
      cases h
      exact ⟨[], .nil, hfits, rfl⟩
    · rintro ⟨exprs, hread, -, rfl⟩
      cases hread
      rfl
  | cons text rest ih =>
    rw [List.foldlM_cons, bind_eq_ok_iff]
    constructor
    · rintro ⟨joined, hjoin, hrest⟩
      obtain ⟨next, hnext, hnode, rfl⟩ := joinRule_eq_ok_iff.mp hjoin
      obtain ⟨exprs, hread, hfold, rfl⟩ := (ih hnode).mp hrest
      exact ⟨next :: exprs, .cons hnext hread, hfold, rfl⟩
    · rintro ⟨exprs, hread, hfold, rfl⟩
      cases hread with
      | @cons _ next _ exprs hnext hread =>
        have hnode : (Expr.node .and combined next).height ≤ options.maxDepth.toNat :=
          (height_le_height_foldl_node .and _ exprs).trans hfold
        exact ⟨_, joinRule_eq_ok_iff.mpr ⟨next, hnext, hnode, rfl⟩,
          (ih hnode).mpr ⟨exprs, hread, hfold, rfl⟩⟩

theorem ofRules_eq_ok_iff {first : String} {others : List String} {combined : Option Expr} :
    ofRules options (first :: others) = .ok combined ↔
      ∃ expr exprs, AreRead options (first :: others) (expr :: exprs) ∧
        (exprs.foldl (.node .and) expr).height ≤ options.maxDepth.toNat ∧
        combined = some (exprs.foldl (.node .and) expr) := by
  rw [ofRules, bind_eq_ok_iff]
  apply exists_congr
  intro expr
  rw [depth_eq_height, bind_eq_ok_iff]
  constructor
  · rintro ⟨hfirst, result, hfold, h⟩
    obtain ⟨exprs, hread, hfits, rfl⟩ :=
      (foldlM_joinRule_eq_ok_iff (eq_treeOf_of_ofRule hfirst).2).mp hfold
    cases h
    exact ⟨exprs, .cons hfirst hread, hfits, rfl⟩
  · rintro ⟨exprs, hread, hfits, rfl⟩
    cases hread with
    | cons hfirst hread =>
      exact ⟨hfirst, _,
        (foldlM_joinRule_eq_ok_iff (eq_treeOf_of_ofRule hfirst).2).mpr ⟨exprs, hread, hfits, rfl⟩,
        rfl⟩

theorem ofRules_eq_ok {first : String} {others : List String} {combined : Option Expr}
    (h : ofRules options (first :: others) = .ok combined) :
    ∃ expr exprs, AreRead options (first :: others) (expr :: exprs) ∧
      combined = some (exprs.foldl (.node .and) expr) := by
  obtain ⟨expr, exprs, hread, -, hcombined⟩ := ofRules_eq_ok_iff.mp h
  exact ⟨expr, exprs, hread, hcombined⟩

end Expr

end Verdict
