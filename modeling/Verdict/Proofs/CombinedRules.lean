import Verdict.Proofs.RuleReading

/-!
# The first failure of several rules

Several rules are read one after the other, and each is joined to the tree of those before it. A
rule that is refused ends this with its own error, and so does a rule, other than the first, with
which the tree passes the limit. Of all such rules the first one decides, and if there is none, all
rules are read and joined. The depth of the tree is counted while it grows and never measured again.
A rule stands one level deeper for itself and for each rule behind it, so the depth follows from the
depths of the rules and from their places.
-/

namespace Verdict

/-- A run of steps fails where the first step fails. -/
theorem foldlM_eq_error_iff {α β : Type} {step : β → α → Except RuleError β} {items : List α}
    {state : β} {error : RuleError} :
    items.foldlM step state = .error error ↔
      ∃ before item after last, items = before ++ item :: after ∧
        before.foldlM step state = .ok last ∧ step last item = .error error := by
  induction items generalizing state with
  | nil =>
    constructor
    · intro h
      cases h
    · rintro ⟨before, item, after, last, hitems, -⟩
      exact absurd hitems.symm (by simp)
  | cons first rest ih =>
    rw [List.foldlM_cons, bind_eq_error_iff]
    constructor
    · rintro (hfirst | ⟨next, hnext, hrest⟩)
      · exact ⟨[], first, rest, state, rfl, rfl, hfirst⟩
      · obtain ⟨before, item, after, last, rfl, hbefore, hitem⟩ := ih.mp hrest
        refine ⟨first :: before, item, after, last, rfl, ?_, hitem⟩
        exact bind_eq_ok_iff.mpr ⟨next, hnext, hbefore⟩
    · rintro ⟨_ | ⟨_, before⟩, item, after, last, hitems, hbefore, hitem⟩
      · cases hitems
        cases hbefore
        exact .inl hitem
      · cases hitems
        obtain ⟨next, hnext, hrest⟩ := bind_eq_ok_iff.mp hbefore
        exact .inr ⟨next, hnext, ih.mpr ⟨before, item, after, last, rfl, hrest, hitem⟩⟩

namespace Expr

variable {options : ParseOptions} {text : String} {texts before rules : List String}
  {combined first : Expr} {exprs others : List Expr} {error : RuleError}

theorem areRead_iff_map :
    AreRead options texts exprs ↔ exprs.map .ok = texts.map (ofRule options) := by
  rw [AreRead, eq_comm, ← List.forall₂_eq_eq_eq, List.forall₂_map_left_iff,
    List.forall₂_map_right_iff]

theorem eq_of_areRead {other : List Expr} (h : AreRead options texts exprs)
    (hother : AreRead options texts other) : exprs = other := by
  rw [areRead_iff_map] at h hother
  exact List.map_injective_iff.mpr (fun _ _ => Except.ok.inj) (h.trans hother.symm)

theorem areRead_append_iff {rest : List String} :
    AreRead options (texts ++ rest) exprs ↔
      ∃ read other, exprs = read ++ other ∧ AreRead options texts read ∧
        AreRead options rest other := by
  simp only [areRead_iff_map, List.map_append, List.map_eq_append_iff]

theorem areRead_concat_iff {read : List Expr} (hread : AreRead options texts read) :
    AreRead options (texts ++ [text]) exprs ↔
      ∃ next, ofRule options text = .ok next ∧ exprs = read ++ [next] := by
  rw [areRead_append_iff]
  constructor
  · rintro ⟨other, rest, rfl, hother, hrest⟩
    obtain ⟨next, _, hnext, hnil, rfl⟩ := List.forall₂_cons_left_iff.mp hrest
    rw [List.forall₂_nil_left_iff.mp hnil, eq_of_areRead hother hread]
    exact ⟨next, hnext, rfl⟩
  · rintro ⟨next, hnext, rfl⟩
    exact ⟨read, [next], rfl, hread, .cons hnext .nil⟩

theorem exists_areRead (h : ∀ text ∈ texts, ∃ expr, ofRule options text = .ok expr) :
    ∃ exprs, AreRead options texts exprs := by
  induction texts with
  | nil => exact ⟨[], .nil⟩
  | cons text rest ih =>
    rw [List.forall_mem_cons] at h
    obtain ⟨expr, hread⟩ := h.1
    obtain ⟨exprs, hrest⟩ := ih h.2
    exact ⟨expr :: exprs, .cons hread hrest⟩

/--
The depth of rules that are combined: the first one stands one level deeper for each of the others,
and each of the others one level deeper for itself and for each one behind it. The position of a
rule is the number of rules between it and the first one.
-/
def conjunctionDepth (first : Expr) (others : List Expr) : Nat :=
  (others.mapIdx fun position expr => expr.depth + (others.length - position)).foldl max
    (first.depth + others.length)

theorem depth_node (connective : Connective) (left right : Expr) :
    (Expr.node connective left right).depth = 1 + max left.depth right.depth := by
  simp only [depth_eq_height, height]

theorem depth_foldl_node (first : Expr) (others : List Expr) :
    (others.foldl (.node .and) first).depth = conjunctionDepth first others := by
  induction others generalizing first with
  | nil => rfl
  | cons next rest ih =>
    rw [List.foldl_cons, ih, conjunctionDepth, conjunctionDepth, List.mapIdx_cons, List.foldl_cons,
      depth_node]
    simp only [List.length_cons, Nat.add_sub_add_right]
    congr 1
    omega

theorem depth_eq_of_joinRule {measured result : Rule.Measured}
    (hcounted : measured.1.depth = measured.2) (h : joinRule options measured text = .ok result) :
    result.1.depth = result.2 := by
  obtain ⟨combined, depth⟩ := measured
  obtain rfl : combined.depth = depth := hcounted
  rw [depth_eq_height] at h
  obtain ⟨next, -, -, rfl⟩ := joinRule_eq_ok_iff.mp h
  exact depth_eq_height _

/-- The depth that is counted while rules are joined is the depth of their tree. -/
theorem depth_eq_of_foldlM_joinRule {measured result : Rule.Measured}
    (hcounted : measured.1.depth = measured.2)
    (h : texts.foldlM (joinRule options) measured = .ok result) :
    result.1.depth = result.2 := by
  induction texts generalizing measured with
  | nil =>
    cases h
    exact hcounted
  | cons text rest ih =>
    obtain ⟨next, hnext, hrest⟩ := bind_eq_ok_iff.mp h
    exact ih (depth_eq_of_joinRule hcounted hnext) hrest

/-- A rule fails behind the given ones, which are read and joined. -/
inductive FailsAfter (options : ParseOptions) (before : List String) (text : String) :
    RuleError → Prop where
  /-- The rule is refused. -/
  | refused {error : RuleError} (hrefused : ofRule options text = .error error) :
      FailsAfter options before text error
  /-- With this rule the tree is too deep. The first rule is not joined to any. -/
  | tooDeep {first : Expr} {others : List Expr} (hne : before ≠ [])
      (hread : AreRead options (before ++ [text]) (first :: others))
      (hdeep : options.maxDepth.toNat < (others.foldl (.node .and) first).depth) :
      FailsAfter options before text (.tooDeep options.maxDepth.toNat)

/-- No rule fails behind those before it. -/
def NoneFails (options : ParseOptions) (rules : List String) : Prop :=
  ∀ before text after, rules = before ++ text :: after →
    ∀ error, ¬ FailsAfter options before text error

theorem noneFails_nil : NoneFails options [] := by
  intro before text after hrules
  exact absurd hrules (by simp)

theorem exists_areRead_of_noneFails (h : NoneFails options rules) :
    ∃ exprs, AreRead options rules exprs := by
  apply exists_areRead
  intro text hmem
  obtain ⟨before, after, hrules⟩ := List.append_of_mem hmem
  cases hresult : ofRule options text with
  | error error => exact absurd (.refused hresult) (h before text after hrules error)
  | ok expr => exact ⟨expr, rfl⟩

/-- It is the last rule with which the whole tree would pass the limit. -/
theorem height_le_of_noneFails (h : NoneFails options rules)
    (hread : AreRead options rules (first :: others)) :
    (others.foldl (.node .and) first).height ≤ options.maxDepth.toNat := by
  obtain rfl | ⟨before, last, rfl⟩ := rules.eq_nil_or_concat'
  · cases hread
  by_cases hbefore : before = []
  · subst hbefore
    obtain ⟨hlast, hothers⟩ := List.forall₂_cons.mp hread
    rw [List.forall₂_nil_left_iff.mp hothers]
    exact (eq_treeOf_of_ofRule hlast).2
  · by_contra hdeep
    rw [Nat.not_le, ← depth_eq_height] at hdeep
    exact h before last [] rfl _ (.tooDeep hbefore hread hdeep)

/-- The tree of the first rules is a part of the tree of all rules, so it fits if that one does. -/
theorem noneFails_of_areRead (hread : AreRead options rules (first :: others))
    (hfits : (others.foldl (.node .and) first).height ≤ options.maxDepth.toNat) :
    NoneFails options rules := by
  rintro before text after rfl error hfails
  rw [List.append_cons, areRead_append_iff] at hread
  obtain ⟨read, rest, hexprs, hread, -⟩ := hread
  cases hfails with
  | refused hrefused =>
    obtain ⟨_, _, -, -, htext⟩ := areRead_append_iff.mp hread
    obtain ⟨expr, _, htext, -⟩ := List.forall₂_cons_left_iff.mp htext
    rw [hrefused] at htext
    cases htext
  | tooDeep hne hother hdeep =>
    rw [eq_of_areRead hread hother, List.cons_append] at hexprs
    obtain ⟨rfl, rfl⟩ := List.cons.inj hexprs
    rw [List.foldl_append] at hfits
    rw [depth_eq_height] at hdeep
    exact absurd ((height_le_height_foldl_node .and _ rest).trans hfits) (Nat.not_le.mpr hdeep)

theorem noneFails_iff (hne : rules ≠ []) :
    NoneFails options rules ↔
      ∃ first others, AreRead options rules (first :: others) ∧
        (others.foldl (.node .and) first).height ≤ options.maxDepth.toNat := by
  constructor
  · intro hnone
    obtain ⟨_ | ⟨first, others⟩, hread⟩ := exists_areRead_of_noneFails hnone
    · exact absurd (List.forall₂_nil_right_iff.mp hread) hne
    · exact ⟨first, others, hread, height_le_of_noneFails hnone hread⟩
  · rintro ⟨first, others, hread, hfits⟩
    exact noneFails_of_areRead hread hfits

theorem joinRule_eq_error_iff :
    joinRule options (combined, combined.height) text = .error error ↔
      ofRule options text = .error error ∨
        ∃ next, ofRule options text = .ok next ∧
          options.maxDepth.toNat < (Expr.node .and combined next).height ∧
          error = .tooDeep options.maxDepth.toNat := by
  rw [joinRule_eq, bind_eq_error_iff]
  apply or_congr_right
  apply exists_congr
  intro next
  apply and_congr_right
  intro _
  by_cases hdeep : options.maxDepth.toNat < (Expr.node .and combined next).height
  · simp [hdeep, eq_comm]
  · simp [hdeep]

/-- Behind rules that are read and joined, the rules that are not joined are those that fail. -/
theorem joinRule_eq_error_iff_failsAfter (hne : before ≠ [])
    (hread : AreRead options before (first :: others)) :
    joinRule options (others.foldl (.node .and) first, (others.foldl (.node .and) first).height)
        text = .error error ↔
      FailsAfter options before text error := by
  have hdepth (next : Expr) : ((others ++ [next]).foldl (.node .and) first).depth =
      (Expr.node .and (others.foldl (.node .and) first) next).height := by
    rw [List.foldl_append, depth_eq_height, List.foldl_cons, List.foldl_nil]
  rw [joinRule_eq_error_iff]
  constructor
  · rintro (hrefused | ⟨next, hnext, hdeep, rfl⟩)
    · exact .refused hrefused
    · rw [← hdepth] at hdeep
      exact .tooDeep hne ((areRead_concat_iff hread).mpr ⟨next, hnext, rfl⟩) hdeep
  · rintro (hrefused | ⟨-, hother, hdeep⟩)
    · exact .inl hrefused
    · obtain ⟨next, hnext, hexprs⟩ := (areRead_concat_iff hread).mp hother
      rw [List.cons_append] at hexprs
      obtain ⟨rfl, rfl⟩ := List.cons.inj hexprs
      rw [hdepth] at hdeep
      exact .inr ⟨next, hnext, hdeep, rfl⟩

theorem failsAfter_nil_iff :
    FailsAfter options [] text error ↔ ofRule options text = .error error := by
  constructor
  · rintro (hrefused | ⟨hne, -, -⟩)
    · exact hrefused
    · exact absurd rfl hne
  · exact .refused

theorem ofRules_eq_error_iff {rest : List String} :
    ofRules options (text :: rest) = .error error ↔
      ofRule options text = .error error ∨
        ∃ expr, ofRule options text = .ok expr ∧
          ∃ before rule after combined, rest = before ++ rule :: after ∧
            before.foldlM (joinRule options) (expr, expr.height) = .ok combined ∧
            joinRule options combined rule = .error error := by
  simp only [ofRules, bind_eq_error_iff, foldlM_eq_error_iff, depth_eq_height, pure, Except.pure,
    reduceCtorEq, and_false, exists_false, or_false]

theorem ofRules_eq_error_iff_failsAfter {rest : List String} :
    ofRules options (text :: rest) = .error error ↔
      ∃ before rule after, text :: rest = before ++ rule :: after ∧ NoneFails options before ∧
        FailsAfter options before rule error := by
  rw [ofRules_eq_error_iff]
  constructor
  · rintro (hrefused | ⟨expr, hread, before, rule, after, combined, rfl, hbefore, hrule⟩)
    · exact ⟨[], text, rest, rfl, noneFails_nil, .refused hrefused⟩
    · obtain ⟨exprs, hexprs, hfits, rfl⟩ :=
        (foldlM_joinRule_eq_ok_iff (eq_treeOf_of_ofRule hread).2).mp hbefore
      have hread : AreRead options (text :: before) (expr :: exprs) := .cons hread hexprs
      have hne : text :: before ≠ [] := List.cons_ne_nil _ _
      exact ⟨text :: before, rule, after, rfl, (noneFails_iff hne).mpr ⟨expr, exprs, hread, hfits⟩,
        (joinRule_eq_error_iff_failsAfter hne hread).mp hrule⟩
  · rintro ⟨_ | ⟨_, before⟩, rule, after, hrules, hnone, hfails⟩
    · cases hrules
      exact .inl (failsAfter_nil_iff.mp hfails)
    · cases hrules
      have hne : text :: before ≠ [] := List.cons_ne_nil _ _
      obtain ⟨expr, exprs, hread, hfits⟩ := (noneFails_iff hne).mp hnone
      obtain ⟨hexpr, hexprs⟩ := List.forall₂_cons.mp hread
      refine .inr ⟨expr, hexpr, before, rule, after, _, rfl, ?_,
        (joinRule_eq_error_iff_failsAfter hne hread).mpr hfails⟩
      exact (foldlM_joinRule_eq_ok_iff (eq_treeOf_of_ofRule hexpr).2).mpr
        ⟨exprs, hexprs, hfits, rfl⟩

/--
Combining is decided by the first rule that fails, and if none does, all rules are joined. Where
every rule can be read, only their depths decide, and they give the depth of the whole tree.
-/
theorem ofRules_first_failure (options : ParseOptions) {rules : List String} (hne : rules ≠ []) :
    (∀ error, ofRules options rules = .error error ↔
      ∃ before text after, rules = before ++ text :: after ∧ NoneFails options before ∧
        FailsAfter options before text error) ∧
    (NoneFails options rules ↔
      ∃ first others, AreRead options rules (first :: others) ∧
        ofRules options rules = .ok (some (others.foldl (.node .and) first))) ∧
    (∀ first others, AreRead options rules (first :: others) →
      (others.foldl (.node .and) first).leaves = (first :: others).flatMap leaves ∧
      (others.foldl (.node .and) first).depth = conjunctionDepth first others ∧
      ((∃ combined, ofRules options rules = .ok combined) ↔
        conjunctionDepth first others ≤ options.maxDepth.toNat)) ∧
    (∀ (first : Expr) (texts : List String) (result : Rule.Measured),
      texts.foldlM (joinRule options) (first, first.depth) = .ok result →
      result.1.depth = result.2) ∧
    (RuleError.tooDeep options.maxDepth.toNat).message =
      "Malformed rule: Rule nests deeper than " ++ toString options.maxDepth.toNat ++
        " levels" := by
  obtain ⟨text, rest, rfl⟩ := List.exists_cons_of_ne_nil hne
  refine ⟨fun error => ofRules_eq_error_iff_failsAfter, ?_, ?_, ?_, rfl⟩
  · rw [noneFails_iff hne]
    constructor
    · rintro ⟨first, others, hread, hfits⟩
      exact ⟨first, others, hread, ofRules_eq_ok_iff.mpr ⟨first, others, hread, hfits, rfl⟩⟩
    · rintro ⟨_, _, -, hok⟩
      obtain ⟨first, others, hread, hfits, -⟩ := ofRules_eq_ok_iff.mp hok
      exact ⟨first, others, hread, hfits⟩
  · intro first others hread
    refine ⟨?_, depth_foldl_node first others, ?_⟩
    · rw [funext leaves_eq_fringe]
      exact fringe_foldl_node .and first others
    rw [← depth_foldl_node, depth_eq_height]
    constructor
    · rintro ⟨combined, hok⟩
      obtain ⟨other, exprs, hother, hfits, -⟩ := ofRules_eq_ok_iff.mp hok
      obtain ⟨rfl, rfl⟩ := List.cons.inj (eq_of_areRead hread hother)
      exact hfits
    · intro hfits
      exact ⟨_, ofRules_eq_ok_iff.mpr ⟨first, others, hread, hfits, rfl⟩⟩
  · intro first texts result hresult
    exact depth_eq_of_foldlM_joinRule rfl hresult

/--
The third rule makes the tree too deep before the blank one is read. Without these two rules the
limit is just met.
-/
theorem ofRules_first_failure_third :
    let options : ParseOptions := ⟨.deferred, 3⟩
    let rules := ["a > 1 AND b > 1", "c > 1", "d > 1", " "]
    let first : Expr := .node .and (.leaf "a > 1") (.leaf "b > 1")
    ofRules options rules = .error (.tooDeep 3) ∧
      (∃ before text after, rules = before ++ text :: after ∧ NoneFails options before ∧
        FailsAfter options before text (.tooDeep 3)) ∧
      conjunctionDepth first [.leaf "c > 1"] = 3 ∧
      ∃ combined, ofRules options ["a > 1 AND b > 1", "c > 1"] = .ok combined := by
  intro options rules first
  have hfails : ofRules options rules = .error (.tooDeep 3) := by
    simp only [options, rules, ofRules, List.foldlM_cons, List.foldlM_nil, joinRule,
      depth_eq_height]
    rfl
  have hread : AreRead options ["a > 1 AND b > 1", "c > 1"] [first, .leaf "c > 1"] := by
    simp only [options, first]
    exact .cons rfl (.cons rfl .nil)
  have hdepth : conjunctionDepth first [.leaf "c > 1"] = 3 := by
    rw [← depth_foldl_node, depth_eq_height]
    rfl
  have hne : rules ≠ [] := List.cons_ne_nil _ _
  obtain ⟨herror, -⟩ := ofRules_first_failure options hne
  obtain ⟨-, -, haccepted, -⟩ := ofRules_first_failure options (List.cons_ne_nil _ _)
  refine ⟨hfails, (herror _).mp hfails, hdepth, ((haccepted _ _ hread).2.2).mpr ?_⟩
  rw [hdepth]
  decide

end Expr

end Verdict
