import Mathlib.Data.List.Chain
import Verdict.Proofs.Splitting
import Verdict.Rule.FirstCut
import Verdict.Rule.Segment

/-!
# Segments within segments

Whoever reads a segment may look for its governing connective among all connectives, and read each
part in the same way again. A part holds none of the connectives that its segment does not hold, and
the one that governs the segment is gone from it, so every reading that is nested in another has a
connective less to find. Their number is bounded by the connectives, however long the text is, and
reading a part only with the tighter connectives gives the same answer.
-/

namespace Verdict.Rule

/-- The loosest connective that occurs in a text. -/
def governing? (text : List Char) : Option Connective :=
  Connective.scanOrder.find? fun connective => Text.occurs connective.separator.toList text

/-- To read the text is to read the part, too. -/
def Needs (text part : List Char) : Prop :=
  ∃ connective, governing? text = some connective ∧
    part ∈ Text.splitAll connective.separator.toList text

/-- Reads a segment and leaves its parts to `readPart`. -/
def readOnce (limit : Nat) (readPart : List Char → Except RuleError Measured)
    (text : List Char) : Except RuleError Measured :=
  match governing? text with
  | none => .ok (Expr.comparison text, 1)
  | some connective =>
    let parts := Text.splitAll connective.separator.toList text
    if limit < parts.length then
      .error (.tooDeep limit)
    else
      joinParts connective limit readPart parts.reverse

/--
Reads a segment with as many readings nested in each other as the fuel allows. One that goes beyond
the fuel answers whatever `beyond` answers.
-/
def readNested (limit : Nat) (beyond : List Char → Except RuleError Measured) :
    (fuel : Nat) → List Char → Except RuleError Measured
  | 0 => beyond
  | fuel + 1 => readOnce limit (readNested limit beyond fuel)

variable {limit fuel : Nat} {text part : List Char} {connective : Connective}
  {skipped tighter : List Connective} {parts nested : List (List Char)}
  {readPart other beyond : List Char → Except RuleError Measured}

/-- The connectives that occur in a text, from the loosest to the tightest. -/
def connectivesIn (text : List Char) : List Connective :=
  Connective.scanOrder.filter fun connective => Text.occurs connective.separator.toList text

theorem governing?_eq_head? (text : List Char) : governing? text = (connectivesIn text).head? :=
  List.head?_filter.symm

/-- A part holds neither the connective that it is cut at nor any that its segment does not hold. -/
theorem occurs_part (hpart : part ∈ Text.splitAll connective.separator.toList text)
    {other : Connective}
    (h : other = connective ∨ Text.occurs other.separator.toList text = false) :
    Text.occurs other.separator.toList part = false := by
  obtain ⟨hwithin, hgone⟩ := Text.infix_of_mem_splitAll connective.separator_toList_ne_nil hpart
  obtain rfl | habsent := h
  · exact hgone
  · exact Text.occurs_eq_false_of_infix hwithin habsent

/-- The connectives of a part are among those of its segment that do not govern it. -/
theorem connectivesIn_of_needs (h : Needs text part) : ∃ connective tighter,
    governing? text = some connective ∧ connectivesIn text = connective :: tighter ∧
      (connectivesIn part).Sublist tighter := by
  obtain ⟨connective, hgoverning, hpart⟩ := h
  obtain ⟨tighter, hconnectives⟩ : ∃ tighter, connectivesIn text = connective :: tighter := by
    rwa [governing?_eq_head?, List.head?_eq_some_iff] at hgoverning
  -- Whatever occurs in the part occurs in the segment, too.
  have hsubset : connectivesIn part =
      (connectivesIn text).filter fun other => Text.occurs other.separator.toList part := by
    rw [connectivesIn, connectivesIn, List.filter_filter]
    refine List.filter_congr fun other _ => ?_
    by_cases hother : Text.occurs other.separator.toList text = true
    · simp [hother]
    · simp [hother, occurs_part hpart (.inr (Bool.not_eq_true _ ▸ hother))]
  refine ⟨connective, tighter, hgoverning, hconnectives, ?_⟩
  rw [hsubset, hconnectives, List.filter_cons_of_neg (by simp [occurs_part hpart (.inl rfl)])]
  exact List.filter_sublist

/--
In a row of readings, each needed for the one before it, every reading but the last is governed by a
connective, and no connective governs twice.
-/
theorem governing?_sublist_of_isChain (h : (text :: nested).IsChain Needs) :
    ((text :: nested).map governing?).Sublist ((connectivesIn text).map some ++ [none]) := by
  induction nested generalizing text with
  | nil =>
    rw [List.map_singleton, governing?_eq_head?]
    cases connectivesIn text with
    | nil => exact .refl _
    | cons connective tighter => exact .cons_cons _ (List.nil_sublist _)
  | cons part rest ih =>
    obtain ⟨hneeds, hrest⟩ := List.isChain_cons_cons.mp h
    obtain ⟨connective, tighter, hgoverning, hconnectives, hpart⟩ := connectivesIn_of_needs hneeds
    rw [List.map_cons, hgoverning, hconnectives]
    exact .cons_cons _ ((ih hrest).trans ((hpart.map some).append_right [none]))

theorem joinParts_congr (hne : parts ≠ []) (h : ∀ part ∈ parts, readPart part = other part) :
    joinParts connective limit readPart parts = joinParts connective limit other parts := by
  obtain ⟨last, earlier, rfl⟩ := List.exists_cons_of_ne_nil hne
  obtain ⟨hlast, hearlier⟩ := List.forall_mem_cons.mp h
  rw [joinParts, joinParts, hlast]
  congr 1
  funext joined
  clear hne h
  induction earlier generalizing joined with
  | nil => rfl
  | cons part rest ih =>
    obtain ⟨hpart, hrest⟩ := List.forall_mem_cons.mp hearlier
    rw [List.foldlM_cons, List.foldlM_cons, joinPart, joinPart, hpart]
    congr 1
    funext next
    exact ih hrest next

theorem readOnce_congr (h : ∀ part, Needs text part → readPart part = other part) :
    readOnce limit readPart text = readOnce limit other text := by
  unfold readOnce
  cases hgoverning : governing? text with
  | none => rfl
  | some connective =>
    have hne : (Text.splitAll connective.separator.toList text).reverse ≠ [] := by
      simpa using Text.splitAll_ne_nil _ text
    have hparts : ∀ part ∈ (Text.splitAll connective.separator.toList text).reverse,
        readPart part = other part :=
      fun part hpart => h part ⟨connective, hgoverning, List.mem_reverse.mp hpart⟩
    simp only [joinParts_congr hne hparts]

theorem readSegment_append
    (h : ∀ connective ∈ skipped, Text.occurs connective.separator.toList text = false) :
    readSegment limit (skipped ++ tighter) text = readSegment limit tighter text := by
  induction skipped with
  | nil => rfl
  | cons connective rest ih =>
    obtain ⟨hconnective, hrest⟩ := List.forall_mem_cons.mp h
    rw [List.cons_append, readSegment, if_neg (by simp [hconnective]), ih hrest]

/-- Reading the parts with all connectives is reading them with the tighter ones. -/
theorem readOnce_readSegment (limit : Nat) (text : List Char) :
    readOnce limit (readSegment limit Connective.scanOrder) text =
      readSegment limit Connective.scanOrder text := by
  unfold readOnce
  cases hgoverning : governing? text with
  | none =>
    have habsent : ∀ connective ∈ Connective.scanOrder,
        Text.occurs connective.separator.toList text = false := by
      simpa using List.find?_eq_none.mp hgoverning
    rw [← List.append_nil Connective.scanOrder, readSegment_append habsent]
    rfl
  | some connective =>
    obtain ⟨hoccurs, skipped, tighter, horder, hskipped⟩ :=
      List.find?_eq_some_iff_append.mp hgoverning
    have habsent : ∀ other ∈ skipped, Text.occurs other.separator.toList text = false := by
      simpa using hskipped
    have hne : (Text.splitAll connective.separator.toList text).reverse ≠ [] := by
      simpa using Text.splitAll_ne_nil _ text
    have hparts : ∀ part ∈ (Text.splitAll connective.separator.toList text).reverse,
        readSegment limit Connective.scanOrder part = readSegment limit tighter part := by
      intro part hpart
      rw [List.mem_reverse] at hpart
      -- The looser connectives were not in the segment, and the governing one has been cut away.
      have hgone : ∀ other ∈ skipped ++ [connective],
          Text.occurs other.separator.toList part = false := by
        intro other hother
        apply occurs_part hpart
        obtain hother | hother := List.mem_append.mp hother
        · exact .inr (habsent other hother)
        · exact .inl (List.mem_singleton.mp hother)
      rw [horder, ← List.singleton_append, ← List.append_assoc, readSegment_append hgone]
    rw [horder, readSegment_append habsent, readSegment, if_pos hoccurs, ← horder]
    simp only [joinParts_congr hne hparts]

/-- Fuel for the connectives of a text and for one single condition is enough. -/
theorem readNested_eq_readSegment (hfuel : (connectivesIn text).length < fuel) :
    readNested limit beyond fuel text = readSegment limit Connective.scanOrder text := by
  induction fuel generalizing text with
  | zero => exact absurd hfuel (Nat.not_lt_zero _)
  | succ fuel ih =>
    rw [readNested, ← readOnce_readSegment]
    apply readOnce_congr
    intro part hneeds
    apply ih
    obtain ⟨connective, tighter, -, hconnectives, hpart⟩ := connectivesIn_of_needs hneeds
    have hlength := hpart.length_le
    rw [hconnectives, List.length_cons] at hfuel
    omega

/--
However long a text is, at most three readings are nested in each other: one that is cut at AND, one
at OR, and one of a single condition. For no part holds the connective that it is cut at, and none
gains an AND. So fuel for three nested readings gives the answer that any more fuel gives, and
nothing hangs on what a reading beyond them would answer.
-/
theorem nested_readings_bounded (limit : Nat) (text : List Char) :
    (∀ connective, governing? text = some connective →
      ∀ part ∈ Text.splitAll connective.separator.toList text,
        Text.occurs connective.separator.toList part = false) ∧
    (Text.occurs Connective.and.separator.toList text = false →
      ∀ connective : Connective, ∀ part ∈ Text.splitAll connective.separator.toList text,
        Text.occurs Connective.and.separator.toList part = false) ∧
    (∀ nested, (text :: nested).IsChain Needs → (text :: nested).length ≤ 3 ∧
      ((text :: nested).map governing?).Sublist [some .and, some .or, none]) ∧
    ∀ fuel beyond, 3 ≤ fuel →
      readNested limit beyond fuel text = readSegment limit Connective.scanOrder text := by
  have hconnectives : (connectivesIn text).Sublist [.and, .or] := List.filter_sublist
  refine ⟨?_, ?_, ?_, ?_⟩
  · intro connective _ part hpart
    exact occurs_part hpart (.inl rfl)
  · intro habsent connective part hpart
    exact occurs_part hpart (.inr habsent)
  · intro nested hchain
    have hrow : ((text :: nested).map governing?).Sublist [some .and, some .or, none] :=
      (governing?_sublist_of_isChain hchain).trans ((hconnectives.map some).append_right [none])
    have hlength := hrow.length_le
    rw [List.length_map] at hlength
    exact ⟨hlength, hrow⟩
  · intro fuel beyond hfuel
    have hlength : (connectivesIn text).length ≤ 2 := hconnectives.length_le
    exact readNested_eq_readSegment (by omega)

/-- A text with both connectives, its first part, and the first part of that. -/
theorem nested_readings_bounded_mixed :
    let text := "a>1 OR b>2 AND c>3".toList
    let clause := "a>1 OR b>2".toList
    let condition := "a>1".toList
    (governing? text = some .and ∧ clause ∈ Text.splitAll " AND ".toList text ∧
      Text.occurs " AND ".toList clause = false) ∧
    (condition ∈ Text.splitAll " OR ".toList clause ∧
      Text.occurs " AND ".toList condition = false) ∧
    ([text, clause, condition].IsChain Needs ∧ [text, clause, condition].length ≤ 3 ∧
      ([text, clause, condition].map governing?).Sublist [some .and, some .or, none]) ∧
    readNested 3 (fun _ => .error .emptyRule) 3 text =
      readSegment 3 Connective.scanOrder text := by
  intro text clause condition
  have hand : governing? text = some .and := by decide +kernel
  have hor : governing? clause = some .or := by decide +kernel
  have hclause : clause ∈ Text.splitAll Connective.and.separator.toList text := by decide +kernel
  have hcondition : condition ∈ Text.splitAll Connective.or.separator.toList clause := by
    decide +kernel
  have habsent : Text.occurs Connective.and.separator.toList clause = false := by decide +kernel
  have hchain : [text, clause, condition].IsChain Needs :=
    .cons_cons ⟨.and, hand, hclause⟩ (.cons_cons ⟨.or, hor, hcondition⟩ (.singleton _))
  obtain ⟨hgone, -, hrow, hread⟩ := nested_readings_bounded 3 text
  obtain ⟨-, hnone, -, -⟩ := nested_readings_bounded 3 clause
  exact ⟨⟨hand, hclause, hgone .and hand clause hclause⟩,
    ⟨hcondition, hnone habsent .or condition hcondition⟩, ⟨hchain, hrow _ hchain⟩,
    hread 3 _ (Nat.le_refl 3)⟩

end Verdict.Rule
