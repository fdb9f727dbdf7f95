import Mathlib.Data.List.Infix
import Verdict.Text.Split

/-!
# Splitting and cutting

A text is split at every occurrence of a separator in one pass, with the finished pieces held in an
accumulator. The same pieces come out when the text is cut at its first occurrence and the rest is
split again, and this is the form that the recursion of the other proofs follows. Occurrence is
containment as an infix, so a piece of a text holds no separator that the text does not hold.
-/

namespace Verdict.Text

variable {separator keyword text piece before after : List Char}

theorem occurs_iff_infix : occurs separator text = true ↔ separator <:+: text := by
  induction text with
  | nil => simp [occurs]
  | cons c rest ih =>
    rw [occurs, Bool.or_eq_true, ih, List.isPrefixOf_iff_prefix, List.infix_cons_iff]

theorem occurs_eq_false_iff : occurs separator text = false ↔ ¬ separator <:+: text := by
  rw [← occurs_iff_infix, Bool.not_eq_true]

theorem occurs_eq_false_of_infix (hpiece : piece <:+: text) (h : occurs separator text = false) :
    occurs separator piece = false := by
  rw [occurs_eq_false_iff] at h ⊢
  exact fun hheld => h (hheld.trans hpiece)

theorem cut?_eq_none_iff : cut? separator text = none ↔ occurs separator text = false := by
  rw [← cut?_isSome, Option.isSome_eq_false_iff, Option.isNone_iff_eq_none]

theorem before_infix_of_cut? (h : cut? separator text = some (before, after)) :
    before <:+: text :=
  ⟨[], separator ++ after, by simpa using append_of_cut? h⟩

theorem after_infix_of_cut? (h : cut? separator text = some (before, after)) :
    after <:+: text :=
  ⟨before ++ separator, [], by simpa using append_of_cut? h⟩

theorem dropLast_prefix_append (before separator after : List Char) :
    before ++ separator.dropLast <+: before ++ separator ++ after := by
  rw [List.append_assoc, List.prefix_append_right_inj]
  exact separator.dropLast_prefix.trans (List.prefix_append separator after)

theorem occurs_append_dropLast_of_cut? (hne : separator ≠ [])
    (h : cut? separator text = some (before, after)) :
    occurs separator (before ++ separator.dropLast) = false := by
  induction text generalizing before with
  | nil => simp [cut?, hne] at h
  | cons c rest ih =>
    have htext := append_of_cut? h
    rw [cut?] at h
    by_cases hprefix : separator.isPrefixOf (c :: rest) = true
    · rw [if_pos hprefix] at h
      cases h
      rw [List.nil_append, occurs_eq_false_iff]
      intro hinfix
      have hlength := hinfix.length_le
      have hpos := List.length_pos_iff.mpr hne
      rw [List.length_dropLast] at hlength
      omega
    · rw [if_neg hprefix] at h
      obtain ⟨⟨before, after⟩, hcut, heq⟩ := Option.map_eq_some_iff.mp h
      cases heq
      rw [List.cons_append, occurs, ih hcut, Bool.or_false, ← Bool.not_eq_true]
      intro hstart
      apply hprefix
      rw [List.isPrefixOf_iff_prefix] at hstart ⊢
      rw [← htext]
      exact hstart.trans (dropLast_prefix_append (c :: before) separator after)

theorem cut?_append_separator (hne : separator ≠ [])
    (h : occurs separator (before ++ separator.dropLast) = false) (after : List Char) :
    cut? separator (before ++ separator ++ after) = some (before, after) := by
  induction before with
  | nil =>
    obtain ⟨first, others, rfl⟩ := List.exists_cons_of_ne_nil hne
    have hprefix : (first :: others).isPrefixOf (first :: (others ++ after)) = true := by simp
    rw [List.nil_append, List.cons_append, cut?, if_pos hprefix]
    simp
  | cons c before ih =>
    rw [List.cons_append, occurs, Bool.or_eq_false_iff] at h
    have hprefix : ¬ separator.isPrefixOf (c :: (before ++ separator ++ after)) = true := by
      intro hprefix
      rw [← Bool.not_eq_true, List.isPrefixOf_iff_prefix] at h
      apply h.1
      rw [List.isPrefixOf_iff_prefix] at hprefix
      apply List.prefix_of_prefix_length_le hprefix
      · exact dropLast_prefix_append (c :: before) separator after
      · rw [List.length_cons, List.length_append, List.length_dropLast]
        omega
    rw [List.cons_append, List.cons_append, cut?, if_neg hprefix, ih h.2]
    rfl

/--
A cut is made at the first occurrence. None starts before it, not even one that would end inside the
separator that is cut out.
-/
theorem cut?_eq_some_iff (hne : separator ≠ []) :
    cut? separator text = some (before, after) ↔
      before ++ separator ++ after = text ∧
        occurs separator (before ++ separator.dropLast) = false := by
  constructor
  · intro h
    exact ⟨append_of_cut? h, occurs_append_dropLast_of_cut? hne h⟩
  · rintro ⟨rfl, hfirst⟩
    exact cut?_append_separator hne hfirst after

theorem occurs_before_of_cut? (hne : separator ≠ [])
    (h : cut? separator text = some (before, after)) : occurs separator before = false :=
  occurs_eq_false_of_infix (List.prefix_append before _).isInfix
    ((cut?_eq_some_iff hne).mp h).2

theorem splitFrom_skip (skip : Nat) (piece : List Char) (pieces : List (List Char))
    (text : List Char) :
    splitFrom separator skip piece pieces text =
      splitFrom separator 0 piece pieces (text.drop skip) := by
  induction skip generalizing text with
  | zero => rfl
  | succ skip ih =>
    cases text with
    | nil => rfl
    | cons c rest => exact ih rest

theorem splitFrom_pieces (skip : Nat) (piece : List Char) (pieces : List (List Char))
    (text : List Char) :
    splitFrom separator skip piece pieces text =
      pieces.reverse ++ splitFrom separator skip piece [] text := by
  induction text generalizing skip piece pieces with
  | nil => simp [splitFrom]
  | cons c rest ih =>
    cases skip with
    | succ skip => exact ih skip piece pieces
    | zero =>
      rw [splitFrom, splitFrom]
      split
      · rw [ih _ [] (piece.reverse :: pieces), ih _ [] [piece.reverse]]
        simp
      · exact ih 0 (c :: piece) pieces

theorem splitFrom_of_cut?_eq_none (piece : List Char) (h : cut? separator text = none) :
    splitFrom separator 0 piece [] text = [piece.reverse ++ text] := by
  induction text generalizing piece with
  | nil => simp [splitFrom]
  | cons c rest ih =>
    rw [cut?] at h
    by_cases hprefix : separator.isPrefixOf (c :: rest) = true
    · rw [if_pos hprefix] at h
      cases h
    · rw [if_neg hprefix, Option.map_eq_none_iff] at h
      rw [splitFrom, if_neg hprefix, ih (c :: piece) h]
      simp

theorem splitFrom_of_cut? (piece : List Char) (hne : separator ≠ [])
    (h : cut? separator text = some (before, after)) :
    splitFrom separator 0 piece [] text = (piece.reverse ++ before) :: splitAll separator after := by
  induction text generalizing piece before with
  | nil => simp [cut?, hne] at h
  | cons c rest ih =>
    rw [cut?] at h
    by_cases hprefix : separator.isPrefixOf (c :: rest) = true
    · rw [if_pos hprefix] at h
      cases h
      -- The separator starts at `c`, so one character less of it is left to pass over.
      obtain ⟨first, others, rfl⟩ := List.exists_cons_of_ne_nil hne
      rw [splitFrom, if_pos hprefix, splitFrom_pieces, splitFrom_skip]
      simp [splitAll]
    · rw [if_neg hprefix] at h
      obtain ⟨⟨before, after⟩, hcut, heq⟩ := Option.map_eq_some_iff.mp h
      cases heq
      rw [splitFrom, if_neg hprefix, ih (c :: piece) hcut]
      simp

theorem splitAll_of_cut? (hne : separator ≠ []) (h : cut? separator text = some (before, after)) :
    splitAll separator text = before :: splitAll separator after := by
  simpa [splitAll] using splitFrom_of_cut? [] hne h

theorem splitAll_of_not_occurs (h : occurs separator text = false) :
    splitAll separator text = [text] := by
  simpa [splitAll] using splitFrom_of_cut?_eq_none [] (cut?_eq_none_iff.mpr h)

theorem splitAll_ne_nil (separator text : List Char) : splitAll separator text ≠ [] := by
  by_cases hne : separator = []
  · subst hne
    cases text <;> simp [splitAll, splitFrom, splitFrom_pieces 0 [] [[]]]
  cases hcut : cut? separator text with
  | none => simp [splitAll_of_not_occurs (cut?_eq_none_iff.mp hcut)]
  | some sides => simp [splitAll_of_cut? hne hcut]

/-- A text that holds the separator has a piece on either side of it. -/
theorem two_le_length_splitAll (hne : separator ≠ []) (h : occurs separator text = true) :
    2 ≤ (splitAll separator text).length := by
  rw [← cut?_isSome, Option.isSome_iff_exists] at h
  obtain ⟨⟨before, after⟩, hcut⟩ := h
  rw [splitAll_of_cut? hne hcut, List.length_cons]
  have hpos := List.length_pos_iff.mpr (splitAll_ne_nil separator after)
  omega

/-- Every piece stands in the text, and none holds the separator. -/
theorem infix_of_mem_splitAll (hne : separator ≠ []) (h : piece ∈ splitAll separator text) :
    piece <:+: text ∧ occurs separator piece = false := by
  induction hlength : text.length using Nat.strongRecOn generalizing text with
  | ind length ih =>
    subst hlength
    cases hcut : cut? separator text with
    | none =>
      have hoccurs := cut?_eq_none_iff.mp hcut
      rw [splitAll_of_not_occurs hoccurs, List.mem_singleton] at h
      subst h
      exact ⟨List.infix_rfl, hoccurs⟩
    | some sides =>
      obtain ⟨before, after⟩ := sides
      rw [splitAll_of_cut? hne hcut, List.mem_cons] at h
      obtain rfl | hpiece := h
      · exact ⟨before_infix_of_cut? hcut, occurs_before_of_cut? hne hcut⟩
      · have hshorter := (length_lt_of_cut? hne hcut).2
        obtain ⟨hwithin, hoccurs⟩ := ih after.length hshorter hpiece rfl
        exact ⟨hwithin.trans (after_infix_of_cut? hcut), hoccurs⟩

/-! ## Joined texts

A separator is a keyword between two spaces. Where texts are joined by it, an occurrence is only
lost if another one starts at the end of a text and shares the space behind it, and then this end is
the separator without its last space.
-/

theorem cut?_append (hne : separator ≠ []) (h : cut? separator text = some (before, after))
    (rest : List Char) : cut? separator (text ++ rest) = some (before, after ++ rest) := by
  obtain ⟨rfl, hfirst⟩ := (cut?_eq_some_iff hne).mp h
  rw [cut?_eq_some_iff hne]
  exact ⟨(List.append_assoc _ after rest).symm, hfirst⟩

def spaced (keyword : List Char) : List Char :=
  ' ' :: keyword ++ [' ']

theorem spaced_ne_nil (keyword : List Char) : spaced keyword ≠ [] :=
  List.cons_ne_nil _ _

theorem dropLast_spaced (keyword : List Char) : (spaced keyword).dropLast = ' ' :: keyword :=
  List.dropLast_concat

theorem infix_or_suffix_of_spaced_infix (hspace : ' ' ∉ keyword)
    (h : spaced keyword <:+: text ++ ' ' :: keyword) :
    spaced keyword <:+: text ∨ ' ' :: keyword <:+ text := by
  obtain ⟨before, after, heq⟩ := h
  rw [List.append_eq_append_iff] at heq
  obtain ⟨rest, htext, -⟩ | ⟨excess, hoccurrence, hkeyword⟩ := heq
  · exact .inl ⟨before, rest, htext.symm⟩
  -- What goes over the end of the text is nothing, the last space, or more than that.
  obtain rfl | ⟨excess, last, rfl⟩ := excess.eq_nil_or_concat'
  · exact .inl ⟨before, [], by simpa using hoccurrence⟩
  rw [spaced, ← List.append_assoc, ← List.append_assoc] at hoccurrence
  obtain ⟨hinside, hlast⟩ := List.append_inj' hoccurrence rfl
  cases hlast
  cases excess with
  | nil => exact .inr ⟨before, by simpa using hinside⟩
  | cons first excess =>
    have hkeyword : keyword = excess ++ ' ' :: after := by simpa using (List.cons.inj hkeyword).2
    exact absurd (by simp [hkeyword]) hspace

theorem occurs_append_dropLast_spaced (hspace : ' ' ∉ keyword)
    (htext : occurs (spaced keyword) text = false) (hend : ¬ ' ' :: keyword <:+ text) :
    occurs (spaced keyword) (text ++ (spaced keyword).dropLast) = false := by
  rw [dropLast_spaced]
  rw [occurs_eq_false_iff] at htext ⊢
  intro hinfix
  obtain hinside | hsuffix := infix_or_suffix_of_spaced_infix hspace hinfix
  · exact htext hinside
  · exact hend hsuffix

theorem splitAll_append_spaced (hspace : ' ' ∉ keyword) (hend : ¬ ' ' :: keyword <:+ text)
    (rest : List Char) :
    splitAll (spaced keyword) (text ++ spaced keyword ++ rest) =
      splitAll (spaced keyword) text ++ splitAll (spaced keyword) rest := by
  have hne := spaced_ne_nil keyword
  induction hlength : text.length using Nat.strongRecOn generalizing text with
  | ind length ih =>
    subst hlength
    cases hcut : cut? (spaced keyword) text with
    | none =>
      have hoccurs := cut?_eq_none_iff.mp hcut
      rw [splitAll_of_not_occurs hoccurs, List.singleton_append]
      apply splitAll_of_cut? hne
      exact cut?_append_separator hne (occurs_append_dropLast_spaced hspace hoccurs hend) rest
    | some sides =>
      obtain ⟨before, after⟩ := sides
      have hafter : after <:+ text := ⟨before ++ spaced keyword, append_of_cut? hcut⟩
      have hshorter := (length_lt_of_cut? hne hcut).2
      have hjoined := cut?_append hne hcut (spaced keyword ++ rest)
      rw [← List.append_assoc, ← List.append_assoc] at hjoined
      rw [splitAll_of_cut? hne hjoined, splitAll_of_cut? hne hcut,
        ih after.length hshorter (fun hsuffix => hend (hsuffix.trans hafter)) rfl,
        List.cons_append]

/-- Joined texts are split into the pieces of each of them, in order. -/
theorem splitAll_intercalate {texts : List (List Char)} (hspace : ' ' ∉ keyword)
    (hne : texts ≠ []) (hends : ∀ text ∈ texts.dropLast, ¬ ' ' :: keyword <:+ text) :
    splitAll (spaced keyword) ((spaced keyword).intercalate texts) =
      texts.flatMap (splitAll (spaced keyword)) := by
  induction texts with
  | nil => exact absurd rfl hne
  | cons text others ih =>
    cases others with
    | nil => simp
    | cons next others =>
      have hrest := ih (List.cons_ne_nil next others) fun other hmem =>
        hends other (List.mem_cons_of_mem text hmem)
      rw [List.intercalate_cons_cons, splitAll_append_spaced hspace (hends text (by simp)), hrest]
      exact List.flatMap_cons.symm

end Verdict.Text
