import Verdict.Connective
import Verdict.Proofs.Splitting
import Verdict.Text.Blank

/-!
# Keywords between spaces

A separator is a keyword between two spaces, so it is found where the keyword stands alone. With a
space added on either side of a text, the ends of the text count as spaces too, and this is what a
joined text needs: a character that is not in the keyword parts the text, and the keyword then
stands in what is before it or in what is behind it. A space parts a text in this way, and so does
an operator.
-/

namespace Verdict

namespace Connective

theorem separator_toList (connective : Connective) :
    connective.separator.toList = Text.spaced connective.keyword.toList := by
  cases connective <;> rfl

theorem keyword_ne_nil (connective : Connective) : connective.keyword.toList ≠ [] := by
  cases connective <;> decide

theorem isBlank_of_mem_keyword {connective : Connective} {c : Char}
    (h : c ∈ connective.keyword.toList) : Text.isBlank c = false := by
  have hcompact : Text.compact connective.keyword.toList = connective.keyword.toList := by
    cases connective <;> rfl
  rw [← hcompact] at h
  exact ((Text.mem_compact_iff c _).mp h).2

theorem space_notMem_keyword (connective : Connective) : ' ' ∉ connective.keyword.toList :=
  fun h => absurd (isBlank_of_mem_keyword h) (by decide)

end Connective

namespace Text

variable {keyword text before after left right padding : List Char} {c : Char}

/-- The keyword stands in the text with a space or an end of the text on either side of it. -/
def StandsIn (keyword text : List Char) : Prop :=
  spaced keyword <:+: spaced text

theorem spaced_append (left right : List Char) :
    spaced (left ++ right) = ' ' :: left ++ (right ++ [' ']) := by
  simp [spaced]

theorem infix_spaced (text : List Char) : text <:+: spaced text :=
  ⟨[' '], [' '], rfl⟩

theorem occurs_of_not_standsIn (h : ¬ StandsIn keyword text) :
    occurs (spaced keyword) text = false :=
  occurs_eq_false_of_infix (infix_spaced text) (occurs_eq_false_iff.mpr h)

theorem standsIn_of_suffix (h : ' ' :: keyword <:+ text) : StandsIn keyword text := by
  obtain ⟨before, rfl⟩ := h
  exact ⟨' ' :: before, [], by simp [spaced]⟩

/-- A keyword with a space behind it ends before a character that it does not hold. -/
theorem append_space_prefix (hc : c ∉ keyword) (h : keyword ++ [' '] <+: left ++ c :: right) :
    keyword ++ [' '] <+: left ++ [' '] := by
  induction keyword generalizing left with
  | nil =>
    cases left with
    | nil => exact List.prefix_refl [' ']
    | cons first left =>
      obtain ⟨rfl, -⟩ := List.cons_prefix_cons.mp h
      simp
  | cons first keyword ih =>
    rw [List.mem_cons, not_or] at hc
    cases left with
    | nil =>
      obtain ⟨rfl, -⟩ := List.cons_prefix_cons.mp h
      exact absurd rfl hc.1
    | cons next left =>
      obtain ⟨rfl, hrest⟩ := List.cons_prefix_cons.mp h
      exact List.cons_prefix_cons.mpr ⟨rfl, ih hc.2 hrest⟩

/-- A keyword between spaces that starts before the end of a text stands in the text. -/
theorem standsIn_of_spaced_prefix {more rest : List Char} (hne : more ≠ [])
    (hrest : ∀ c ∈ rest.head?, c ∉ keyword) (h : spaced keyword <+: more ++ rest) :
    StandsIn keyword (before ++ more) := by
  obtain ⟨first, left, rfl⟩ := List.exists_cons_of_ne_nil hne
  obtain ⟨rfl, hbehind⟩ := List.cons_prefix_cons.mp h
  have hrow : keyword ++ [' '] <+: left ++ rest := hbehind
  have hleft : keyword ++ [' '] <+: left ++ [' '] := by
    cases rest with
    | nil =>
      rw [List.append_nil] at hrow
      exact hrow.trans (List.prefix_append left [' '])
    | cons c rest => exact append_space_prefix (hrest c rfl) hrow
  obtain ⟨behind, hkeyword⟩ := hleft
  have hspaced : spaced (before ++ ' ' :: left) = ' ' :: before ++ ' ' :: (left ++ [' ']) := by
    simp [spaced]
  refine ⟨' ' :: before, behind, ?_⟩
  rw [hspaced, ← hkeyword]
  simp [spaced]

theorem infix_or_standsIn (hc : c ∉ keyword)
    (h : spaced keyword <:+: left ++ c :: (right ++ [' '])) :
    spaced keyword <:+: left ++ [' '] ∨ StandsIn keyword right := by
  induction left with
  | nil =>
    obtain hstart | hlater := List.infix_cons_iff.mp h
    · obtain ⟨rfl, hrest⟩ := List.cons_prefix_cons.mp hstart
      exact .inr (List.cons_prefix_cons.mpr ⟨rfl, hrest⟩).isInfix
    · exact .inr (hlater.trans (List.suffix_cons ' ' _).isInfix)
  | cons first left ih =>
    obtain hstart | hlater := List.infix_cons_iff.mp h
    · obtain ⟨rfl, hrest⟩ := List.cons_prefix_cons.mp hstart
      exact .inl (List.cons_prefix_cons.mpr ⟨rfl, append_space_prefix hc hrest⟩).isInfix
    · obtain hleft | hright := ih hlater
      · exact .inl (hleft.trans (List.suffix_cons first _).isInfix)
      · exact .inr hright

/-- A character that is not in the keyword parts the text. -/
theorem standsIn_left_or_right (hc : c ∉ keyword) (h : StandsIn keyword (left ++ c :: right)) :
    StandsIn keyword left ∨ StandsIn keyword right := by
  rw [StandsIn, spaced_append] at h
  exact @infix_or_standsIn keyword (' ' :: left) right c hc h

/-- A keyword that stands in two joined texts stands in one of them, or is what joins them. -/
theorem standsIn_of_joined {joint : List Char} (hspace : ' ' ∉ keyword)
    (h : StandsIn keyword (left ++ spaced joint ++ right)) :
    StandsIn keyword left ∨ StandsIn keyword joint ∨ StandsIn keyword right := by
  have htext : left ++ spaced joint ++ right = left ++ ' ' :: (joint ++ ' ' :: right) := by
    simp [spaced]
  rw [htext] at h
  exact (standsIn_left_or_right hspace h).imp_right (standsIn_left_or_right hspace)

/-- A text without a space is one word. -/
theorem eq_of_standsIn (htext : ' ' ∉ text) (h : StandsIn keyword text) : text = keyword := by
  change ' ' :: (keyword ++ [' ']) <:+: ' ' :: (text ++ [' ']) at h
  obtain hstart | hlater := List.infix_cons_iff.mp h
  · obtain ⟨-, rest, hrest⟩ := List.cons_prefix_cons.mp hstart
    rw [List.append_assoc, List.singleton_append] at hrest
    exact ((List.append_cons_inj_of_notMem htext List.not_mem_nil).mp hrest.symm).1
  · -- The keyword has a space on both sides, and behind the first one there is only one more.
    have hcount := hlater.sublist.count_le ' '
    rw [List.count_cons_self, List.count_append, List.count_append,
      List.count_eq_zero_of_not_mem htext] at hcount
    omega

section Padding

variable (hne : keyword ≠ []) (hpadding : ∀ c ∈ padding, c ∉ keyword)

include hne hpadding

theorem not_standsIn_padding : ¬ StandsIn keyword padding := by
  have hempty : ¬ StandsIn keyword [] := fun h =>
    hne (eq_of_standsIn List.not_mem_nil h).symm
  induction padding with
  | nil => exact hempty
  | cons c rest ih =>
    intro h
    have hparted : StandsIn keyword ([] ++ c :: rest) := h
    obtain hleft | hright := standsIn_left_or_right (hpadding c (by simp)) hparted
    · exact hempty hleft
    · exact ih (fun other hother => hpadding other (List.mem_cons_of_mem c hother)) hright

theorem standsIn_of_append_padding (h : StandsIn keyword (text ++ padding)) :
    StandsIn keyword text := by
  cases padding with
  | nil => rwa [List.append_nil] at h
  | cons c rest =>
    obtain hleft | hright := standsIn_left_or_right (hpadding c (by simp)) h
    · exact hleft
    · have hrest := not_standsIn_padding hne fun other hother =>
        hpadding other (List.mem_cons_of_mem c hother)
      exact absurd hright hrest

theorem standsIn_of_padding_append (h : StandsIn keyword (padding ++ text)) :
    StandsIn keyword text := by
  obtain rfl | ⟨rest, c, rfl⟩ := padding.eq_nil_or_concat'
  · exact h
  · rw [List.append_assoc, List.singleton_append] at h
    obtain hleft | hright := standsIn_left_or_right (hpadding c (by simp)) h
    · have hrest := not_standsIn_padding hne fun other hother =>
        hpadding other (List.mem_append_left [c] hother)
      exact absurd hleft hrest
    · exact hright

end Padding

/-- Where the keyword does not stand in the text before it, a separator is the first one. -/
theorem cut?_of_not_standsIn (hspace : ' ' ∉ keyword) (h : ¬ StandsIn keyword before)
    (after : List Char) :
    cut? (spaced keyword) (before ++ spaced keyword ++ after) = some (before, after) := by
  apply cut?_append_separator (spaced_ne_nil keyword)
  apply occurs_append_dropLast_spaced hspace
  · exact occurs_of_not_standsIn h
  · exact fun hsuffix => h (standsIn_of_suffix hsuffix)

end Text

theorem Connective.not_standsIn_of_not_occurs {connective : Connective} {text : String}
    (h : Text.occurs connective.separator.toList (" " ++ text ++ " ").toList = false) :
    ¬ Text.StandsIn connective.keyword.toList text.toList := by
  rw [separator_toList, Text.occurs_eq_false_iff] at h
  simpa [Text.StandsIn, Text.spaced] using h

end Verdict
