/-!
# Splitting at a separator

`splitAll` cuts a text at every occurrence of a separator, read from left to right, so that two
occurrences never share a character. `cut?` cuts it at the first occurrence only. A separator is
meant to be non-empty.
-/

namespace Verdict.Text

def occurs (separator : List Char) : List Char → Bool
  | [] => separator.isEmpty
  | c :: rest => separator.isPrefixOf (c :: rest) || occurs separator rest

/-- The text before and after the first occurrence of the separator. -/
def cut? (separator : List Char) : List Char → Option (List Char × List Char)
  | [] => if separator.isEmpty then some ([], []) else none
  | c :: rest =>
    if separator.isPrefixOf (c :: rest) then some ([], (c :: rest).drop separator.length)
    else (cut? separator rest).map fun sides => (c :: sides.1, sides.2)

/--
Cuts a text in one pass. `skip` counts the characters of a separator that are still to be passed
over; the open piece and the finished pieces are held backwards.
-/
def splitFrom (separator : List Char) :
    (skip : Nat) → (piece : List Char) → (pieces : List (List Char)) → List Char →
      List (List Char)
  | _, piece, pieces, [] => (piece.reverse :: pieces).reverse
  | skip + 1, piece, pieces, _ :: rest => splitFrom separator skip piece pieces rest
  | 0, piece, pieces, c :: rest =>
    if separator.isPrefixOf (c :: rest) then
      splitFrom separator (separator.length - 1) [] (piece.reverse :: pieces) rest
    else
      splitFrom separator 0 (c :: piece) pieces rest

/-- The pieces of a text between the occurrences of the separator. There is always at least one. -/
def splitAll (separator text : List Char) : List (List Char) :=
  splitFrom separator 0 [] [] text

theorem append_of_cut? {separator text before after : List Char}
    (h : cut? separator text = some (before, after)) : before ++ separator ++ after = text := by
  induction text generalizing before with
  | nil =>
    simp only [cut?] at h
    split at h
    · simp_all
    · cases h
  | cons c rest ih =>
    simp only [cut?] at h
    split at h
    · rename_i hprefix
      obtain ⟨tail, htail⟩ := List.isPrefixOf_iff_prefix.mp hprefix
      cases h
      simp [← htail]
    · obtain ⟨⟨before, after⟩, hcut, heq⟩ := Option.map_eq_some_iff.mp h
      cases heq
      simp [← ih hcut]

theorem length_lt_of_cut? {separator text before after : List Char} (hne : separator ≠ [])
    (h : cut? separator text = some (before, after)) :
    before.length < text.length ∧ after.length < text.length := by
  have hpos := List.length_pos_iff.mpr hne
  have hlength := congrArg List.length (append_of_cut? h)
  simp only [List.length_append] at hlength
  omega

theorem cut?_isSome (separator text : List Char) :
    (cut? separator text).isSome = occurs separator text := by
  induction text with
  | nil => cases separator <;> rfl
  | cons c rest ih =>
    simp only [cut?, occurs]
    split <;> simp_all

end Verdict.Text
