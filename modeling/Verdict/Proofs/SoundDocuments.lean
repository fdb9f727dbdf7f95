import Verdict.Proofs.DocumentReading
import Verdict.Proofs.NumberRange

namespace Verdict.Json

/-- The token has a value: a number in double precision, a quoted text as a text. -/
def Token.isSound : Token → Bool
  | .number value => value.isFinite
  | .string quoted => quoted.content?.isSome
  | _ => true

namespace Document

/-- No number of the document is larger than the largest double. -/
def InDoubleRange (document : Document) : Prop :=
  ∀ number : Number, .number number ∈ document.tokens → number.magnitude ≤ Number.largestDouble

/--
Every number of the document is below the least that is refused, and every quoted text, keys
included, stands for a text, so that no half of a surrogate pair is left alone.
-/
structure IsReadable (document : Document) : Prop where
  numbers : ∀ number : Number, .number number ∈ document.tokens →
    number.magnitude < Number.leastRefused
  quoted : ∀ quoted : Quoted, .string quoted ∈ document.tokens → ∃ text, quoted.StandsFor text

mutual

theorem isSound_eq_all : (document : Document) → document.isSound = document.tokens.all Token.isSound
  | .null => rfl
  | .bool _ => rfl
  | .number value => (Bool.and_true value.isFinite).symm
  | .string quoted => (Bool.and_true quoted.content?.isSome).symm
  | .array items => by
    rw [isSound, tokens, areSoundItems_eq_all items]
    simp [Token.isSound]
  | .object members => by
    rw [isSound, tokens, areSoundMembers_eq_all members]
    simp [Token.isSound]

theorem areSoundItems_eq_all : (items : List Document) →
    areSoundItems items = (tokensOfItems items).all Token.isSound
  | [] => rfl
  | [item] => by rw [areSoundItems, tokensOfItems, isSound_eq_all item, areSoundItems, Bool.and_true]
  | item :: next :: rest => by
    rw [areSoundItems, tokensOfItems, isSound_eq_all item, areSoundItems_eq_all (next :: rest)]
    simp [Token.isSound]

theorem areSoundMembers_eq_all : (members : List (Quoted × Document)) →
    areSoundMembers members = (tokensOfMembers members).all Token.isSound
  | [] => rfl
  | [(key, value)] => by
    rw [areSoundMembers, tokensOfMembers, isSound_eq_all value, areSoundMembers]
    simp [Token.isSound]
  | (key, value) :: next :: rest => by
    rw [areSoundMembers, tokensOfMembers, isSound_eq_all value,
      areSoundMembers_eq_all (next :: rest)]
    simp [Token.isSound, Bool.and_assoc]

end

theorem isSound_of_isReadable {document : Document} (h : document.IsReadable) :
    document.isSound = true := by
  rw [isSound_eq_all, List.all_eq_true]
  intro token htoken
  cases token with
  | number value => exact Number.isFinite_of_magnitude_lt (h.numbers value htoken)
  | string quoted =>
    obtain ⟨text, htext⟩ := h.quoted quoted htoken
    rw [Token.isSound, Quoted.content?, Quoted.decodeFrom_of_standsFor htext]
    rfl
  | _ => rfl

end Document

end Verdict.Json
