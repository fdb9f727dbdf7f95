import Verdict.Json.Reader
import Verdict.Proofs.Lexing

namespace Verdict.Json

namespace Document

mutual

def tokens : Document → List Token
  | .null => [.null]
  | .bool value => [.bool value]
  | .number value => [.number value]
  | .string quoted => [.string quoted]
  | .array items => .openArray :: (tokensOfItems items ++ [.closeArray])
  | .object members => .openObject :: (tokensOfMembers members ++ [.closeObject])

def tokensOfItems : List Document → List Token
  | [] => []
  | [item] => item.tokens
  | item :: next :: rest => item.tokens ++ .comma :: tokensOfItems (next :: rest)

def tokensOfMembers : List (Quoted × Document) → List Token
  | [] => []
  | [(key, value)] => .string key :: .colon :: value.tokens
  | (key, value) :: next :: rest =>
    .string key :: .colon :: (value.tokens ++ .comma :: tokensOfMembers (next :: rest))

end

mutual

theorem written_eq_flatMap : (document : Document) →
    document.written = document.tokens.flatMap Token.written
  | .null => rfl
  | .bool true => rfl
  | .bool false => rfl
  | .number value => (List.append_nil value.written).symm
  | .string quoted => (List.append_nil quoted.written).symm
  | .array items => by
    rw [written, tokens, writtenItems_eq_flatMap items]
    simp [Token.written]
  | .object members => by
    rw [written, tokens, writtenMembers_eq_flatMap members]
    simp [Token.written]

theorem writtenItems_eq_flatMap : (items : List Document) →
    writtenItems items = (tokensOfItems items).flatMap Token.written
  | [] => rfl
  | [item] => by rw [writtenItems, tokensOfItems, written_eq_flatMap item]
  | item :: next :: rest => by
    rw [writtenItems, tokensOfItems, written_eq_flatMap item,
      writtenItems_eq_flatMap (next :: rest)]
    · simp [Token.written]
    · simp

theorem writtenMembers_eq_flatMap : (members : List (Quoted × Document)) →
    writtenMembers members = (tokensOfMembers members).flatMap Token.written
  | [] => rfl
  | [(key, value)] => by
    rw [writtenMembers, tokensOfMembers, written_eq_flatMap value]
    simp [Token.written]
  | (key, value) :: next :: rest => by
    rw [writtenMembers, tokensOfMembers, written_eq_flatMap value,
      writtenMembers_eq_flatMap (next :: rest)]
    · simp [Token.written]
    · simp

end

section Chains

variable {mark : Token} {left right : List Token}

theorem isChain_cons_mark (hmark : mark.isAtom = false) (hright : right.IsChain MayTouch) :
    (mark :: right).IsChain MayTouch :=
  List.isChain_cons.mpr ⟨fun _ _ => .inl hmark, hright⟩

/-- A token that is no word and no number keeps its neighbours apart. -/
theorem isChain_append_mark (hleft : left.IsChain MayTouch) (hmark : mark.isAtom = false)
    (hright : right.IsChain MayTouch) : (left ++ mark :: right).IsChain MayTouch := by
  rw [List.isChain_append]
  refine ⟨hleft, isChain_cons_mark hmark hright, ?_⟩
  intro first _ second hsecond
  cases hsecond
  exact .inr hmark

end Chains

mutual

theorem isChain_tokens : (document : Document) → document.tokens.IsChain MayTouch
  | .null | .bool _ | .number _ | .string _ => .singleton _
  | .array items =>
    isChain_cons_mark rfl (isChain_append_mark (isChain_tokensOfItems items) rfl .nil)
  | .object members =>
    isChain_cons_mark rfl (isChain_append_mark (isChain_tokensOfMembers members) rfl .nil)

theorem isChain_tokensOfItems : (items : List Document) → (tokensOfItems items).IsChain MayTouch
  | [] => .nil
  | [item] => isChain_tokens item
  | item :: next :: rest =>
    isChain_append_mark (isChain_tokens item) rfl (isChain_tokensOfItems (next :: rest))

theorem isChain_tokensOfMembers :
    (members : List (Quoted × Document)) → (tokensOfMembers members).IsChain MayTouch
  | [] => .nil
  | [(_, value)] => isChain_cons_mark rfl (isChain_cons_mark rfl (isChain_tokens value))
  | (_, value) :: next :: rest =>
    isChain_cons_mark rfl (isChain_cons_mark rfl
      (isChain_append_mark (isChain_tokens value) rfl (isChain_tokensOfMembers (next :: rest))))

end

theorem tokens_eq_cons (document : Document) :
    ∃ first rest, document.tokens = first :: rest ∧ first ≠ .closeArray := by
  cases document <;> exact ⟨_, _, rfl, by simp⟩

/-- Behind an opened array the first item is read as it is behind a comma. -/
theorem foldlM_afterOpenArray (limit : Option Nat) (item : Document) (rest : List Token)
    (frames : List Frame) :
    (item.tokens ++ rest).foldlM (Reader.step? limit) (.afterOpenArray frames) =
      (item.tokens ++ rest).foldlM (Reader.step? limit) (.beforeValue (.array [] :: frames)) := by
  obtain ⟨first, others, htokens, hfirst⟩ := item.tokens_eq_cons
  rw [htokens, List.cons_append, List.foldlM_cons, List.foldlM_cons]
  congr 1
  cases first with
  | closeArray => exact absurd rfl hfirst
  | _ => rfl

mutual

theorem foldlM_tokens : (document : Document) → (frames : List Frame) →
    document.tokens.foldlM (Reader.step? none) (.beforeValue frames) =
      some (.afterValue document frames)
  | .null, _ | .bool _, _ | .number _, _ | .string _, _ => rfl
  | .array [], _ => rfl
  | .array [item], frames => by
    have hitems := foldlM_tokensOfItems [item] (by simp) [] frames
    rw [tokensOfItems, ← foldlM_afterOpenArray] at hitems
    exact hitems
  | .array (item :: next :: rest), frames => by
    have hitems := foldlM_tokensOfItems (item :: next :: rest) (by simp) [] frames
    rw [tokensOfItems, List.append_assoc, ← foldlM_afterOpenArray, ← List.append_assoc] at hitems
    exact hitems
  | .object [], _ => rfl
  | .object [(key, value)], frames => foldlM_tokensOfMembers [(key, value)] (by simp) [] frames
  | .object ((key, value) :: next :: rest), frames =>
    foldlM_tokensOfMembers ((key, value) :: next :: rest) (by simp) [] frames

theorem foldlM_tokensOfItems : (items : List Document) → items ≠ [] → (done : List Document) →
    (frames : List Frame) →
    (tokensOfItems items ++ [Token.closeArray]).foldlM (Reader.step? none)
        (.beforeValue (.array done :: frames)) =
      some (.afterValue (.array (done.reverse ++ items)) frames)
  | [], hne, _, _ => absurd rfl hne
  | [item], _, done, frames => by
    rw [tokensOfItems, List.foldlM_append, foldlM_tokens item]
    simp [Reader.step?]
  | item :: next :: rest, _, done, frames => by
    have hrest := foldlM_tokensOfItems (next :: rest) (by simp) (item :: done) frames
    rw [tokensOfItems, List.append_assoc, List.foldlM_append, foldlM_tokens item]
    simpa [Reader.step?] using hrest

theorem foldlM_tokensOfMembers : (members : List (Quoted × Document)) → members ≠ [] →
    (done : List (Quoted × Document)) → (frames : List Frame) →
    (tokensOfMembers members ++ [Token.closeObject]).foldlM (Reader.step? none)
        (.beforeKey done frames) =
      some (.afterValue (.object (done.reverse ++ members)) frames)
  | [], hne, _, _ => absurd rfl hne
  | [(key, value)], _, done, frames => by
    have hvalue := foldlM_tokens value (.object done key :: frames)
    simp [tokensOfMembers, Reader.step?, List.foldlM_append, hvalue]
  | (key, value) :: next :: rest, _, done, frames => by
    have hvalue := foldlM_tokens value (.object done key :: frames)
    have hrest := foldlM_tokensOfMembers (next :: rest) (by simp) ((key, value) :: done) frames
    simpa [tokensOfMembers, Reader.step?, List.foldlM_append, hvalue] using hrest

end

theorem ofTokens?_tokens (document : Document) :
    ofTokens? none document.tokens = some document := by
  rw [ofTokens?, foldlM_tokens]
  rfl

theorem tokens?_written (document : Document) :
    tokens? document.written = some document.tokens := by
  rw [written_eq_flatMap]
  exact tokens?_flatMap_written (isChain_tokens document)

/-- Every document is read back from what is written for it. -/
theorem parse?_toText (document : Document) : parse? document.toText = some document := by
  rw [parse?, toText, String.toList_ofList, read?, tokens?_written]
  exact ofTokens?_tokens document

end Document

end Verdict.Json
