import Verdict.Proofs.NestingScan

namespace Verdict.Json

def tokensOfMember (member : Quoted × Document) : List Token :=
  .string member.1 :: .colon :: member.2.tokens

/-- The parts of an open container, each with the comma behind it. -/
def tokensBehind (parts : List (List Token)) : List Token :=
  parts.flatMap fun part => part ++ [.comma]

/-- The tokens of an object from its opening bracket to the members that are finished. -/
def tokensOfOpenObject (members : List (Quoted × Document)) : List Token :=
  .openObject :: tokensBehind (members.reverse.map tokensOfMember)

def Frame.tokens : Frame → List Token
  | .array items => .openArray :: tokensBehind (items.reverse.map Document.tokens)
  | .object members key => tokensOfOpenObject members ++ [.string key, .colon]

def tokensOfFrames : List Frame → List Token
  | [] => []
  | frame :: outer => tokensOfFrames outer ++ frame.tokens

namespace Reader

/-- All tokens that have been taken, in order. -/
def taken : Reader → List Token
  | .beforeValue frames => tokensOfFrames frames
  | .afterOpenArray frames => tokensOfFrames frames ++ [.openArray]
  | .afterOpenObject frames => tokensOfFrames frames ++ [.openObject]
  | .beforeKey members frames => tokensOfFrames frames ++ tokensOfOpenObject members
  | .beforeColon members key frames =>
    tokensOfFrames frames ++ tokensOfOpenObject members ++ [.string key]
  | .afterValue document frames => tokensOfFrames frames ++ document.tokens

end Reader

theorem intercalate_comma_concat (parts : List (List Token)) (last : List Token) :
    [Token.comma].intercalate (parts ++ [last]) = tokensBehind parts ++ last := by
  induction parts with
  | nil => simp [tokensBehind]
  | cons part rest ih =>
    rw [List.cons_append, List.intercalate_cons_of_ne_nil (List.concat_ne_nil last rest), ih,
      ← List.append_assoc]
    rfl

theorem tokensOfItems_eq_intercalate (items : List Document) :
    Document.tokensOfItems items = [Token.comma].intercalate (items.map Document.tokens) := by
  induction items with
  | nil => rfl
  | cons item rest ih =>
    cases rest with
    | nil => simp [Document.tokensOfItems]
    | cons next rest =>
      rw [List.map_cons, List.intercalate_cons_of_ne_nil (by simp), ← ih]
      simp [Document.tokensOfItems]

theorem tokensOfMembers_eq_intercalate (members : List (Quoted × Document)) :
    Document.tokensOfMembers members = [Token.comma].intercalate (members.map tokensOfMember) := by
  induction members with
  | nil => rfl
  | cons member rest ih =>
    cases rest with
    | nil => simp [Document.tokensOfMembers, tokensOfMember]
    | cons next rest =>
      rw [List.map_cons, List.intercalate_cons_of_ne_nil (by simp), ← ih]
      simp [Document.tokensOfMembers, tokensOfMember]

theorem tokens_array_reverse (items : List Document) (item : Document) :
    (Document.array (item :: items).reverse).tokens =
      (Frame.array items).tokens ++ item.tokens ++ [.closeArray] := by
  rw [Document.tokens, tokensOfItems_eq_intercalate, List.reverse_cons, List.map_append,
    List.map_singleton, intercalate_comma_concat]
  rfl

theorem tokens_object_reverse (members : List (Quoted × Document)) (key : Quoted)
    (value : Document) :
    (Document.object ((key, value) :: members).reverse).tokens =
      (Frame.object members key).tokens ++ value.tokens ++ [.closeObject] := by
  rw [Document.tokens, tokensOfMembers_eq_intercalate, List.reverse_cons, List.map_append,
    List.map_singleton, intercalate_comma_concat]
  simp [Frame.tokens, tokensOfOpenObject, tokensOfMember]

namespace Reader

variable {limit : Option Nat} {reader next last : Reader} {token : Token} {tokens : List Token}
  {frames : List Frame}

theorem taken_begin? (h : begin? limit frames token = some next) :
    next.taken = tokensOfFrames frames ++ [token] := by
  unfold begin? at h
  split at h
  · split at h <;> cases h
    rfl
  · split at h <;> cases h
    rfl
  · cases h
    rfl
  · cases h
    rfl
  · cases h
    rfl
  · cases h
    rfl
  · cases h

theorem taken_step? (h : step? limit reader token = some next) :
    next.taken = reader.taken ++ [token] := by
  unfold step? at h
  split at h
  · exact taken_begin? h
  · cases h
    simp [taken, Document.tokens, Document.tokensOfItems]
  · rw [taken_begin? h]
    rfl
  · cases h
    simp [taken, Document.tokens, Document.tokensOfMembers]
  · cases h
    simp [taken, tokensOfOpenObject, tokensBehind]
  · cases h
    rfl
  · cases h
    simp [taken, tokensOfFrames, Frame.tokens]
  · cases h
    simp [taken, tokensOfFrames, Frame.tokens, tokensBehind]
  · cases h
    rw [taken, tokens_array_reverse]
    simp [taken, tokensOfFrames]
  · cases h
    simp [taken, tokensOfFrames, Frame.tokens, tokensOfOpenObject, tokensBehind, tokensOfMember]
  · cases h
    rw [taken, tokens_object_reverse]
    simp [taken, tokensOfFrames]
  · cases h

theorem taken_foldlM (h : tokens.foldlM (step? limit) reader = some last) :
    last.taken = reader.taken ++ tokens := by
  induction tokens generalizing reader with
  | nil =>
    cases h
    exact (List.append_nil _).symm
  | cons token rest ih =>
    rw [List.foldlM_cons] at h
    obtain ⟨next, hstep, hrest⟩ := Option.bind_eq_some_iff.mp h
    rw [ih hrest, taken_step? hstep, List.append_assoc]
    rfl

end Reader

namespace Document

variable {limit : Option Nat} {tokens : List Token} {text : List Char} {document : Document}

theorem tokens_eq_of_ofTokens? (h : ofTokens? limit tokens = some document) :
    document.tokens = tokens := by
  obtain ⟨last, hread, hfinish⟩ := Option.bind_eq_some_iff.mp h
  have htaken := Reader.taken_foldlM hread
  unfold Reader.finish? at hfinish
  split at hfinish
  · cases hfinish
    exact htaken
  · cases hfinish

/-- In any text for a document the scan of brackets finds the depth of the document. -/
theorem nesting_of_read? (h : read? limit text = some document) :
    nesting text = document.depth := by
  obtain ⟨tokens, htokens, hdocument⟩ := Option.bind_eq_some_iff.mp h
  rw [← tokens_eq_of_ofTokens? hdocument] at htokens
  exact nesting_of_tokens?_tokens htokens

end Document

end Verdict.Json
