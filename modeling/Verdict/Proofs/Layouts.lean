import Verdict.Proofs.NestingScan

namespace Verdict.Json

/-- The characters that may stand between tokens. -/
def spaces : List Char :=
  [' ', '\t', '\n', '\r']

/-- The tokens in order, each in one of its spellings, with blanks anywhere around them. -/
inductive IsLayout : List Token → List Char → Prop where
  | nil : IsLayout [] []
  | blank {tokens : List Token} {text : List Char} {c : Char} (hc : c ∈ spaces)
      (h : IsLayout tokens text) : IsLayout tokens (c :: text)
  | token {token : Token} {tokens : List Token} {spelling text : List Char}
      (hspelling : token.IsSpelling spelling) (h : IsLayout tokens text) :
      IsLayout (token :: tokens) (spelling ++ text)

/-- The text is the document, spelled and laid out in some way. -/
def Document.LaidOutAs (document : Document) (text : String) : Prop :=
  IsLayout document.tokens text.toList

variable {tokens done : List Token} {token : Token} {text trailing : List Char} {lexer : Lexer}
  {c : Char}

theorem isLayout_flatMap_written (tokens : List Token) :
    IsLayout tokens (tokens.flatMap Token.written) := by
  induction tokens with
  | nil => exact .nil
  | cons token rest ih => exact .token (.written token) ih

theorem isLayout_append {others : List Token} {rest : List Char} (h : IsLayout tokens text)
    (hrest : IsLayout others rest) : IsLayout (tokens ++ others) (text ++ rest) := by
  induction h with
  | nil => exact hrest
  | blank hc _ ih => exact .blank hc ih
  | token hspelling _ ih =>
    rw [List.append_assoc]
    exact .token hspelling ih

/-- What is written for a document is one of its layouts. -/
theorem laidOutAs_toText (document : Document) : document.LaidOutAs document.toText := by
  rw [Document.LaidOutAs, Document.toText, String.toList_ofList, document.written_eq_flatMap]
  exact isLayout_flatMap_written document.tokens

theorem step?_blank (hc : c ∈ spaces) (hsettled : lexer.settled? = some done) :
    lexer.step? c = some ⟨.between, done⟩ := by
  simp only [spaces, List.mem_cons, List.not_mem_nil, or_false] at hc
  obtain rfl | rfl | rfl | rfl := hc <;> exact Lexer.step?_of_settled? hsettled rfl rfl

theorem spells_blank (hc : c ∈ spaces) (h : Spells text token) :
    Spells (c :: text) token := by
  unfold Spells at h ⊢
  by_cases hatom : token.isAtom = true
  · rw [if_pos hatom] at h ⊢
    intro tokens
    have hblank : Lexer.step? ⟨.between, tokens⟩ c = some ⟨.between, tokens⟩ := step?_blank hc rfl
    rw [List.foldlM_cons, hblank]
    exact h tokens
  · rw [if_neg hatom] at h ⊢
    intro lexer tokens hsettled
    rw [List.foldlM_cons, step?_blank hc hsettled]
    exact h ⟨.between, tokens⟩ tokens rfl

theorem settled?_foldlM_blanks (htrailing : ∀ c ∈ trailing, c ∈ spaces)
    (hsettled : lexer.settled? = some done) :
    ∃ last, trailing.foldlM Lexer.step? lexer = some last ∧ last.settled? = some done := by
  induction trailing generalizing lexer with
  | nil => exact ⟨lexer, rfl, hsettled⟩
  | cons c rest ih =>
    obtain ⟨hc, hrest⟩ := List.forall_mem_cons.mp htrailing
    rw [List.foldlM_cons, step?_blank hc hsettled]
    exact ih hrest rfl

theorem tokens?_append_blanks (htrailing : ∀ c ∈ trailing, c ∈ spaces)
    (h : tokens? text = some tokens) : tokens? (text ++ trailing) = some tokens := by
  obtain ⟨lexer, hread, hfinish⟩ := Option.bind_eq_some_iff.mp h
  rw [Lexer.finish?_eq_settled?] at hfinish
  obtain ⟨done, hsettled, rfl⟩ := Option.map_eq_some_iff.mp hfinish
  obtain ⟨last, hlast, hlastSettled⟩ := settled?_foldlM_blanks htrailing hsettled
  rw [tokens?, List.foldlM_append, hread]
  change (trailing.foldlM Lexer.step? lexer).bind Lexer.finish? = _
  rw [hlast, Option.bind_some, Lexer.finish?_eq_settled?, hlastSettled]
  rfl

theorem exists_spellings_of_isLayout (h : IsLayout tokens text) :
    ∃ texts trailing, List.Forall₂ Spells texts tokens ∧
      (∀ c ∈ trailing, c ∈ spaces) ∧ texts.flatten ++ trailing = text := by
  induction h with
  | nil => exact ⟨[], [], .nil, by simp, rfl⟩
  | @blank tokens text c hc _ ih =>
    obtain ⟨texts, trailing, hspells, htrailing, rfl⟩ := ih
    cases hspells with
    | nil => exact ⟨[], c :: trailing, .nil, List.forall_mem_cons.mpr ⟨hc, htrailing⟩, rfl⟩
    | @cons first token rest tokens hfirst hrest =>
      exact ⟨(c :: first) :: rest, trailing, .cons (spells_blank hc hfirst) hrest, htrailing, rfl⟩
  | @token token tokens spelling text hspelling _ ih =>
    obtain ⟨texts, trailing, hspells, htrailing, rfl⟩ := ih
    refine ⟨spelling :: texts, trailing, .cons (spells_of_isSpelling hspelling) hspells,
      htrailing, ?_⟩
    rw [List.flatten_cons, List.append_assoc]

theorem tokens?_of_isLayout (hrow : tokens.IsChain MayTouch) (h : IsLayout tokens text) :
    tokens? text = some tokens := by
  obtain ⟨texts, trailing, hspells, htrailing, rfl⟩ := exists_spellings_of_isLayout h
  exact tokens?_append_blanks htrailing (tokens?_of_spellings hspells hrow)

namespace Document

variable {document : Document} {text : String}

/-- Every layout of a document is read as the document. -/
theorem parse?_of_laidOutAs (h : document.LaidOutAs text) : parse? text = some document := by
  rw [parse?, read?, tokens?_of_isLayout document.isChain_tokens h]
  exact document.ofTokens?_tokens

/-- However a document is laid out, the scan of brackets finds its depth. -/
theorem nesting_of_laidOutAs (h : document.LaidOutAs text) :
    nesting text.toList = document.depth :=
  nesting_of_tokens?_tokens (tokens?_of_isLayout document.isChain_tokens h)

end Document

end Verdict.Json
