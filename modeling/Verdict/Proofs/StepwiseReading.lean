import Mathlib.Data.List.Induction
import Verdict.Json.Reader

namespace Verdict.Json

/-- The lexer with tokens that were there before it started. -/
def Lexer.behind (lexer : Lexer) (tokens : List Token) : Lexer :=
  ⟨lexer.lexeme, lexer.tokens ++ tokens⟩

/-- The token that is open, and the reader of those before it. -/
structure Progress where
  lexeme : Lexeme
  reader : Reader

namespace Progress

/-- Reads one more character and takes the tokens that end before it or with it. -/
def step? (limit : Option Nat) (progress : Progress) (c : Char) : Option Progress :=
  (Lexer.step? ⟨progress.lexeme, []⟩ c).bind fun lexer =>
    (lexer.tokens.reverse.foldlM (Reader.step? limit) progress.reader).map fun reader =>
      ⟨lexer.lexeme, reader⟩

/-- How far the reader has come with a text, unless it has stopped in it. -/
def after? (limit : Option Nat) (text : List Char) : Option Progress :=
  text.foldlM (step? limit) ⟨.between, .beforeValue []⟩

/-- The document at the end of the text, where a word or a number may still be open. -/
def finish? (limit : Option Nat) (progress : Progress) : Option Document :=
  (Lexer.finish? ⟨progress.lexeme, []⟩).bind fun tokens =>
    (tokens.foldlM (Reader.step? limit) progress.reader).bind Reader.finish?

end Progress

namespace Lexer

theorem begin?_append (new tokens : List Token) (c : Char) :
    begin? (new ++ tokens) c = (begin? new c).map fun lexer => lexer.behind tokens := by
  unfold begin?
  split
  · rfl
  split
  · rfl
  split
  · rfl
  split
  · rfl
  · rw [Option.map_map]
    rfl

/-- What a lexer does with a character does not depend on the tokens that it has found. -/
theorem step?_eq_behind (lexer : Lexer) (c : Char) :
    lexer.step? c = (step? ⟨lexer.lexeme, []⟩ c).map fun next => next.behind lexer.tokens := by
  obtain ⟨lexeme, tokens⟩ := lexer
  cases lexeme with
  | between => exact begin?_append [] tokens c
  | word text =>
    simp only [step?]
    split
    · rfl
    · rw [Option.map_bind]
      congr 1
      funext token
      exact begin?_append [token] tokens c
  | number text =>
    simp only [step?]
    split
    · rfl
    · rw [Option.map_bind]
      congr 1
      funext number
      exact begin?_append [.number number] tokens c
  | quoted pieces =>
    simp only [step?, quotedStep?]
    split
    · rfl
    split
    · rfl
    split <;> rfl
  | escape pieces =>
    simp only [step?, escapeStep?]
    split
    · rfl
    · rw [Option.map_map]
      rfl
  | unit pieces missing value =>
    simp only [step?, unitStep?]
    rw [Option.map_map]
    congr 1
    funext digit
    cases missing <;> rfl

theorem finish?_eq_append (lexer : Lexer) :
    lexer.finish? = (finish? ⟨lexer.lexeme, []⟩).map fun tokens =>
      lexer.tokens.reverse ++ tokens := by
  obtain ⟨lexeme, tokens⟩ := lexer
  cases lexeme with
  | between => simp [finish?]
  | word text => simp [finish?, Function.comp_def]
  | number text => simp [finish?, Function.comp_def]
  | _ => rfl

end Lexer

namespace Progress

/-- The reader has taken the tokens that the lexer has found in the text. -/
theorem after?_eq (limit : Option Nat) (text : List Char) :
    after? limit text = (text.foldlM Lexer.step? Lexer.start).bind fun lexer =>
      (lexer.tokens.reverse.foldlM (Reader.step? limit) (.beforeValue [])).map fun reader =>
        ⟨lexer.lexeme, reader⟩ := by
  induction text using List.reverseRecOn with
  | nil => rfl
  | append_singleton text c ih =>
    rw [after?, List.foldlM_append, ← after?, ih, List.foldlM_append]
    simp only [List.foldlM_cons, List.foldlM_nil, bind_pure, Option.bind_eq_bind, Option.bind_assoc]
    congr 1
    funext lexer
    rw [lexer.step?_eq_behind c, Option.bind_map, Option.bind_map]
    -- The reader may take the earlier tokens before or after the lexer has gone on.
    simp only [Function.comp_def, step?]
    cases Lexer.step? ⟨lexer.lexeme, []⟩ c with
    | none => exact Option.bind_fun_none _
    | some next =>
      simp only [Option.bind_some, Lexer.behind, List.reverse_append, List.foldlM_append]
      exact Option.map_bind.symm

/-- Reading a text is reading it character by character. -/
theorem read?_eq_after? (limit : Option Nat) (text : List Char) :
    Document.read? limit text = (after? limit text).bind (finish? limit) := by
  rw [Document.read?, tokens?, after?_eq, Option.bind_assoc, Option.bind_assoc]
  congr 1
  funext lexer
  rw [lexer.finish?_eq_append, Option.bind_map, Option.bind_map]
  simp only [Function.comp_def, finish?]
  cases Lexer.finish? ⟨lexer.lexeme, []⟩ with
  | none => exact (Option.bind_fun_none _).symm
  | some tokens =>
    simp only [Option.bind_some, Document.ofTokens?, List.foldlM_append]
    exact Option.bind_assoc ..

end Progress

end Verdict.Json
