import Verdict.Json.Nesting
import Verdict.Proofs.DocumentReading

/-!
# The scan of brackets

The scan knows less than the lexer: of the lexer's state it keeps whether a quoted text is open and
whether the next character is escaped, and of the tokens only their brackets. As long as the lexer
takes every character, the scan is this view of it, so on a text that is cut into tokens the scan
counts the brackets among the tokens, and on a written document it finds the depth.
-/

namespace Verdict.Json

namespace Nesting

def count (state : Nesting) : Token → Nesting
  | .openArray | .openObject =>
    { state with depth := state.depth + 1, deepest := max state.deepest (state.depth + 1) }
  | .closeArray | .closeObject => { state with depth := state.depth - 1 }
  | _ => state

/-- The state when it has been `levels` deeper than now, and has come back. -/
def reach (state : Nesting) (levels : Nat) : Nesting :=
  { state with deepest := max state.deepest (state.depth + levels) }

variable {state : Nesting}

theorem reach_zero (h : state.depth ≤ state.deepest) : state.reach 0 = state := by
  have hmax : max state.deepest (state.depth + 0) = state.deepest := by omega
  rw [reach, hmax]

theorem reach_reach (first second : Nat) :
    (state.reach first).reach second = state.reach (max first second) := by
  have hmax : max (max state.deepest (state.depth + first)) (state.depth + second) =
      max state.deepest (state.depth + max first second) := by omega
  simp only [reach, hmax]

theorem depth_le_deepest_reach (h : state.depth ≤ state.deepest) (levels : Nat) :
    (state.reach levels).depth ≤ (state.reach levels).deepest :=
  h.trans (Nat.le_max_left ..)

theorem depth_le_deepest_count_open (token : Token) (h : state.depth ≤ state.deepest) :
    (state.count token).depth ≤ (state.count token).deepest := by
  cases token <;> simp only [count] <;> omega

/-- A bracket, what it holds, and the closing bracket together reach one level more. -/
theorem count_reach_count {opening closing : Token} (levels : Nat)
    (hopening : opening = .openArray ∨ opening = .openObject)
    (hclosing : closing = .closeArray ∨ closing = .closeObject) :
    ((state.count opening).reach levels).count closing = state.reach (1 + levels) := by
  have hmax : max (max state.deepest (state.depth + 1)) (state.depth + 1 + levels) =
      max state.deepest (state.depth + (1 + levels)) := by omega
  obtain rfl | rfl := hopening <;> obtain rfl | rfl := hclosing <;>
    simp only [count, reach, hmax, Nat.add_sub_cancel]

end Nesting

namespace Document

mutual

theorem foldl_count_tokens : (document : Document) → {state : Nesting} →
    state.depth ≤ state.deepest →
    document.tokens.foldl Nesting.count state = state.reach document.depth
  | .null, _, h | .bool _, _, h | .number _, _, h | .string _, _, h =>
    (Nesting.reach_zero h).symm
  | .array items, state, h => by
    have hopen := Nesting.depth_le_deepest_count_open .openArray h
    rw [tokens, List.foldl_cons, List.foldl_append, foldl_count_tokensOfItems items hopen]
    exact Nesting.count_reach_count _ (.inl rfl) (.inl rfl)
  | .object members, state, h => by
    have hopen := Nesting.depth_le_deepest_count_open .openObject h
    rw [tokens, List.foldl_cons, List.foldl_append, foldl_count_tokensOfMembers members hopen]
    exact Nesting.count_reach_count _ (.inr rfl) (.inr rfl)

theorem foldl_count_tokensOfItems : (items : List Document) → {state : Nesting} →
    state.depth ≤ state.deepest →
    (tokensOfItems items).foldl Nesting.count state = state.reach (depthOfItems items)
  | [], _, h => (Nesting.reach_zero h).symm
  | [item], state, h => by
    rw [tokensOfItems, foldl_count_tokens item h, depthOfItems, depthOfItems, Nat.max_zero]
  | item :: next :: rest, state, h => by
    have hitem := Nesting.depth_le_deepest_reach h item.depth
    rw [tokensOfItems, List.foldl_append, foldl_count_tokens item h, List.foldl_cons,
      Nesting.count, foldl_count_tokensOfItems (next :: rest) hitem, Nesting.reach_reach]
    · rfl
    all_goals simp

theorem foldl_count_tokensOfMembers : (members : List (Quoted × Document)) → {state : Nesting} →
    state.depth ≤ state.deepest →
    (tokensOfMembers members).foldl Nesting.count state = state.reach (depthOfMembers members)
  | [], _, h => (Nesting.reach_zero h).symm
  | [(key, value)], state, h => by
    rw [tokensOfMembers, List.foldl_cons, List.foldl_cons]
    change value.tokens.foldl Nesting.count state = _
    rw [foldl_count_tokens value h, depthOfMembers, depthOfMembers, Nat.max_zero]
  | (key, value) :: next :: rest, state, h => by
    have hvalue := Nesting.depth_le_deepest_reach h value.depth
    rw [tokensOfMembers, List.foldl_cons, List.foldl_cons, List.foldl_append]
    change List.foldl Nesting.count (value.tokens.foldl Nesting.count state) _ = _
    rw [foldl_count_tokens value h, List.foldl_cons]
    change List.foldl Nesting.count (state.reach value.depth) _ = _
    rw [foldl_count_tokensOfMembers (next :: rest) hvalue, Nesting.reach_reach]
    rfl

end

end Document

/-- What the scan of brackets holds when the lexer has read the text so far. -/
def Lexer.scan (lexer : Lexer) : Nesting :=
  { lexer.tokens.foldr (fun token state => Nesting.count state token) {} with
    quoted :=
      match lexer.lexeme with
      | .quoted _ | .escape _ | .unit _ _ _ => true
      | _ => false
    escaped :=
      match lexer.lexeme with
      | .escape _ => true
      | _ => false }

namespace Nesting

/-- A kind of character without quotes and brackets leaves the scan as it is. -/
theorem plainStep_eq_self {state : Nesting} {c : Char} (accepts : Char → Bool)
    (hmarks : ['"', '[', '{', ']', '}'].any accepts = false) (hc : accepts c = true) :
    state.plainStep c = state := by
  have hne : ∀ mark ∈ ['"', '[', '{', ']', '}'], c ≠ mark := by
    intro mark hmark heq
    apply List.any_eq_false.mp hmarks mark hmark
    rw [← heq, hc]
  simp only [List.forall_mem_cons] at hne
  obtain ⟨hquote, harray, hobject, hcloseArray, hcloseObject, -⟩ := hne
  simp [plainStep, hquote, harray, hobject, hcloseArray, hcloseObject]

end Nesting

namespace Lexer

variable {lexer next last : Lexer} {tokens : List Token} {pieces : List Piece} {c : Char}

theorem scan_begin? (h : begin? tokens c = some next) :
    next.scan = (scan ⟨.between, tokens⟩).plainStep c := by
  unfold begin? at h
  split at h
  · rename_i hspace
    cases h
    exact (Nesting.plainStep_eq_self isSpace rfl hspace).symm
  split at h
  · rename_i hquote
    cases h
    rw [eq_of_beq hquote]
    rfl
  split at h
  · rename_i hnumber
    cases h
    exact (Nesting.plainStep_eq_self isNumberStart rfl hnumber).symm
  split at h
  · rename_i hword
    cases h
    exact (Nesting.plainStep_eq_self isWordChar rfl hword).symm
  · obtain ⟨token, hmark, rfl⟩ := Option.map_eq_some_iff.mp h
    unfold Token.punctuation? at hmark
    split at hmark <;> cases hmark <;> rfl

theorem scan_word {word : List Char} {token : Token} (h : Token.ofWord? word = some token) :
    scan ⟨.between, token :: tokens⟩ = scan ⟨.between, tokens⟩ := by
  obtain ⟨-, rfl⟩ | ⟨-, rfl⟩ | ⟨-, rfl⟩ := ofWord?_cases h
  · rfl
  · rfl
  · rfl

theorem scan_quotedStep? (h : quotedStep? tokens pieces c = some next) :
    next.scan = (scan ⟨.quoted pieces, tokens⟩).quotedStep c := by
  unfold quotedStep? at h
  split at h
  · rename_i hquote
    cases h
    rw [eq_of_beq hquote]
    rfl
  split at h
  · rename_i hbackslash
    cases h
    rw [eq_of_beq hbackslash]
    rfl
  split at h
  · cases h
  · rename_i hquote hbackslash _
    cases h
    simp [scan, Nesting.quotedStep, hquote, hbackslash]

theorem scan_escapeStep? (h : escapeStep? tokens pieces c = some next) :
    next.scan = (scan ⟨.escape pieces, tokens⟩).quotedStep c := by
  unfold escapeStep? at h
  split at h
  · cases h
    rfl
  · obtain ⟨plain, -, rfl⟩ := Option.map_eq_some_iff.mp h
    rfl

theorem scan_unitStep? {missing value : Nat}
    (h : unitStep? tokens pieces missing value c = some next) :
    next.scan = (scan ⟨.unit pieces missing value, tokens⟩).quotedStep c := by
  obtain ⟨digit, hdigit, rfl⟩ := Option.map_eq_some_iff.mp h
  -- A hexadecimal digit is neither a quote nor a backslash.
  have hquote : c ≠ '"' := by
    rintro rfl
    cases hdigit
  have hbackslash : c ≠ '\\' := by
    rintro rfl
    cases hdigit
  cases missing <;> simp [scan, Nesting.quotedStep, hquote, hbackslash]

theorem scan_step? (h : lexer.step? c = some next) : next.scan = lexer.scan.step c := by
  obtain ⟨lexeme, tokens⟩ := lexer
  cases lexeme with
  | between => exact scan_begin? h
  | word text =>
    simp only [step?] at h
    split at h
    · rename_i hword
      cases h
      exact (Nesting.plainStep_eq_self isWordChar rfl hword).symm
    · obtain ⟨token, htoken, hbegin⟩ := Option.bind_eq_some_iff.mp h
      rw [scan_begin? hbegin, scan_word htoken]
      rfl
  | number text =>
    simp only [step?] at h
    split at h
    · rename_i hnumber
      cases h
      exact (Nesting.plainStep_eq_self isNumberChar rfl hnumber).symm
    · obtain ⟨number, -, hbegin⟩ := Option.bind_eq_some_iff.mp h
      rw [scan_begin? hbegin]
      rfl
  | quoted pieces => exact scan_quotedStep? h
  | escape pieces => exact scan_escapeStep? h
  | unit pieces missing value => exact scan_unitStep? h

theorem scan_foldlM {text : List Char} (h : text.foldlM step? lexer = some last) :
    last.scan = text.foldl Nesting.step lexer.scan := by
  induction text generalizing lexer with
  | nil =>
    cases h
    rfl
  | cons c rest ih =>
    rw [List.foldlM_cons] at h
    obtain ⟨next, hstep, hrest⟩ := Option.bind_eq_some_iff.mp h
    rw [List.foldl_cons, ← scan_step? hstep]
    exact ih hrest

theorem deepest_scan_of_finish? (h : lexer.finish? = some tokens) :
    lexer.scan.deepest = (tokens.foldl Nesting.count {}).deepest := by
  -- The lexer holds its tokens backwards, and a word or number that is still open has no brackets.
  have hscan : ∀ done : List Token, (scan ⟨.between, done⟩).deepest =
      (done.reverse.foldl Nesting.count {}).deepest := by
    intro done
    rw [List.foldl_reverse]
    rfl
  obtain ⟨lexeme, done⟩ := lexer
  cases lexeme with
  | between =>
    cases h
    exact hscan done
  | word text =>
    obtain ⟨token, htoken, rfl⟩ := Option.map_eq_some_iff.mp h
    rw [← hscan (token :: done), scan_word htoken]
    rfl
  | number text =>
    obtain ⟨number, -, rfl⟩ := Option.map_eq_some_iff.mp h
    exact hscan (.number number :: done)
  | _ => cases h

end Lexer

theorem nesting_of_tokens? {text : List Char} {tokens : List Token}
    (h : tokens? text = some tokens) :
    nesting text = (tokens.foldl Nesting.count {}).deepest := by
  obtain ⟨last, hread, hfinish⟩ := Option.bind_eq_some_iff.mp h
  have hscan : last.scan = text.foldl Nesting.step {} := Lexer.scan_foldlM hread
  rw [nesting, ← hscan]
  exact Lexer.deepest_scan_of_finish? hfinish

theorem nesting_of_tokens?_tokens {text : List Char} {document : Document}
    (h : tokens? text = some document.tokens) : nesting text = document.depth := by
  have hcount : document.tokens.foldl Nesting.count {} = Nesting.reach {} document.depth :=
    document.foldl_count_tokens (Nat.le_refl 0)
  rw [nesting_of_tokens? h, hcount]
  simp [Nesting.reach]

/-- In the text of a document the scan finds the document's depth. -/
theorem nesting_written (document : Document) : nesting document.written = document.depth :=
  nesting_of_tokens?_tokens document.tokens?_written

end Verdict.Json
