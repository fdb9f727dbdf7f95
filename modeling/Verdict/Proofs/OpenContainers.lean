import Verdict.Expr.Json
import Verdict.Proofs.Layouts
import Verdict.Proofs.StepwiseReading

/-!
# Open containers

The reader stops at the first character or token that is refused, while the scan of brackets goes on
to the end of the text. Wherever the reader has come to, the depth of the scan is the number of
containers that are open. So a limit on their number that the scan does not pass is never felt,
whether the text is a document or not.
-/

namespace Verdict

namespace Json

namespace Nesting

theorem deepest_le_step (state : Nesting) (c : Char) : state.deepest ≤ (state.step c).deepest := by
  unfold step quotedStep plainStep
  grind

theorem depth_le_deepest_step {state : Nesting} (h : state.depth ≤ state.deepest) (c : Char) :
    (state.step c).depth ≤ (state.step c).deepest := by
  unfold step quotedStep plainStep
  grind

theorem deepest_le_foldl_step (state : Nesting) (text : List Char) :
    state.deepest ≤ (text.foldl step state).deepest := by
  induction text generalizing state with
  | nil => exact Nat.le_refl _
  | cons c rest ih => exact (state.deepest_le_step c).trans (ih (state.step c))

theorem depth_le_deepest_foldl_step {state : Nesting} (h : state.depth ≤ state.deepest)
    (text : List Char) : (text.foldl step state).depth ≤ (text.foldl step state).deepest := by
  induction text generalizing state with
  | nil => exact h
  | cons c rest ih => exact ih (depth_le_deepest_step h c)

theorem deepest_le_count (state : Nesting) (token : Token) :
    state.deepest ≤ (state.count token).deepest := by
  cases token <;> simp only [count] <;> omega

theorem deepest_le_foldl_count (state : Nesting) (tokens : List Token) :
    state.deepest ≤ (tokens.foldl count state).deepest := by
  induction tokens generalizing state with
  | nil => exact Nat.le_refl _
  | cons token rest ih => exact (state.deepest_le_count token).trans (ih (state.count token))

end Nesting

theorem nesting_le_of_isPrefix {before text : List Char} (h : before <+: text) :
    nesting before ≤ nesting text := by
  obtain ⟨rest, rfl⟩ := h
  rw [nesting, nesting, List.foldl_append]
  exact Nesting.deepest_le_foldl_step _ rest

namespace Reader

/-- The number of containers that have been opened and not yet closed. -/
def openContainers : Reader → Nat
  | .beforeValue frames | .afterValue _ frames => frames.length
  | .afterOpenArray frames | .afterOpenObject frames | .beforeKey _ frames
  | .beforeColon _ _ frames => frames.length + 1

variable {limit : Option Nat} {bound : Nat} {reader next last : Reader} {token : Token}
  {tokens : List Token} {frames : List Frame} {state : Nesting}

theorem openContainers_begin? (hdepth : state.depth = frames.length)
    (h : begin? limit frames token = some next) :
    (state.count token).depth = next.openContainers := by
  unfold begin? at h
  split at h
  · split at h <;> cases h
    exact congrArg Nat.succ hdepth
  · split at h <;> cases h
    exact congrArg Nat.succ hdepth
  · cases h
    exact hdepth
  · cases h
    exact hdepth
  · cases h
    exact hdepth
  · cases h
    exact hdepth
  · cases h

theorem openContainers_step? (hdepth : state.depth = reader.openContainers)
    (h : step? limit reader token = some next) :
    (state.count token).depth = next.openContainers := by
  unfold step? at h
  split at h
  · exact openContainers_begin? hdepth h
  · cases h
    exact congrArg Nat.pred hdepth
  · rename_i frames _
    have hopen : state.depth = (Frame.array [] :: frames).length := hdepth
    exact openContainers_begin? hopen h
  · cases h
    exact congrArg Nat.pred hdepth
  · cases h
    exact hdepth
  · cases h
    exact hdepth
  · cases h
    exact hdepth
  · cases h
    exact hdepth
  · cases h
    exact congrArg Nat.pred hdepth
  · cases h
    exact hdepth
  · cases h
    exact congrArg Nat.pred hdepth
  · cases h

theorem openContainers_foldlM (hdepth : state.depth = reader.openContainers)
    (h : tokens.foldlM (step? limit) reader = some last) :
    (tokens.foldl Nesting.count state).depth = last.openContainers := by
  induction tokens generalizing reader state with
  | nil =>
    cases h
    exact hdepth
  | cons token rest ih =>
    rw [List.foldlM_cons] at h
    obtain ⟨next, hstep, hrest⟩ := Option.bind_eq_some_iff.mp h
    exact ih (openContainers_step? hdepth hstep) hrest

/-! ### A limit that is not felt

The reader asks for room before it opens a container, and the scan counts the same bracket. What the
scan has counted stays in its deepest level, so one bound on this level at the end is a bound for
every container on the way. -/

theorem begin?_of_count_le (hdepth : state.depth = frames.length)
    (hbound : (state.count token).depth ≤ bound) :
    begin? (some bound) frames token = begin? none frames token := by
  have hopen (h : state.depth + 1 ≤ bound) : mayOpen (some bound) frames = true :=
    decide_eq_true (hdepth ▸ h)
  cases token with
  | openArray => rw [begin?, if_pos (hopen hbound)]; rfl
  | openObject => rw [begin?, if_pos (hopen hbound)]; rfl
  | _ => rfl

theorem step?_of_count_le (hdepth : state.depth = reader.openContainers)
    (hbound : (state.count token).depth ≤ bound) :
    step? (some bound) reader token = step? none reader token := by
  unfold step?
  split
  · exact begin?_of_count_le hdepth hbound
  · rfl
  · rename_i frames _
    have hopen : state.depth = (Frame.array [] :: frames).length := hdepth
    exact begin?_of_count_le hopen hbound
  all_goals rfl

/-- A limit that the brackets do not pass changes nothing, also where the tokens are refused. -/
theorem foldlM_of_deepest_le (hdepth : state.depth = reader.openContainers)
    (hdeepest : state.depth ≤ state.deepest)
    (hbound : (tokens.foldl Nesting.count state).deepest ≤ bound) :
    tokens.foldlM (step? (some bound)) reader = tokens.foldlM (step? none) reader := by
  induction tokens generalizing reader state with
  | nil => rfl
  | cons token rest ih =>
    -- The level behind this token is one that the scan has passed, so it is within the bound.
    have hnext := Nesting.depth_le_deepest_count_open token hdeepest
    have hcount := hnext.trans ((Nesting.deepest_le_foldl_count _ rest).trans hbound)
    rw [List.foldlM_cons, List.foldlM_cons, step?_of_count_le hdepth hcount]
    cases hstep : step? none reader token with
    | none => rfl
    | some next => exact ih (openContainers_step? hdepth hstep) hnext hbound

end Reader

namespace Progress

variable {limit : Option Nat} {text before : List Char} {progress : Progress}

/-- The scan of a text counts the brackets among the tokens that have been found in it. -/
theorem scan_eq_count {lexer : Lexer} (h : text.foldlM Lexer.step? Lexer.start = some lexer) :
    (text.foldl Nesting.step {}).depth = (lexer.tokens.reverse.foldl Nesting.count {}).depth ∧
      nesting text = (lexer.tokens.reverse.foldl Nesting.count {}).deepest := by
  have hscan : lexer.scan = text.foldl Nesting.step {} := Lexer.scan_foldlM h
  rw [nesting, ← hscan, List.foldl_reverse]
  exact ⟨rfl, rfl⟩

theorem after?_of_nesting_le {bound : Nat} (h : nesting text ≤ bound) :
    after? (some bound) text = after? none text := by
  rw [after?_eq, after?_eq]
  cases hlexer : text.foldlM Lexer.step? Lexer.start with
  | none => rfl
  | some lexer =>
    rw [(scan_eq_count hlexer).2] at h
    rw [Option.bind_some, Option.bind_some,
      Reader.foldlM_of_deepest_le rfl (Nat.le_refl 0) h]

/-- Wherever the reader has come to, the brackets that are open are its containers. -/
theorem openContainers_of_after? (h : after? limit text = some progress) :
    progress.reader.openContainers = (text.foldl Nesting.step {}).depth := by
  rw [after?_eq] at h
  obtain ⟨lexer, hlexer, htaken⟩ := Option.bind_eq_some_iff.mp h
  obtain ⟨reader, hreader, rfl⟩ := Option.map_eq_some_iff.mp htaken
  have hstart : Nesting.depth {} = (Reader.beforeValue []).openContainers := rfl
  rw [(scan_eq_count hlexer).1]
  exact (Reader.openContainers_foldlM hstart hreader).symm

theorem openContainers_le_nesting (hbefore : before <+: text)
    (h : after? limit before = some progress) :
    progress.reader.openContainers ≤ nesting text := by
  rw [openContainers_of_after? h]
  exact (Nesting.depth_le_deepest_foldl_step (Nat.le_refl 0) before).trans
    (nesting_le_of_isPrefix hbefore)

end Progress

theorem read?_of_nesting_le {text : List Char} {bound : Nat} (h : nesting text ≤ bound) :
    Document.read? (some bound) text = Document.read? none text := by
  unfold Document.read?
  cases htokens : tokens? text with
  | none => rfl
  | some tokens =>
    have hstart : Nesting.depth {} = (Reader.beforeValue []).openContainers := rfl
    rw [nesting_of_tokens? htokens] at h
    rw [Option.bind_some, Option.bind_some, Document.ofTokens?,
      Reader.foldlM_of_deepest_le hstart (Nat.le_refl 0) h, Document.ofTokens?]

end Json

theorem Expr.ofJson_eq_treeTooDeep_iff {text : String} :
    ofJson text = .error .treeTooDeep ↔ defaultMaxDepth < Json.nesting text.toList := by
  unfold ofJson
  split
  · simp_all
  · rename_i hnesting
    split <;> simp [hnesting]

namespace Json

/--
The scan of brackets stands in for a limit of the reader. A limit that the scan does not pass makes
no difference, at no place that the reader comes to, and the scan finds exactly the depth of a
document. So an expression is read without ever more than 256 containers open, and no document of at
most 256 levels is refused for its depth.
-/
theorem reading_within_nesting (text : String) :
    (∀ limit, Document.read? limit text.toList =
      (Progress.after? limit text.toList).bind (Progress.finish? limit)) ∧
    (∀ bound, nesting text.toList ≤ bound →
      Document.read? (some bound) text.toList = Document.read? none text.toList ∧
        ∀ before, before <+: text.toList →
          Progress.after? (some bound) before = Progress.after? none before) ∧
    (∀ document : Document, document.LaidOutAs text →
      nesting text.toList = document.depth ∧
        (document.depth ≤ 256 → Expr.ofJson text ≠ .error .treeTooDeep)) ∧
    ∀ before progress, before <+: text.toList → Progress.after? none before = some progress →
      progress.reader.openContainers ≤ nesting text.toList ∧
        (Expr.ofJson text ≠ .error .treeTooDeep → progress.reader.openContainers ≤ 256) := by
  have hrefused : Expr.ofJson text = .error .treeTooDeep ↔ 256 < nesting text.toList :=
    Expr.ofJson_eq_treeTooDeep_iff
  refine ⟨fun limit => Progress.read?_eq_after? limit _, ?_, ?_, ?_⟩
  · intro bound hbound
    refine ⟨read?_of_nesting_le hbound, fun before hbefore => ?_⟩
    exact Progress.after?_of_nesting_le ((nesting_le_of_isPrefix hbefore).trans hbound)
  · intro document hlayout
    have hnesting := Document.nesting_of_laidOutAs hlayout
    refine ⟨hnesting, fun hdepth hdeep => ?_⟩
    have hlt := hrefused.mp hdeep
    rw [hnesting] at hlt
    exact Nat.not_lt.mpr hdepth hlt
  · intro before progress hbefore hprogress
    have hopen := Progress.openContainers_le_nesting hbefore hprogress
    refine ⟨hopen, fun hread => hopen.trans ?_⟩
    exact Nat.not_lt.mp fun hlt => hread (hrefused.mpr hlt)

/-- Brackets inside quoted texts and behind the place where the reader stops, and a document. -/
theorem reading_within_nesting_garbage :
    let garbage := "[\x7b\"k\":\"\\\"\x7d[\"\x7d\x7d,[["
    let before := ['[', '{', '"', 'k', '"']
    let progress : Progress := ⟨.between, .beforeColon [] (.ofText "k") [.array []]⟩
    let document : Document := .array [.object [(.ofText "k", .ofString "\"\x7d[")]]
    (nesting garbage.toList ≤ 2 ∧
      Document.read? (some 2) garbage.toList = Document.read? none garbage.toList) ∧
    (before <+: garbage.toList ∧ Progress.after? none before = some progress ∧
      Progress.after? (some 2) before = some progress ∧
      progress.reader.openContainers ≤ nesting garbage.toList ∧
      Expr.ofJson garbage ≠ .error .treeTooDeep ∧ progress.reader.openContainers ≤ 256) ∧
    document.LaidOutAs document.toText ∧ nesting document.toText.toList = document.depth ∧
      document.depth ≤ 256 ∧ Expr.ofJson document.toText ≠ .error .treeTooDeep := by
  intro garbage before progress document
  have hbound : nesting garbage.toList ≤ 2 := by decide +kernel
  have hbefore : before <+: garbage.toList := by decide +kernel
  have hprogress : Progress.after? none before = some progress := rfl
  have hread : Expr.ofJson garbage ≠ .error .treeTooDeep := by
    rw [ne_eq, Expr.ofJson_eq_treeTooDeep_iff]
    exact Nat.not_lt.mpr (hbound.trans (by decide))
  have hlayout : document.LaidOutAs document.toText := laidOutAs_toText document
  have hdepth : document.depth ≤ 256 := by decide
  obtain ⟨-, hlimit, -, hopen⟩ := reading_within_nesting garbage
  obtain ⟨-, -, hdocument, -⟩ := reading_within_nesting document.toText
  obtain ⟨hsame, hsteps⟩ := hlimit 2 hbound
  obtain ⟨hcontainers, hmost⟩ := hopen before progress hbefore hprogress
  obtain ⟨hnesting, haccepted⟩ := hdocument document hlayout
  exact ⟨⟨hbound, hsame⟩,
    ⟨hbefore, hprogress, (hsteps before hbefore).trans hprogress, hcontainers, hread, hmost hread⟩,
    hlayout, hnesting, hdepth, haccepted hdepth⟩

end Json

end Verdict
