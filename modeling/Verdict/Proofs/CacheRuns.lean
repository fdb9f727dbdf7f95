import Verdict.Cache

namespace Verdict.Cache

inductive Request where
  | get (rule : String)
  | check (rule : String) (fields : Fields)
  | clear

inductive Answer where
  | expr (result : Except RuleError Expr)
  | verdict (result : Except RuleError Bool)
  | cleared

/-- The answer to a request and the cache that is left. -/
def serve (cache : Cache) : Request → Answer × Cache
  | .get rule =>
    let (result, next) := cache.get rule
    (.expr result, next)
  | .check rule fields =>
    let (result, next) := cache.check rule fields
    (.verdict result, next)
  | .clear => (.cleared, cache.clear)

/-- The answers to requests one after the other, and the cache that is left. -/
def serveAll (cache : Cache) : List Request → List Answer × Cache
  | [] => ([], cache)
  | request :: rest =>
    let (answer, next) := cache.serve request
    let (answers, last) := next.serveAll rest
    (answer :: answers, last)

/-- The answer to a request without a cache. -/
def Request.answer : Request → Answer
  | .get rule => .expr (Expr.ofRule {} rule)
  | .check rule fields => .verdict do
      let expr ← Expr.ofRule {} rule
      expr.evaluate .shortCircuit fields
  | .clear => .cleared

variable {cache : Cache} {rule other : String} {expr : Expr} {error : RuleError}

@[simp]
theorem find?_empty (rule : String) : empty.find? rule = none := by
  simp [empty, find?]

theorem get_of_find? (hkept : cache.find? rule = some expr) :
    cache.get rule = (.ok expr, cache) := by
  rw [get, hkept]

theorem get_of_error (hnew : cache.find? rule = none) (hread : Expr.ofRule {} rule = .error error) :
    cache.get rule = (.error error, cache) := by
  rw [get, hnew, hread]

theorem get_of_ok (hnew : cache.find? rule = none) (hread : Expr.ofRule {} rule = .ok expr) :
    cache.get rule = (.ok expr, cache.store rule expr) := by
  rw [get, hnew, hread]

/-- Only the look-up of the rule itself and its reading decide what a request for it does. -/
theorem get_cases (cache : Cache) (rule : String) :
    (∃ expr, cache.find? rule = some expr ∧ cache.get rule = (.ok expr, cache)) ∨
    (∃ error, cache.find? rule = none ∧ Expr.ofRule {} rule = .error error ∧
      cache.get rule = (.error error, cache)) ∨
    ∃ expr, cache.find? rule = none ∧ Expr.ofRule {} rule = .ok expr ∧
      cache.get rule = (.ok expr, cache.store rule expr) := by
  cases hfind : cache.find? rule with
  | some expr => exact .inl ⟨expr, rfl, get_of_find? hfind⟩
  | none =>
    right
    cases hread : Expr.ofRule {} rule with
    | error error => exact .inl ⟨error, rfl, rfl, get_of_error hfind hread⟩
    | ok expr => exact .inr ⟨expr, rfl, rfl, get_of_ok hfind hread⟩

theorem check_eq (cache : Cache) (rule : String) (fields : Fields) :
    cache.check rule fields =
      ((cache.get rule).1 >>= Expr.evaluate .shortCircuit fields, (cache.get rule).2) := rfl

/-- Every expression that is kept is the one that its rule is read to. -/
def Sound (cache : Cache) : Prop :=
  ∀ rule expr, cache.find? rule = some expr → Expr.ofRule {} rule = .ok expr

theorem sound_empty : empty.Sound := by
  intro rule expr hkept
  rw [find?_empty] at hkept
  cases hkept

theorem find?_store_cases {found : Expr} (h : (cache.store rule expr).find? other = some found) :
    other = rule ∧ found = expr ∨ cache.find? other = some found := by
  rw [find?, store, Std.HashMap.getElem?_insert] at h
  by_cases hrule : (rule == other) = true
  · rw [if_pos hrule] at h
    exact .inl ⟨(beq_iff_eq.mp hrule).symm, (Option.some.inj h).symm⟩
  · rw [if_neg hrule] at h
    right
    by_cases hfull : capacity ≤ cache.size
    · rw [if_pos hfull] at h
      exact absurd h (by simp [empty])
    · rwa [if_neg hfull] at h

theorem sound_store (hsound : cache.Sound) (hread : Expr.ofRule {} rule = .ok expr) :
    (cache.store rule expr).Sound := by
  intro other found hkept
  obtain ⟨rfl, rfl⟩ | hbefore := find?_store_cases hkept
  · exact hread
  · exact hsound other found hbefore

theorem get_of_sound (hsound : cache.Sound) (rule : String) :
    (cache.get rule).1 = Expr.ofRule {} rule ∧ (cache.get rule).2.Sound := by
  obtain ⟨expr, hkept, hget⟩ | ⟨error, -, hread, hget⟩ | ⟨expr, -, hread, hget⟩ :=
    cache.get_cases rule
  · rw [hget, hsound rule expr hkept]
    exact ⟨rfl, hsound⟩
  · rw [hget, hread]
    exact ⟨rfl, hsound⟩
  · rw [hget, hread]
    exact ⟨rfl, sound_store hsound hread⟩

theorem serve_of_sound (hsound : cache.Sound) (request : Request) :
    (cache.serve request).1 = request.answer ∧ (cache.serve request).2.Sound := by
  cases request with
  | get rule =>
    obtain ⟨hanswer, hnext⟩ := get_of_sound hsound rule
    exact ⟨congrArg Answer.expr hanswer, hnext⟩
  | check rule fields =>
    obtain ⟨hanswer, hnext⟩ := get_of_sound hsound rule
    rw [serve, check_eq, hanswer]
    exact ⟨rfl, hnext⟩
  | clear => exact ⟨rfl, sound_empty⟩

theorem serveAll_of_sound (hsound : cache.Sound) (requests : List Request) :
    (cache.serveAll requests).1 = requests.map Request.answer ∧
      (cache.serveAll requests).2.Sound := by
  induction requests generalizing cache with
  | nil => exact ⟨rfl, hsound⟩
  | cons request rest ih =>
    obtain ⟨hanswer, hnext⟩ := serve_of_sound hsound request
    obtain ⟨hanswers, hlast⟩ := ih hnext
    refine ⟨?_, hlast⟩
    rw [List.map_cons, ← hanswer, ← hanswers]
    rfl

/-- A cache never shows: every request of a run is answered as if there were none. -/
theorem answers_serveAll (requests : List Request) :
    (empty.serveAll requests).1 = requests.map Request.answer :=
  (serveAll_of_sound sound_empty requests).1

end Verdict.Cache
