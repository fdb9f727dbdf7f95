import Mathlib.Data.Finset.Card
import Verdict.Proofs.CacheRuns
import Verdict.Proofs.RuleReading

/-!
# What a cache keeps

The rules that a cache keeps can be told from the requests alone: they are the rules that were read
since the cache was last emptied. It is emptied when it is cleared, and when a rule is read that is
not kept while the cache is full. A rule that is kept or cannot be read leaves even a full cache as
it is.
-/

namespace Verdict.Cache

def isReadable (rule : String) : Bool :=
  (Expr.ofRule {} rule).isOk

def Request.rule? : Request → Option String
  | .get rule => some rule
  | .check rule _ => some rule
  | .clear => none

/-- The rule that a request reads, unless it cannot be read. -/
def Request.readRule? (request : Request) : Option String :=
  request.rule?.filter isReadable

/-- The distinct rules that requests have read. -/
def rulesRead (requests : List Request) : Finset String :=
  (requests.filterMap Request.readRule?).toFinset

/-- Whether the cache is emptied by a request that follows those since it was last emptied. -/
def Request.empties (request : Request) (recent : List Request) : Bool :=
  match request.rule? with
  | none => true
  | some rule =>
    isReadable rule && decide (rule ∉ rulesRead recent ∧ (rulesRead recent).card = capacity)

/-- Adds a request to those since the cache was last emptied. One that empties it is their first. -/
def addRecent (recent : List Request) (request : Request) : List Request :=
  if request.empties recent then [request] else recent ++ [request]

/-- The requests since the cache was last emptied. -/
def recent (requests : List Request) : List Request :=
  requests.foldl addRecent []

theorem foldl_addRecent_suffix (requests : List Request) {before history : List Request}
    (h : before <:+ history) : requests.foldl addRecent before <:+ history ++ requests := by
  induction requests generalizing before history with
  | nil => simpa using h
  | cons request rest ih =>
    rw [List.foldl_cons, List.append_cons]
    apply ih
    obtain ⟨earlier, rfl⟩ := h
    unfold addRecent
    split
    · exact List.suffix_append _ [request]
    · exact ⟨earlier, by simp⟩

theorem recent_suffix (requests : List Request) : recent requests <:+ requests :=
  foldl_addRecent_suffix requests (List.suffix_refl [])

variable {cache : Cache} {rule : String} {expr : Expr} {error : RuleError} {fields : Fields}
  {request : Request}

theorem rulesRead_concat_of_unreadable (requests : List Request)
    (hrule : request.rule? = some rule)
    (hread : isReadable rule = false) :
    rulesRead (requests ++ [request]) = rulesRead requests := by
  have hnone : request.readRule? = none := by simp [Request.readRule?, hrule, hread]
  simp [rulesRead, hnone]

theorem rulesRead_concat_of_readable (requests : List Request)
    (hrule : request.rule? = some rule)
    (hread : isReadable rule = true) :
    rulesRead (requests ++ [request]) = insert rule (rulesRead requests) := by
  have hsome : request.readRule? = some rule := by simp [Request.readRule?, hrule, hread]
  ext other
  simp [rulesRead, hsome]

def rules (cache : Cache) : Finset String :=
  cache.exprs.keys.toFinset

theorem mem_rules_iff : rule ∈ cache.rules ↔ ∃ expr, cache.find? rule = some expr := by
  rw [rules, List.mem_toFinset, Std.HashMap.mem_keys, Std.HashMap.mem_iff_isSome_getElem?,
    Option.isSome_iff_exists, find?]

theorem card_rules (cache : Cache) : cache.rules.card = cache.size := by
  rw [rules, List.toFinset_card_of_nodup Std.HashMap.nodup_keys, Std.HashMap.length_keys, size]

theorem rules_empty : empty.rules = ∅ := by
  simp [rules, empty]

theorem rules_store (cache : Cache) (rule : String) (expr : Expr) :
    (cache.store rule expr).rules =
      if capacity ≤ cache.size then {rule} else insert rule cache.rules := by
  ext other
  rw [rules, List.mem_toFinset, Std.HashMap.mem_keys, store, Std.HashMap.mem_insert, beq_iff_eq,
    ← Std.HashMap.mem_keys, ← List.mem_toFinset]
  split
  · change rule = other ∨ other ∈ empty.rules ↔ _
    simp [rules_empty, eq_comm]
  · change rule = other ∨ other ∈ cache.rules ↔ _
    simp [eq_comm]

theorem isReadable_iff : isReadable rule = true ↔ ∃ expr, Expr.ofRule {} rule = .ok expr := by
  unfold isReadable
  cases Expr.ofRule {} rule with
  | error error => simp [Except.isOk, Except.toBool]
  | ok expr => simp [Except.isOk, Except.toBool]

theorem get_snd_of_mem (hkept : rule ∈ cache.rules) : (cache.get rule).2 = cache := by
  obtain ⟨expr, hfind⟩ := mem_rules_iff.mp hkept
  rw [get_of_find? hfind]

theorem get_snd_of_unreadable (hread : isReadable rule = false) : (cache.get rule).2 = cache := by
  obtain ⟨expr, -, hget⟩ | ⟨error, -, -, hget⟩ | ⟨expr, -, hok, -⟩ := cache.get_cases rule
  · rw [hget]
  · rw [hget]
  · have hreadable := isReadable_iff.mpr ⟨expr, hok⟩
    rw [hread] at hreadable
    cases hreadable

theorem rules_get_of_new (hnew : rule ∉ cache.rules) (hread : isReadable rule = true) :
    (cache.get rule).2.rules =
      if capacity ≤ cache.size then {rule} else insert rule cache.rules := by
  obtain ⟨expr, hok⟩ := isReadable_iff.mp hread
  have hnone : cache.find? rule = none := by
    rw [Option.eq_none_iff_forall_ne_some]
    intro found hfind
    exact hnew (mem_rules_iff.mpr ⟨found, hfind⟩)
  rw [get_of_ok hnone hok, rules_store]

theorem mem_rules_get (hread : isReadable rule = true) : rule ∈ (cache.get rule).2.rules := by
  by_cases hkept : rule ∈ cache.rules
  · rwa [get_snd_of_mem hkept]
  · rw [rules_get_of_new hkept hread]
    split <;> simp

theorem size_get_le (hsize : cache.size ≤ capacity) : (cache.get rule).2.size ≤ capacity := by
  by_cases hkept : rule ∈ cache.rules
  · rwa [get_snd_of_mem hkept]
  by_cases hread : isReadable rule = true
  · rw [← card_rules, rules_get_of_new hkept hread]
    split
    · rw [Finset.card_singleton]
      decide
    · rw [Finset.card_insert_of_notMem hkept, card_rules]
      omega
  · rwa [get_snd_of_unreadable (by simpa using hread)]

/-- The cache keeps the rules that requests have read, and not more than it may. -/
structure Keeps (cache : Cache) (recent : List Request) : Prop where
  rules_eq : cache.rules = rulesRead recent
  size_le : cache.size ≤ capacity

theorem keeps_empty : empty.Keeps [] where
  rules_eq := rules_empty
  size_le := Nat.zero_le _

theorem serve_snd (cache : Cache) (request : Request) :
    (cache.serve request).2 =
      match request.rule? with
      | none => empty
      | some rule => (cache.get rule).2 := by
  cases request <;> rfl

theorem rules_get {recent : List Request} (h : cache.Keeps recent)
    (hrule : request.rule? = some rule) :
    (cache.get rule).2.rules = rulesRead (addRecent recent request) := by
  obtain ⟨hrules, hsize⟩ := h
  rw [addRecent, Request.empties, hrule]
  by_cases hread : isReadable rule = true
  · by_cases hkept : rule ∈ cache.rules
    · have hmem : rule ∈ rulesRead recent := hrules ▸ hkept
      rw [get_snd_of_mem hkept, if_neg (by simp [hmem]), rulesRead_concat_of_readable _ hrule hread,
        Finset.insert_eq_of_mem hmem, hrules]
    · have hnew : rule ∉ rulesRead recent := hrules ▸ hkept
      have hcard : (rulesRead recent).card = cache.size := by rw [← hrules, card_rules]
      rw [rules_get_of_new hkept hread, hcard]
      by_cases hfull : capacity ≤ cache.size
      · have hsize : cache.size = capacity := Nat.le_antisymm hsize hfull
        rw [if_pos hfull, if_pos (by simp [hread, hnew, hsize])]
        exact (rulesRead_concat_of_readable [] hrule hread).symm
      · have hsize : cache.size ≠ capacity := by omega
        rw [if_neg hfull, if_neg (by simp [hsize]), rulesRead_concat_of_readable _ hrule hread,
          hrules]
  · have hread : isReadable rule = false := by simpa using hread
    rw [get_snd_of_unreadable hread, if_neg (by simp [hread]),
      rulesRead_concat_of_unreadable _ hrule hread, hrules]

theorem keeps_serve {recent : List Request} (h : cache.Keeps recent) (request : Request) :
    (cache.serve request).2.Keeps (addRecent recent request) := by
  rw [serve_snd]
  cases hrule : request.rule? with
  | none =>
    have hfirst : addRecent recent request = [request] := by
      rw [addRecent, Request.empties, hrule]
      rfl
    have hread : rulesRead [request] = ∅ := by simp [rulesRead, Request.readRule?, hrule]
    rw [hfirst]
    exact ⟨by rw [rules_empty, hread], Nat.zero_le _⟩
  | some rule => exact ⟨rules_get h hrule, size_get_le h.size_le⟩

theorem keeps_serveAll {recent : List Request} (h : cache.Keeps recent) (requests : List Request) :
    (cache.serveAll requests).2.Keeps (requests.foldl addRecent recent) := by
  induction requests generalizing cache recent with
  | nil => exact h
  | cons request rest ih => exact ih (keeps_serve h request)

theorem card_rulesRead_le (requests : List Request) :
    (rulesRead requests).card ≤ requests.length :=
  (List.toFinset_card_le _).trans (List.length_filterMap_le _ _)

/-! ### Filling a cache

As many rules as there is room for are all kept, in the order in which they are asked for. To fill a
cache takes that many different rules that can be read, and one letter, repeated, is such a rule. -/

theorem foldl_addRecent_of_room {before requests : List Request}
    (hrules : ∀ request ∈ requests, request.rule? ≠ none)
    (hroom : before.length + requests.length ≤ capacity) :
    requests.foldl addRecent before = before ++ requests := by
  induction requests generalizing before with
  | nil => simp
  | cons request rest ih =>
    obtain ⟨rule, hrule⟩ := Option.ne_none_iff_exists'.mp (hrules request List.mem_cons_self)
    have hcard := card_rulesRead_le before
    have hothers : ∀ request ∈ rest, request.rule? ≠ none :=
      fun request hmem => hrules request (List.mem_cons_of_mem _ hmem)
    rw [List.length_cons] at hroom
    have hempties : request.empties before = false := by
      have hne : (rulesRead before).card ≠ capacity := by omega
      simp [Request.empties, hrule, hne]
    have hfirst : addRecent before request = before ++ [request] := by
      simp [addRecent, hempties]
    rw [List.foldl_cons, hfirst, List.append_cons before request rest]
    apply ih hothers
    rw [List.length_append, List.length_singleton]
    omega

/-- A cache that has room for all the requests is never emptied. -/
theorem recent_of_room {requests : List Request}
    (hrules : ∀ request ∈ requests, request.rule? ≠ none) (hroom : requests.length ≤ capacity) :
    recent requests = requests := by
  apply foldl_addRecent_of_room hrules
  rwa [List.length_nil, Nat.zero_add]

theorem rulesRead_map_get {rules : List String} (h : ∀ rule ∈ rules, isReadable rule = true) :
    rulesRead (rules.map .get) = rules.toFinset := by
  rw [rulesRead, List.filterMap_map]
  have hread : rules.filterMap (Request.readRule? ∘ .get) = rules.filterMap some :=
    List.filterMap_congr fun rule hmem => by simp [Request.readRule?, Request.rule?, h rule hmem]
  rw [hread, List.filterMap_some]

/-- A word is read to a single condition, which need not be well-formed. -/
theorem ofRule_word (hne : rule.toList ≠ [])
    (hword : Text.compact rule.toList = rule.toList) :
    Expr.ofRule {} rule = .ok (Expr.comparison rule.toList) := by
  have hblank : ∀ c ∈ rule.toList, Text.isBlank c = false := by
    intro c hc
    rw [← hword] at hc
    exact ((Text.mem_compact_iff c _).mp hc).2
  have hspace : ' ' ∉ rule.toList := fun hmem => absurd (hblank ' ' hmem) (by decide)
  refine Expr.ofRule_eq_comparison (fun connective => ?_) ?_ (by decide) rfl
  · rw [Text.occurs_eq_false_iff]
    intro hheld
    have hseparator : ' ' ∈ connective.separator.toList := by cases connective <;> decide
    exact hspace (hheld.subset hseparator)
  · obtain ⟨c, rest, hrule⟩ := List.exists_cons_of_ne_nil hne
    have hc : Text.isBlank c = false := hblank c (by simp [hrule])
    rw [hrule, List.all_cons, hc, Bool.false_and]

/-- The words of one repeated letter, as many as a cache may hold. -/
def repeatedLetters : List String :=
  (List.range capacity).map fun n => String.ofList (List.replicate (n + 1) 'a')

theorem toList_of_mem_repeatedLetters (h : rule ∈ repeatedLetters) :
    ∃ n, rule.toList = List.replicate (n + 1) 'a' := by
  obtain ⟨n, -, rfl⟩ := List.mem_map.mp h
  exact ⟨n, String.toList_ofList⟩

theorem isReadable_of_mem_repeatedLetters (h : rule ∈ repeatedLetters) :
    isReadable rule = true := by
  obtain ⟨n, hrule⟩ := toList_of_mem_repeatedLetters h
  refine isReadable_iff.mpr ⟨_, ofRule_word (by simp [hrule]) ?_⟩
  rw [hrule, Text.compact, List.filter_replicate]
  rfl

theorem length_repeatedLetters : repeatedLetters.length = 4096 := by
  rw [repeatedLetters, List.length_map, List.length_range, capacity]

theorem card_repeatedLetters : repeatedLetters.toFinset.card = 4096 := by
  have hnodup : repeatedLetters.Nodup := by
    apply List.Nodup.map _ List.nodup_range
    intro m n heq
    simpa using congrArg String.length heq
  rw [List.toFinset_card_of_nodup hnodup, length_repeatedLetters]

theorem rulesRead_recent_repeatedLetters :
    rulesRead (recent (repeatedLetters.map .get)) = repeatedLetters.toFinset := by
  have hrules : ∀ request ∈ repeatedLetters.map Request.get, request.rule? ≠ none := by
    simp [Request.rule?]
  have hroom : (repeatedLetters.map Request.get).length ≤ capacity := by
    rw [List.length_map, length_repeatedLetters, capacity]
  rw [recent_of_room hrules hroom]
  exact rulesRead_map_get fun rule hmem => isReadable_of_mem_repeatedLetters hmem

/--
A cache keeps the rules that were read since it was last emptied, whatever was asked of it before.
-/
theorem rules_serveAll (requests : List Request) :
    let cache := (empty.serveAll requests).2
    cache.rules = rulesRead (recent requests) ∧ recent requests <:+ requests ∧
      cache.size = (rulesRead (recent requests)).card ∧ cache.size ≤ 4096 ∧
      (∀ rule ∈ cache.rules, (cache.get rule).2 = cache ∧
        ∀ fields, (cache.check rule fields).2 = cache) ∧
      (∀ rule error, Expr.ofRule {} rule = .error error → (cache.get rule).2 = cache ∧
        ∀ fields, (cache.check rule fields).2 = cache) ∧
      (∀ rule expr, Expr.ofRule {} rule = .ok expr → rule ∉ cache.rules → cache.size = 4096 →
        (cache.get rule).2.rules = {rule}) ∧
      ∀ rule expr fields error, Expr.ofRule {} rule = .ok expr →
        expr.evaluate .shortCircuit fields = .error error →
        (cache.check rule fields).1 = .error error ∧
          rule ∈ (cache.check rule fields).2.rules := by
  intro cache
  obtain ⟨hrules, hsize⟩ : cache.Keeps (recent requests) := keeps_serveAll keeps_empty requests
  refine ⟨hrules, recent_suffix requests, ?_, hsize, ?_, ?_, ?_, ?_⟩
  · rw [← hrules, card_rules]
  · intro rule hkept
    exact ⟨get_snd_of_mem hkept, fun fields => get_snd_of_mem hkept⟩
  · intro rule error herror
    have hread : isReadable rule = false := by rw [isReadable, herror]; rfl
    exact ⟨get_snd_of_unreadable hread, fun fields => get_snd_of_unreadable hread⟩
  · intro rule expr hok hnew hfull
    rw [rules_get_of_new hnew (isReadable_iff.mpr ⟨expr, hok⟩)]
    exact if_pos (Nat.le_of_eq hfull.symm)
  · intro rule expr fields error hok hfails
    obtain ⟨-, hsound⟩ := serveAll_of_sound sound_empty requests
    obtain ⟨hanswer, -⟩ := get_of_sound hsound rule
    refine ⟨?_, mem_rules_get (isReadable_iff.mpr ⟨expr, hok⟩)⟩
    rw [check_eq, hanswer, hok]
    exact hfails

/-- A full cache that meets a kept rule, a text that is no rule, and a rule that is new to it. -/
theorem rules_serveAll_full :
    let cache := (empty.serveAll (repeatedLetters.map .get)).2
    cache.size = 4096 ∧ (cache.get "a").2 = cache ∧ (cache.get "").2 = cache ∧
      (cache.get "b").2.rules = {"b"} ∧
      (cache.check "b" fun _ => none).1 = .error (.noOperator "b") ∧
      "b" ∈ (cache.check "b" fun _ => none).2.rules := by
  intro cache
  obtain ⟨hrules, -, hsize, -, hkept, hunreadable, hnew, hfails⟩ :=
    rules_serveAll (repeatedLetters.map .get)
  rw [rulesRead_recent_repeatedLetters] at hrules hsize
  rw [card_repeatedLetters] at hsize
  have ha : "a" ∈ cache.rules := by
    rw [hrules, List.mem_toFinset]
    exact List.mem_map.mpr ⟨0, List.mem_range.mpr (by decide), rfl⟩
  have hb : "b" ∉ cache.rules := by
    rw [hrules, List.mem_toFinset]
    intro hmem
    obtain ⟨n, hletters⟩ := toList_of_mem_repeatedLetters hmem
    have hfirst := congrArg List.head? hletters
    rw [List.replicate_succ] at hfirst
    cases hfirst
  have hblank : Expr.ofRule {} "" = .error .emptyRule := by
    rw [Expr.ofRule_eq]
    rfl
  have hword : Expr.ofRule {} "b" = .ok (.leaf "b") := ofRule_word (by decide) (by decide)
  exact ⟨hsize, (hkept "a" ha).1, (hunreadable "" .emptyRule hblank).1,
    hnew "b" (.leaf "b") hword hb hsize,
    hfails "b" (.leaf "b") (fun _ => none) (.noOperator "b") hword rfl⟩

end Verdict.Cache
