import Verdict.Expr.Basic

namespace Verdict.Expr

@[simp]
theorem height_leaf (text : String) : (Expr.leaf text).height = 1 := rfl

theorem height_pos (expr : Expr) : 0 < expr.height := by
  cases expr with
  | leaf text => exact Nat.one_pos
  | node connective left right =>
    rw [height]
    omega

theorem leavesFrom_eq (found : List String) (pending : List Expr) :
    leavesFrom found pending = found.reverse ++ pending.flatMap fringe := by
  fun_induction leavesFrom found pending with
  | case1 found => simp
  | case2 found text rest ih => simp [ih, fringe]
  | case3 found connective left right rest ih => simp [ih, fringe]

theorem leaves_eq_fringe (expr : Expr) : expr.leaves = expr.fringe := by
  simp [leaves, leavesFrom_eq]

/-- The deepest level that is met below a pending expression. -/
def deepestLevel (pending : Expr × Nat) : Nat :=
  pending.2 + pending.1.height - 1

theorem depthFrom_eq (deepest : Nat) (pending : List (Expr × Nat)) :
    depthFrom deepest pending = (pending.map deepestLevel).foldl max deepest := by
  fun_induction depthFrom deepest pending with
  | case1 deepest => rfl
  | case2 deepest text level rest ih =>
    rw [ih, List.map_cons, List.foldl_cons]
    rfl
  | case3 deepest connective left right level rest ih =>
    rw [ih]
    simp only [List.map_cons, List.foldl_cons, deepestLevel, height]
    congr 1
    have hleft := left.height_pos
    have hright := right.height_pos
    omega

theorem depth_eq_height (expr : Expr) : expr.depth = expr.height := by
  rw [depth, depthFrom_eq]
  simp [deepestLevel]

/-- Makes rounds until no further one can be made, but not more of them than the fuel allows. -/
def runRounds {σ : Type} (round : σ → Option σ) : (fuel : Nat) → σ → Option σ
  | 0, state => if (round state).isSome then none else some state
  | fuel + 1, state =>
    match round state with
    | none => some state
    | some next => runRounds round fuel next

/--
Rounds that take one from a measure are over when it is used up. The state `last` that they lead to
is the same before and after each of them.
-/
theorem runRounds_eq {σ : Type} {round : σ → Option σ} (measure : σ → Nat) (last : σ → σ)
    (hlast : ∀ state, round state = none → measure state = 0 ∧ last state = state)
    (hround : ∀ state next, round state = some next →
      measure state = measure next + 1 ∧ last state = last next) (fuel : Nat) (state : σ) :
    runRounds round fuel state = if measure state ≤ fuel then some (last state) else none := by
  induction fuel generalizing state with
  | zero =>
    rw [runRounds]
    cases hnext : round state with
    | none =>
      obtain ⟨hmeasure, hstate⟩ := hlast state hnext
      simp [hmeasure, hstate]
    | some next =>
      obtain ⟨hmeasure, -⟩ := hround state next hnext
      simp [hmeasure]
  | succ fuel ih =>
    rw [runRounds]
    cases hnext : round state with
    | none =>
      obtain ⟨hmeasure, hstate⟩ := hlast state hnext
      simp [hmeasure, hstate]
    | some next =>
      obtain ⟨hmeasure, hstate⟩ := hround state next hnext
      simp [ih, hmeasure, hstate]

/-- The leaves found so far, backwards, and the expressions that are pending. -/
abbrev LeavesWalk := List String × List Expr

/-- The deepest level met so far, and the expressions that are pending, each with its level. -/
abbrev DepthWalk := Nat × List (Expr × Nat)

def leavesRound : LeavesWalk → Option LeavesWalk
  | (_, []) => none
  | (found, .leaf text :: rest) => some (text :: found, rest)
  | (found, .node _ left right :: rest) => some (found, left :: right :: rest)

def depthRound : DepthWalk → Option DepthWalk
  | (_, []) => none
  | (deepest, (.leaf _, level) :: rest) => some (max deepest level, rest)
  | (deepest, (.node _ left right, level) :: rest) =>
    some (max deepest level, (right, level + 1) :: (left, level + 1) :: rest)

theorem leavesRound_eq_some {walk next : LeavesWalk} (h : leavesRound walk = some next) :
    totalSize walk.2 = totalSize next.2 + 1 ∧
      leavesFrom walk.1 walk.2 = leavesFrom next.1 next.2 := by
  unfold leavesRound at h
  split at h
  · cases h
  · cases h
    exact ⟨Nat.add_comm .., by rw [leavesFrom]⟩
  · cases h
    refine ⟨?_, by rw [leavesFrom]⟩
    simp only [totalSize, size]
    omega

theorem depthRound_eq_some {walk next : DepthWalk} (h : depthRound walk = some next) :
    totalSize (walk.2.map Prod.fst) = totalSize (next.2.map Prod.fst) + 1 ∧
      depthFrom walk.1 walk.2 = depthFrom next.1 next.2 := by
  unfold depthRound at h
  split at h
  · cases h
  · cases h
    exact ⟨Nat.add_comm .., by rw [depthFrom]⟩
  · cases h
    refine ⟨?_, by rw [depthFrom]⟩
    simp only [List.map_cons, totalSize, size]
    omega

theorem runRounds_leavesRound (fuel : Nat) (walk : LeavesWalk) :
    runRounds leavesRound fuel walk =
      if totalSize walk.2 ≤ fuel then some ((leavesFrom walk.1 walk.2).reverse, []) else none := by
  refine runRounds_eq (fun walk => totalSize walk.2)
    (fun walk => ((leavesFrom walk.1 walk.2).reverse, [])) ?_ ?_ fuel walk
  · rintro ⟨found, pending⟩ h
    cases pending with
    | nil => simp [totalSize, leavesFrom]
    | cons expr rest => cases expr <;> cases h
  · intro walk next h
    obtain ⟨hsize, hleaves⟩ := leavesRound_eq_some h
    exact ⟨hsize, by rw [hleaves]⟩

theorem runRounds_depthRound (fuel : Nat) (walk : DepthWalk) :
    runRounds depthRound fuel walk =
      if totalSize (walk.2.map Prod.fst) ≤ fuel then some (depthFrom walk.1 walk.2, [])
      else none := by
  refine runRounds_eq (fun walk => totalSize (walk.2.map Prod.fst))
    (fun walk => (depthFrom walk.1 walk.2, [])) ?_ ?_ fuel walk
  · rintro ⟨deepest, pending⟩ h
    cases pending with
    | nil => simp [totalSize, depthFrom]
    | cons first rest =>
      obtain ⟨expr, level⟩ := first
      cases expr <;> cases h
  · intro walk next h
    obtain ⟨hsize, hdepth⟩ := depthRound_eq_some h
    exact ⟨hsize, by rw [hdepth]⟩

/--
Both walks are over after as many rounds as the tree has nodes, and not before. What they have found
then is what recursion on the tree gives: the leaves on the left before those on the right, and one
level more than the deeper operand has.
-/
theorem walks_eq_recursion (expr : Expr) :
    (∀ fuel, runRounds leavesRound fuel ([], [expr]) =
      if expr.size ≤ fuel then some (expr.leaves.reverse, []) else none) ∧
    (∀ fuel, runRounds depthRound fuel (0, [(expr, 1)]) =
      if expr.size ≤ fuel then some (expr.depth, []) else none) ∧
    match expr with
    | .leaf text => expr.leaves = [text] ∧ expr.depth = 1
    | .node _ left right =>
      expr.leaves = left.leaves ++ right.leaves ∧ expr.depth = 1 + max left.depth right.depth := by
  refine ⟨fun fuel => runRounds_leavesRound fuel _, fun fuel => runRounds_depthRound fuel _, ?_⟩
  cases expr with
  | leaf text => exact ⟨leaves_eq_fringe _, depth_eq_height _⟩
  | node connective left right =>
    simp only [leaves_eq_fringe, depth_eq_height]
    exact ⟨rfl, rfl⟩

end Verdict.Expr
