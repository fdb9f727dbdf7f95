import Std.Data.HashMap
import Verdict.Evaluation
import Verdict.Rule.Basic

namespace Verdict

structure Cache where
  exprs : Std.HashMap String Expr

namespace Cache

/-- The number of rules that a cache may hold. -/
def capacity : Nat := 4096

def empty : Cache :=
  ⟨∅⟩

instance : EmptyCollection Cache :=
  ⟨empty⟩

instance : Inhabited Cache :=
  ⟨empty⟩

def size (cache : Cache) : Nat :=
  cache.exprs.size

def find? (cache : Cache) (rule : String) : Option Expr :=
  cache.exprs[rule]?

/-- Keeps the expression of one more rule. A cache that is full is emptied for it. -/
def store (cache : Cache) (rule : String) (expr : Expr) : Cache :=
  let room := if capacity ≤ cache.size then empty else cache
  ⟨room.exprs.insert rule expr⟩

/-- The expression of a rule, from the cache if it is kept there. -/
def get (cache : Cache) (rule : String) : Except RuleError Expr × Cache :=
  match cache.find? rule with
  | some expr => (.ok expr, cache)
  | none =>
    match Expr.ofRule {} rule with
    | .error error => (.error error, cache)
    | .ok expr => (.ok expr, cache.store rule expr)

/-- Whether a rule holds for the fields. The rule is kept even if its evaluation fails. -/
def check (cache : Cache) (rule : String) (fields : Fields) : Except RuleError Bool × Cache :=
  let (found, next) := cache.get rule
  (found.bind fun expr => expr.evaluate .shortCircuit fields, next)

def clear (_ : Cache) : Cache :=
  empty

end Cache

end Verdict
