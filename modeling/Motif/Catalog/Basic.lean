import Motif.Aggregator
import Motif.Evaluator
import Motif.Pattern.Query
import Std.Data.ExtTreeMap

set_option autoImplicit false
namespace Motif

open Std (ExtTreeMap ExtTreeSet LawfulEqOrd TransCmp TransOrd)

/-- A query together with the positions of its parameters that are bound where it is called. -/
structure Reference where
  query : String
  bound : ExtTreeSet Nat := ∅
  deriving DecidableEq, Repr

namespace Reference

def text (r : Reference) : String :=
  r.query ++ "\x7b" ++ ",".intercalate (r.bound.toList.map toString) ++ "\x7d"

def cmp : Reference → Reference → Ordering :=
  compareLex (compareOn query) (compareOn fun r => r.bound.toList)

instance : Ord Reference := ⟨cmp⟩

theorem eq_of_cmp {a b : Reference} (h : cmp a b = .eq) : a = b := by
  obtain ⟨query, bound⟩ := a
  obtain ⟨query', bound'⟩ := b
  obtain ⟨hq, hb⟩ := compareLex_eq_eq.1 h
  cases (LawfulEqOrd.eq_of_compare hq : query = query')
  cases ExtTreeSet.toList_inj.1 (LawfulEqOrd.eq_of_compare hb : bound.toList = bound'.toList)
  rfl

instance : TransOrd Reference :=
  inferInstanceAs (TransCmp (compareLex (compareOn query) (compareOn fun r => r.bound.toList)))

instance : LawfulEqOrd Reference where
  eq_of_compare := eq_of_cmp

end Reference

structure Catalog where
  queries : ExtTreeMap String Query := ∅
  evaluators : ExtTreeMap String Evaluator := ∅
  aggregators : ExtTreeMap String Aggregator :=
    .ofList (Aggregator.builtin.map fun op => (op.name, op))

namespace Catalog

/-- Adds a query, in place of the one of its name, if it is valid in itself. -/
def register (c : Catalog) (q : Query) : Except PlanError Catalog := do
  q.validate
  return { c with queries := c.queries.insert q.name q }

def registerEvaluator (c : Catalog) (e : Evaluator) : Catalog :=
  { c with evaluators := c.evaluators.insert e.name e }

def registerAggregator (c : Catalog) (op : Aggregator) : Catalog :=
  { c with aggregators := c.aggregators.insert op.name op }

def contains (c : Catalog) (name : String) : Bool := c.queries.contains name

def names (c : Catalog) : List String := c.queries.keys

def query (c : Catalog) (name : String) : Except PlanError Query :=
  match c.queries[name]? with
  | some q => .ok q
  | none => .error (.unknownQuery name)

def evaluator (c : Catalog) (name : String) : Except PlanError Evaluator :=
  match c.evaluators[name]? with
  | some e => .ok e
  | none => .error (.unknownEvaluator name)

def aggregator (c : Catalog) (name : String) : Except PlanError Aggregator :=
  match c.aggregators[name]? with
  | some op => .ok op
  | none => .error (.unknownAggregator name)

end Catalog
end Motif
