import Motif.Algebra.Basic
import Motif.Catalog.Basic
import Motif.Proofs.Operators

set_option autoImplicit false
namespace Motif

structure Facts (c : Catalog) where
  holds : Relation → Multiset Tuple
  found : String → Finset Tuple
  length_holds : ∀ r, ∀ t ∈ holds r, t.length = r.arity
  length_found : ∀ name q, c.queries[name]? = some q → ∀ t ∈ found name, t.length = q.arity

namespace Aggregator

def sorted (op : Aggregator) : Aggregator :=
  { op with fold := fun vs => op.fold (ascending (↑vs : Multiset Value)) }

/-- The order in which values are given makes no difference. -/
def OrderFree (op : Aggregator) : Prop := ∀ vs ws : List Value, vs.Perm ws → op.fold vs = op.fold ws

theorem sorted_valueOf (op : Aggregator) (column : Option Nat) (G : Multiset Tuple) :
    op.sorted.valueOf column G = op.fold (ascending (G.map (foldedValue column))) := by
  simp only [valueOf, sorted]
  rw [← Multiset.map_coe, coe_ascending]

theorem OrderFree.sorted_eq {op : Aggregator} (h : op.OrderFree) : op.sorted = op := by
  have same : (fun vs : List Value => op.fold (ascending (↑vs : Multiset Value))) = op.fold :=
    funext fun vs => h _ _ (Multiset.coe_eq_coe.1 (by simp))
  rw [sorted, same]

end Aggregator

namespace Algebra
variable {c : Catalog}

/-- An operator folds the values of a group in ascending order. -/
noncomputable def value (f : Facts c) : Algebra → Multiset Tuple
  | constant rows _ => ↑rows
  | input r => f.holds r
  | production query _ => (f.found query).val
  | trim parent mask => (parent.value f).map mask.signature
  | constantFilter parent column v => (parent.value f).filter fun t => t[column]? = some v
  | equalityFilter parent groups => (parent.value f).filter fun t => t.equalIn groups
  | inequalityFilter parent left right => (parent.value f).filter fun t => t[left]? ≠ t[right]?
  | expression parent evaluator inputs mode =>
    match c.evaluators[evaluator]? with
    | some e => (parent.value f).filterMap (e.result inputs mode)
    | none => 0
  | join primary p secondary s =>
    naturalJoin p s s.complement (primary.value f) (secondary.value f)
  | existence primary p secondary s negative =>
    matching p s negative (primary.value f) (secondary.value f)
  | outerJoin primary p secondary s defaults =>
    leftJoin p s s.complement defaults (primary.value f) (secondary.value f)
  | grouping parent mask operator column =>
    match c.aggregators[operator]? with
    | some op => groupRows mask op.sorted column (parent.value f)
    | none => 0
  | closure parent => linkedPairs (parent.value f)

end Algebra
end Motif
