import Motif.Plan.Basic
import Motif.PlanError

/-!
The plan chosen when none is given: again and again the cheapest constraint that can be applied to
what is bound so far. Checks come first, then constants, copies and expressions, then folds, then
steps along a feature from a bound end, then whole extents and calls, and last features with neither
end bound.
-/
set_option autoImplicit false
namespace Motif

open Std (ExtTreeSet)
namespace Greedy

/-- A constraint that waits to be applied: the variables it must find bound, and those it leaves
bound. -/
structure Candidate where
  index : Nat
  constraint : Constraint
  deferred : ExtTreeSet Variable
  affected : ExtTreeSet Variable
  deriving DecidableEq

def candidates (b : Body) : List Candidate :=
  b.constraints.zipIdx.map fun c =>
    ⟨c.2, c.1, b.deferred c.2 c.1, b.affected c.2 c.1⟩

/-- What applying the constraint costs a backend when `bound` is bound; none if it cannot be applied
yet. -/
def cost? (backend : Backend) (bound : ExtTreeSet Variable) (k : Candidate) : Option Nat :=
  if k.deferred.toList.any fun x => x ∉ bound then none
  else if k.affected.toList.all fun x => x ∈ bound then some 0
  else
    match k.constraint with
    | .constant .. | .check .. | .eval .. => some 1
    | .equal l r => if l ∈ bound ∨ r ∈ bound then some 1 else none
    | .count .. | .aggregate .. => some 2
    | .holds (.feature _) xs => if xs.any fun x => x ∈ bound then some 3 else some 6
    | .holds (.extent _) _ => some 4
    | .closure .. => if backend = .rete then some 4 else none
    | .find .. => if backend = .rete then some 5 else none
    | .lacks .. | .unequal .. => none

def cheapest? (cost : Candidate → Option Nat) : List Candidate → Option (Nat × Candidate)
  | [] => none
  | k :: rest =>
    match cost k, cheapest? cost rest with
    | none, best => best
    | some n, none => some (n, k)
    | some n, some (m, other) => if m < n then some (m, other) else some (n, k)

def orderFrom (backend : Backend) :
    Nat → List Candidate → ExtTreeSet Variable → Except PlanError (List Nat)
  | 0, _, _ => .ok []
  | _, [], _ => .ok []
  | steps + 1, first :: rest, bound => do
    match cheapest? (cost? backend bound) (first :: rest) with
    | none => throw (.unsupported first.constraint.text (.noOrder backend))
    | some (_, k) =>
      let later ← orderFrom backend steps ((first :: rest).filter fun r => r.index ≠ k.index)
        (bound ∪ k.affected)
      return k.index :: later

def order (backend : Backend) (b : Body) (bound : ExtTreeSet Variable) :
    Except PlanError (List Nat) :=
  orderFrom backend b.constraints.length (candidates b) bound

end Greedy

def Plan.greedy (backend : Backend) (b : Body) (bound : ExtTreeSet Variable) :
    Except PlanError Plan := do
  return .sequence b bound (← Greedy.order backend b bound)

end Motif
