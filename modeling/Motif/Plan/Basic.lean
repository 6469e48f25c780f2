import Motif.Pattern.Body

/-!
Plans: in which order the constraints of a body are applied. A plan runs from left to right. What is
bound when a constraint is applied is computed here in two ways, along the run and from the shape
of a sub-plan alone.
-/
set_option autoImplicit false
namespace Motif

open Std (ExtTreeSet)

/-- Constraints are named by their index in the body. -/
inductive Plan where
  /-- nothing applied yet; `bound` are the variables that have a value on entry -/
  | start (bound : ExtTreeSet Variable)
  | apply (before : Plan) (index : Nat)
  /-- keeps only `variables`, in this order -/
  | project (before : Plan) (vars : List Variable)
  | join (left right : Plan)
  deriving DecidableEq, Repr

def Body.affectedAt (b : Body) (index : Nat) : ExtTreeSet Variable :=
  match b.constraints[index]? with
  | some c => b.affected index c
  | none => {}

namespace Plan

def sequence (b : Body) (bound : ExtTreeSet Variable) (order : List Nat) : Plan :=
  .project (order.foldl apply (start bound)) b.parameters

def applied : Plan → List Nat
  | start _ => []
  | apply before index => before.applied ++ [index]
  | project before _ => before.applied
  | join left right => left.applied ++ right.applied

def entry : Plan → ExtTreeSet Variable
  | start bound => bound
  | apply before _ | project before _ => before.entry
  | join left right => left.entry ∪ right.entry

/-- The variables that a sub-plan by itself leaves bound. -/
def bound (b : Body) : Plan → ExtTreeSet Variable
  | start bound => bound
  | apply before index => before.bound b ∪ b.affectedAt index
  | project _ xs => .ofList xs
  | join left right => left.bound b ∪ right.bound b

/-- Runs the plan from the variables bound so far: those bound in the end, and for every constraint
applied those bound before it. The right side of a join comes after its left side. -/
def run (b : Body) : Plan → ExtTreeSet Variable → ExtTreeSet Variable × List (Nat × ExtTreeSet Variable)
  | start bound, before => (before ∪ bound, [])
  | apply parent index, before =>
    let (now, states) := parent.run b before
    (now ∪ b.affectedAt index, states ++ [(index, now)])
  | project parent xs, before =>
    let (now, states) := parent.run b before
    (before ∪ .ofList (xs.filter fun x => x ∈ now), states)
  | join left right, before =>
    let (now, states) := left.run b before
    let (last, more) := right.run b now
    (last, states ++ more)

def states (b : Body) (p : Plan) : List (Nat × ExtTreeSet Variable) := (p.run b {}).2

def text : Plan → String
  | start bound => "start[" ++ ",".intercalate bound.toList ++ "]"
  | apply before index => before.text ++ " -> #" ++ toString index
  | project before xs => before.text ++ " -> project(" ++ ",".intercalate xs ++ ")"
  | join left right => "join(" ++ left.text ++ "; " ++ right.text ++ ")"

end Plan
end Motif
