import Motif.Pattern.Constraint
import Std.Data.ExtTreeSet

/-!
One conjunction of constraints, with the variables it gives to the outside, and how its variables
are bound: a variable that only one closed-world constraint mentions is local to it and stays
unbound; the others a constraint either needs bound before it or binds.
-/
set_option autoImplicit false
namespace Motif

open Std (ExtTreeSet)

structure Body where
  parameters : List Variable
  constraints : List Constraint
  deriving DecidableEq, Repr

namespace Body

def vars (b : Body) : ExtTreeSet Variable :=
  .ofList (b.parameters ++ b.constraints.flatMap Constraint.vars)

def mentionedBeside (x : Variable) : Nat → List Constraint → Bool
  | _, [] => false
  | 0, _ :: rest => rest.any fun c => x ∈ c.vars
  | index + 1, c :: rest => x ∈ c.vars || mentionedBeside x index rest

/-- Whether neither a parameter nor a constraint apart from the one at `index` mentions `x`. -/
def isLocal (b : Body) (x : Variable) (index : Nat) : Bool :=
  x ∉ b.parameters && !mentionedBeside x index b.constraints

def locals (b : Body) (index : Nat) (c : Constraint) : ExtTreeSet Variable :=
  .ofList (c.vars.filter fun x => b.isLocal x index)

/-- The variables whose binding decides whether the constraint checks or extends. -/
def affected (b : Body) (index : Nat) (c : Constraint) : ExtTreeSet Variable :=
  if c.isClosedWorld then .ofList (c.vars.filter fun x => !b.isLocal x index)
  else .ofList c.vars

/-- The variables that must be bound before the constraint is applied. -/
def deferred (b : Body) (index : Nat) : Constraint → ExtTreeSet Variable
  | .lacks _ xs | .count _ xs _ | .aggregate _ _ xs _ _ =>
    .ofList (xs.filter fun x => !b.isLocal x index)
  | .unequal l r => .ofList [l, r]
  | .check _ xs | .eval _ xs _ => .ofList xs
  | .closure _ source _ => .ofList [source]
  | .holds .. | .find .. | .equal .. | .constant .. => {}

def produced (b : Body) (index : Nat) (c : Constraint) : ExtTreeSet Variable :=
  (b.affected index c).filter fun x => x ∉ b.deferred index c

end Body
end Motif
