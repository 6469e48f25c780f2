import Motif.Pattern.Body
import Motif.PlanError

set_option autoImplicit false
namespace Motif

open Std (ExtTreeSet)

/-- `kind` is the kind that every value of the parameter should have. -/
structure Parameter where
  name : String
  kind : Option Kind := none
  deriving DecidableEq, Repr

structure Query where
  name : String
  parameters : List Parameter
  bodies : List Body
  /-- the way of evaluation the query asks for -/
  backend : Option Backend := none
  deriving DecidableEq, Repr

namespace Query

def arity (q : Query) : Nat := q.parameters.length

def setKind (name : String) (k : Kind) : List Parameter → List Parameter
  | [] => []
  | p :: rest =>
    if p.name = name then { p with kind := some k } :: rest else p :: setKind name k rest

def typed (q : Query) (name : String) (k : Kind) : Query :=
  { q with parameters := setKind name k q.parameters }

def position? (q : Query) (name : String) : Option Nat :=
  q.parameters.findIdx? fun p => p.name = name

def constraints (q : Query) : List Constraint := q.bodies.flatMap Body.constraints

def calledQueries (q : Query) : ExtTreeSet String :=
  .ofList (q.constraints.filterMap Constraint.calledQuery?)

def validateConstraint : Constraint → Except PlanError Unit
  | c@(.holds r xs) =>
    if xs.length = r.arity then .ok () else .error (.malformed (.relationWidth c xs.length r))
  | c@(.aggregate _ _ xs aggregated _) =>
    if aggregated ∈ xs then .ok () else .error (.notAnArgument aggregated c)
  | _ => .ok ()

def validateBody (q : Query) (b : Body) : Except PlanError Unit := do
  if b.parameters.length ≠ q.arity then
    throw (.arityMismatch q.name q.arity b.parameters.length)
  b.constraints.forM validateConstraint

def validate (q : Query) : Except PlanError Unit := do
  if q.bodies.isEmpty then throw (.malformed (.noBody q.name))
  q.bodies.forM q.validateBody

end Query
end Motif
