import Motif.Plan.Basic
import Motif.PlanError

set_option autoImplicit false
namespace Motif

open Std (ExtTreeSet)
namespace Plan

def checkRoot (b : Body) : Plan → Except PlanError Unit
  | project _ xs => if xs = b.parameters then .ok () else .error (.malformed .rootProjection)
  | _ => .error (.malformed .rootProjection)

def checkEntry (b : Body) (p : Plan) : Except PlanError Unit :=
  match p.entry.toList.find? fun x => x ∉ b.vars with
  | some x => .error (.unknownVariable x)
  | none => .ok ()

def checkOnce (b : Body) (seen : List Nat) : List Nat → Except PlanError Unit
  | [] => .ok ()
  | index :: rest =>
    match b.constraints[index]? with
    | none => .error (.malformed (.constraintRange index))
    | some c =>
      if index ∈ seen then .error (.malformed (.appliedTwice c))
      else checkOnce b (index :: seen) rest

def checkAll (b : Body) (applied : List Nat) : Except PlanError Unit :=
  match b.constraints.zipIdx.find? fun c => c.2 ∉ applied with
  | some (c, _) => .error (.malformed (.neverApplied c))
  | none => .ok ()

def checkDeferred (b : Body) (state : Nat × ExtTreeSet Variable) : Except PlanError Unit :=
  match b.constraints[state.1]? with
  | none => .ok ()
  | some c =>
    match (b.deferred state.1 c).toList.find? fun x => x ∉ state.2 with
    | some x => .error (.unsupported c.text (.appliedBefore x))
    | none => .ok ()

def checkProjections (b : Body) : Plan → Except PlanError Unit
  | start _ => .ok ()
  | apply before _ => before.checkProjections b
  | project before xs => do
    match xs.find? fun x => x ∉ before.bound b with
    | some x => throw (.malformed (.unboundProjection x))
    | none => before.checkProjections b
  | join left right => do
    left.checkProjections b
    right.checkProjections b

/-- The plan ends with the body's parameters, its entry knows only the body's variables, it applies
every constraint once and none too early, and it projects to nothing unbound. -/
def validate (b : Body) (p : Plan) : Except PlanError Unit := do
  p.checkRoot b
  p.checkEntry b
  checkOnce b [] p.applied
  checkAll b p.applied
  (p.states b).forM (checkDeferred b)
  p.checkProjections b

end Plan
end Motif
