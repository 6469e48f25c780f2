import Motif.Failure
import Motif.Plan.Slots
import Motif.Plan.Validity
import Motif.Search.Operation

set_option autoImplicit false
namespace Motif

open Std (ExtTreeSet)

structure SearchPlan where
  query : String
  slots : Slots
  /-- the slot of every parameter -/
  parameterSlots : List Nat
  /-- the positions of the parameters bound on entry -/
  bound : ExtTreeSet Nat
  operations : List Operation
  calls : ExtTreeSet Reference

namespace Operation

def callOf (slots : Slots) (bound : ExtTreeSet Nat) (query : String) (xs : List Variable) :
    Except PlanError (Reference × CallFrame) := do
  let frame := CallFrame.of (← xs.mapM slots.slot) bound
  return (⟨query, frame.bound⟩, frame)

def ofFeature (schema : Schema) (k : Constraint) (feature : String) (bound : ExtTreeSet Nat)
    (holder value : Nat) : Except PlanError Operation :=
  if holder ∈ bound then
    if value ∈ bound then .ok (checkFeature feature holder value)
    else .ok (extendForward feature holder value)
  else if value ∈ bound then .ok (extendBackward feature holder value)
  else
    match schema.sourceClass? feature with
    | some cls => .ok (iterateFeature cls feature holder value)
    | none => .error (.unsupported k.text .noSourceClass)

def ofEqual (k : Constraint) (bound : ExtTreeSet Nat) (left right : Nat) :
    Except PlanError Operation :=
  if left ∈ bound then
    if right ∈ bound then .ok (checkEqual left right) else .ok (extendEqual left right)
  else if right ∈ bound then .ok (extendEqual right left)
  else .error (.unsupported k.text .equalUnbound)

def variableAt (xs : List Variable) (i : Nat) : Except Failure Variable :=
  match xs[i]? with
  | some x => .ok x
  | none => .error (.fault .outOfRange)

/-- The operation for a constraint when the slots of `bound` are bound; `check` tells whether the
constraint has nothing to bind. -/
def ofConstraint (c : Catalog) (schema : Schema) (slots : Slots) (bound : ExtTreeSet Nat)
    (check : Bool) (k : Constraint) : Except Failure Operation := do
  match k with
  | .holds (.extent cls) xs =>
    let slot ← slots.slot (← variableAt xs 0)
    return if check then checkInstance cls slot else iterateInstances cls slot
  | .holds (.feature feature) xs =>
    let holder ← slots.slot (← variableAt xs 0)
    let value ← slots.slot (← variableAt xs 1)
    ofFeature schema k feature bound holder value
  | .unequal left right =>
    if !check then throw (.plan (.unsupported k.text .unequalUnbound))
    return checkUnequal (← slots.slot left) (← slots.slot right)
  | .equal left right => ofEqual k bound (← slots.slot left) (← slots.slot right)
  | .constant x v =>
    let slot ← slots.slot x
    return if check then checkConstant slot v else extendConstant slot v
  | .find query xs =>
    if !check then throw (.plan (.unsupported k.text .callUnbound))
    let (callee, frame) ← callOf slots bound query xs
    return checkCall callee frame
  | .lacks query xs =>
    let (callee, frame) ← callOf slots bound query xs
    return checkNoCall callee frame
  | .count query xs result =>
    let (callee, frame) ← callOf slots bound query xs
    let result ← slots.slot result
    return count callee frame result (result ∉ bound)
  | .aggregate operator query xs aggregated result =>
    let op ← c.aggregator operator
    match xs.findIdx? (· = aggregated) with
    | none => throw (.plan (.unknownVariable aggregated))
    | some column =>
      let (callee, frame) ← callOf slots bound query xs
      let result ← slots.slot result
      return aggregate callee frame op column result (result ∉ bound)
  | .check evaluator inputs =>
    let e ← c.evaluator evaluator
    return .check e (← liftPlan (inputs.mapM slots.slot))
  | .eval evaluator inputs output =>
    let e ← c.evaluator evaluator
    let inputs ← liftPlan (inputs.mapM slots.slot)
    let output ← slots.slot output
    return eval e inputs output (output ∉ bound)
  | .closure query source target =>
    if !check then throw (.plan (.unsupported k.text .closureUnbound))
    return checkClosure ⟨query, .ofList [0]⟩ (← slots.slot source) (← slots.slot target)

def callee? : Operation → Option Reference
  | checkCall callee _ | checkNoCall callee _ | count callee _ _ _
  | aggregate callee _ _ _ _ _ | checkClosure callee _ _ => some callee
  | _ => none

end Operation

namespace SearchPlan

def operationAt (c : Catalog) (schema : Schema) (b : Body) (slots : Slots)
    (state : Nat × ExtTreeSet Variable) : Except Failure Operation :=
  match b.constraints[state.1]? with
  | none => .error (.fault .outOfRange)
  | some k =>
    let bound := slots.slotsOf state.2
    let affected := slots.slotsOf (b.affected state.1 k)
    Operation.ofConstraint c schema slots bound (affected.toList.all fun s => s ∈ bound) k

def ofPlan (c : Catalog) (schema : Schema) (query : String) (b : Body) (p : Plan) :
    Except Failure SearchPlan := do
  p.validate b
  let slots := Slots.of b
  let parameterSlots ← liftPlan (b.parameters.mapM slots.slot)
  let bound := (b.parameters.zipIdx.filter fun x => x.1 ∈ p.entry).map Prod.snd
  let operations ← (p.states b).mapM (operationAt c schema b slots)
  return { query, slots, parameterSlots, bound := .ofList bound, operations,
           calls := .ofList (operations.filterMap Operation.callee?) }

end SearchPlan
end Motif
