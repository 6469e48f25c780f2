import Motif.Algebra.Rows
import Motif.Catalog.Basic
import Motif.Plan.Validity

/-!
The relational expression of a planned body. Each constraint filters the rows found so far or widens
them by a join. Calls refer to the match set of their callee by its name, so that a query may call
itself.
-/
set_option autoImplicit false
namespace Motif

open Std (ExtTreeSet)

structure Compiled where
  expr : Algebra
  calls : ExtTreeSet Reference

namespace Rows

/-- The arguments that are visible outside the constraint at `index`, each once. -/
def outerArguments (b : Body) (index : Nat) (xs : List Variable) : List Variable :=
  (xs.filter fun x => !b.isLocal x index).eraseDups

def ofCall (c : Catalog) (r : Rows) (query : String) (xs : List Variable) :
    Except PlanError (Rows × Reference) := do
  let arity := (← c.query query).arity
  let bound := (List.range xs.length).filter fun i => xs[i]?.any r.columns.contains
  return (source (.production query arity) xs, ⟨query, .ofList bound⟩)

def primed (x : Variable) : Variable := x ++ "'"

/-- Puts beside each row what the operator makes of the callee's rows with the same `groups`. Where
there are none the neutral value stands in, and without a neutral value the row goes. -/
def fold (c : Catalog) (r callee : Rows) (groups : List Variable) (operator : String)
    (column : Option Nat) (result : Variable) : Except PlanError Rows := do
  let op ← c.aggregator operator
  let grouped := Algebra.grouping callee.expr (.ofFins (← groups.mapM callee.position)) operator
    column
  let primaryMask := Mask.ofFins (← groups.mapM r.position)
  let secondaryMask := Mask.first groups.length (groups.length + 1) (Nat.le_succ _)
  let expr :=
    match op.neutral with
    | some neutral => .outerJoin r.expr primaryMask grouped secondaryMask [neutral]
    | none => .join r.expr primaryMask grouped secondaryMask
  if result ∈ r.columns then
    unifyLast ⟨expr, r.columns ++ [primed result]⟩ result
  else return ⟨expr, r.columns ++ [result]⟩

def applyUnequal (r : Rows) (c : Constraint) (left right : Variable) : Except PlanError Rows := do
  if left ∈ r.columns ∧ right ∈ r.columns then
    return ⟨.inequalityFilter r.expr (← r.position left).val (← r.position right).val, r.columns⟩
  else throw (.unsupported c.text .unequalUnbound)

def applyEqual (r : Rows) (c : Constraint) (left right : Variable) : Except PlanError Rows := do
  let copy (bound unbound : Variable) : Except PlanError Rows := do
    let i ← r.position bound
    return ⟨.trim r.expr (.ofFins (List.finRange r.columns.length ++ [i])), r.columns ++ [unbound]⟩
  if left ∈ r.columns then
    if right ∈ r.columns then
      return ⟨.equalityFilter r.expr [[(← r.position left).val, (← r.position right).val]],
        r.columns⟩
    else copy left right
  else if right ∈ r.columns then copy right left
  else throw (.unsupported c.text .equalUnbound)

def applyConstant (r : Rows) (x : Variable) (v : Value) : Except PlanError Rows := do
  if x ∈ r.columns then return ⟨.constantFilter r.expr (← r.position x).val v, r.columns⟩
  else return r.join ⟨.constant [[v]] 1, [x]⟩

def evaluated (c : Catalog) (r : Rows) (evaluator : String) (inputs : List Variable)
    (mode : ExpressionMode) : Except PlanError Algebra := do
  discard (c.evaluator evaluator)
  let positions ← inputs.mapM r.position
  return .expression r.expr evaluator (positions.map Fin.val) mode

def applyConstraint (c : Catalog) (b : Body) (r : Rows) (index : Nat) (k : Constraint) :
    Except PlanError (Rows × List Reference) := do
  match k with
  | .holds relation xs => return (r.join (source (.input relation) xs), [])
  | .find query xs =>
    let (callee, call) ← ofCall c r query xs
    return (r.join callee, [call])
  | .lacks query xs =>
    let (callee, call) ← ofCall c r query xs
    return (r.without (← callee.project (outerArguments b index xs)), [call])
  | .unequal left right => return (← r.applyUnequal k left right, [])
  | .equal left right => return (← r.applyEqual k left right, [])
  | .constant x v => return (← r.applyConstant x v, [])
  | .count query xs result =>
    let (callee, call) ← ofCall c r query xs
    return (← fold c r callee (outerArguments b index xs) "count" none result, [call])
  | .aggregate operator query xs aggregated result =>
    if !b.isLocal aggregated index then throw (.unsupported k.text .aggregatedNotLocal)
    let (callee, call) ← ofCall c r query xs
    let column ← callee.position aggregated
    return (← fold c r callee (outerArguments b index xs) operator (some column.val) result, [call])
  | .check evaluator inputs => return (⟨← evaluated c r evaluator inputs .check, r.columns⟩, [])
  | .eval evaluator inputs output =>
    let expr ← evaluated c r evaluator inputs .bind
    if output ∈ r.columns then
      return (← unifyLast ⟨expr, r.columns ++ [primed output]⟩ output, [])
    else return (⟨expr, r.columns ++ [output]⟩, [])
  | .closure query s t =>
    let arity := (← c.query query).arity
    if arity ≠ 2 then throw (.arityMismatch query 2 arity)
    return (r.join (source (.closure (.production query 2)) [s, t]), [⟨query, .ofList [0]⟩])

/-- The rows of a sub-plan. A projection that repeats a variable copies its column. -/
def ofPlan (c : Catalog) (b : Body) : Plan → Except PlanError (Rows × List Reference)
  | .start _ => return (unit, [])
  | .apply before index => do
    let (r, calls) ← ofPlan c b before
    match b.constraints[index]? with
    | none => throw (.malformed (.constraintRange index))
    | some k =>
      let (r, more) ← applyConstraint c b r index k
      return (r, calls ++ more)
  | .project before xs => do
    let (r, calls) ← ofPlan c b before
    return (← if xs.Nodup then r.project xs else r.select xs, calls)
  | .join left right => do
    let (l, calls) ← ofPlan c b left
    let (r, more) ← ofPlan c b right
    return (l.join r, calls ++ more)

end Rows

/-- Compiles a body along a plan that starts with nothing bound. -/
def Compiled.ofPlan (c : Catalog) (b : Body) (p : Plan) : Except PlanError Compiled := do
  p.validate b
  if !p.entry.isEmpty then throw (.malformed .boundEntry)
  let (r, calls) ← Rows.ofPlan c b p
  return ⟨r.expr, .ofList calls⟩

end Motif
