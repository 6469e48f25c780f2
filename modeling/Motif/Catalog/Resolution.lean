import Motif.Catalog.Basic
import Motif.Catalog.Components
import Motif.Reach

/-!
What a query needs: the queries it calls, directly or through others, in the order in which they can
be set up. A depth-first walk finds them. Queries that call each other form one component. Inside a
component no call may be closed world, as its outcome would depend on itself.
-/
set_option autoImplicit false
namespace Motif

open Std (ExtTreeSet TransOrd)

/-- The nodes a depth-first walk has entered so far, the latest first. -/
structure Walk (α : Type) [Ord α] where
  seen : ExtTreeSet α := ∅
  entered : List α := []

namespace Walk
variable {α : Type} [Ord α] [TransOrd α]

def enter (w : Walk α) (a : α) : Walk α := ⟨w.seen.insert a, a :: w.entered⟩

/-- Walks on from `a` unless it was entered before. `depth` bounds the length of the paths
followed; the number of nodes is enough. -/
def visit (next : α → List α) : Nat → Walk α → α → Walk α
  | 0, w, _ => w
  | depth + 1, w, a => if a ∈ w.seen then w else (next a).foldl (visit next depth) (w.enter a)

def of (next : α → List α) (size : Nat) (nodes : List α) : Walk α :=
  nodes.foldl (visit next size) {}

end Walk

def Constraint.callWidth : Constraint → Nat
  | find _ xs | lacks _ xs | count _ xs _ | aggregate _ _ xs _ _ => xs.length
  | _ => 2

namespace Catalog

def checkCall (c : Catalog) (k : Constraint) : Except PlanError Unit :=
  match k.calledQuery? with
  | none => .ok ()
  | some name => do
    let callee ← c.query name
    if k.callWidth ≠ callee.arity then
      throw (.arityMismatch callee.name callee.arity k.callWidth)
    match k with
    | .aggregate op .. => discard (c.aggregator op)
    | _ => pure ()

def checkEvaluator (c : Catalog) : Constraint → Except PlanError Unit
  | .check e _ | .eval e _ _ => discard (c.evaluator e)
  | _ => .ok ()

/-- Every name the query uses is registered and every call has as many arguments as its callee has
parameters. In each body calls come before evaluators. -/
def checkCalls (c : Catalog) (name : String) : Except PlanError Unit := do
  let q ← c.query name
  q.bodies.forM fun b => do
    b.constraints.forM c.checkCall
    b.constraints.forM c.checkEvaluator

def callees (c : Catalog) (name : String) : List String :=
  match c.queries[name]? with
  | some q => q.calledQueries.toList
  | none => []

def calls (c : Catalog) : CallGraph String := c.queries.map fun _ q => q.calledQueries

def callsOf (c : Catalog) (needed : ExtTreeSet String) : CallGraph String :=
  c.calls.filter fun n _ => n ∈ needed

def graph (c : Catalog) : List (String × List String) := c.calls.toList.map fun e => (e.1, e.2.toList)

/-- `name` and all it leads to by calls. The walk follows later callees first, and the first name it
meets that is not registered is the error. A path of calls goes through each registered query at
most once and ends at the latest with a name that is not registered. -/
def dependencies (c : Catalog) (name : String) : Except PlanError (ExtTreeSet String) :=
  let met := (Walk.of (fun n => (c.callees n).reverse) (c.queries.size + 1) [name]).entered.reverse
  match met.find? fun n => !c.contains n with
  | some missing => .error (.unknownQuery missing)
  | none => .ok (.ofList met)

def components (c : Catalog) : List (List String) := c.calls.components

def isRecursive (c : Catalog) (name : String) : Bool :=
  name ∈ Reach.closure c.callees c.queries.size (c.callees name)

def checkStratified (component : List String) (member : String) (k : Constraint) :
    Except PlanError Unit :=
  match k.calledQuery? with
  | none => .ok ()
  | some callee =>
    if k.isClosedWorld && component.contains callee then
      .error (.unsupported k.text (.throughRecursion member callee))
    else .ok ()

/-- The components needed to evaluate `name`, callees first, with every call on the way checked. -/
def resolutionOrder (c : Catalog) (name : String) : Except PlanError (List (List String)) := do
  let needed ← c.dependencies name
  needed.toList.forM c.checkCalls
  let components := (c.callsOf needed).components
  components.forM fun component => component.forM fun member => do
    let q ← c.query member
    q.constraints.forM (checkStratified component member)
  return components

end Catalog
end Motif
