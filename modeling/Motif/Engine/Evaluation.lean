import Motif.Engine.Preparation
import Motif.Search.Run

/-!
The matches of a query that agree with a binding. A query in the network has them at hand; the others
are searched for, by plans made for the positions that are bound. A search asks for the matches of
the queries it calls in the same way.
-/
set_option autoImplicit false
namespace Motif

open Std (ExtTreeSet)

def Catalog.searchPlans (c : Catalog) (schema : Schema) (r : Reference) :
    Except Failure (List SearchPlan) := do
  let q ← c.query r.query
  q.bodies.mapM fun b => do
    let b := b.normalize
    let bound := ExtTreeSet.ofList (r.bound.toList.filterMap fun i => b.parameters[i]?)
    SearchPlan.ofPlan c schema q.name b (← Plan.greedy .localSearch b bound)

namespace Engine

def maintained (e : Engine) (name : String) (b : Binding) : Except PlanError (List Tuple) :=
  match (e.productions[name]?).bind e.network.productionMemory? with
  | some memory => .ok (memory.distinct.filter b.agrees)
  | none => .error (.malformed (.noProduction name))

/-- An upper bound on the depth of nested searches, as a query answered by search never leads back
to itself. -/
def searchDepth (e : Engine) : Nat := e.catalog.queries.size + 1

end Engine

namespace Session

def searchPlans (r : Reference) : Session (List SearchPlan) := do
  let e ← get
  match e.searchPlans[r]? with
  | some plans => return plans
  | none =>
    let plans ← e.catalog.searchPlans e.model.schema r
    set { e with searchPlans := e.searchPlans.insert r plans }
    return plans

/-- A search in a session also holds the problems it met so far, the latest first. -/
def asked {α : Type} (x : Session α) : Search (Engine × List Issue) Failure α :=
  ExceptT.mk fun (e, issues) =>
    let (answer, e) := x.run.run e
    some (answer, e, issues)

/-- The problems a search met are reported when it has not failed. -/
def searched {α : Type} (x : Search (Engine × List Issue) Failure α) : Session α :=
  ExceptT.mk fun e =>
    match x.run.run (e, []) with
    | some (.ok a, e, issues) => (.ok a, e.report issues.reverse)
    | some (.error f, e, _) => (.error f, e)
    | none => (.error (.fault .unsettled), e)

/-- Searches an engine. What is asked of a query goes to the network if the query is in it, and is
searched for otherwise. -/
def searcher (ask : String → Backend → Binding → Session (List Tuple)) (e : Engine) :
    Searcher (Engine × List Issue) Failure where
  graph := e.model.graph
  ask callee b :=
    asked (ask callee.query (if e.productions.contains callee.query then .rete else .localSearch) b)
  report i := modify fun (e, issues) => (e, i :: issues)

def searchBy (ask : String → Backend → Binding → Session (List Tuple)) (name : String) (b : Binding) :
    Session (List Tuple) := do
  let plans ← searchPlans ⟨name, .ofList b.positions⟩
  let s := searcher ask (← get)
  let found ← searched (plans.mapM fun p => s.execute p b)
  return firsts found.flatten

def evaluateWithin : Nat → String → Backend → Binding → Session (List Tuple)
  | _, name, .rete, b => do liftPlan ((← get).maintained name b)
  | 0, _, .localSearch, _ => throw (.fault .unsettled)
  | depth + 1, name, .localSearch, b => searchBy (evaluateWithin depth) name b

def evaluate (name : String) (backend : Backend) (b : Binding) : Session (List Tuple) := do
  evaluateWithin (← get).searchDepth name backend b

end Session
end Motif
