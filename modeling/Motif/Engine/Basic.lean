import Motif.Engine.Listener
import Motif.Network.Install
import Motif.Search.Plan
import Motif.Settings

set_option autoImplicit false
namespace Motif

open Std (ExtTreeMap)

/-- What an engine tells the outside. -/
inductive Happening where
  | told (listener : ListenerId) (n : Notice)
  /-- writes that listeners asked for were run -/
  | wrote (writes : List Write)
  | issue (i : Issue)
  | fatal (f : Fatal)

structure Engine where
  settings : EngineSettings := {}
  model : Model := {}
  catalog : Catalog := {}
  installed : Installed := {}
  /-- the node of every query in the network -/
  productions : ExtTreeMap String NodeId := ∅
  /-- the query of every such node, as it was when it was built -/
  producers : ExtTreeMap NodeId Query := ∅
  /-- one plan for each body -/
  searchPlans : ExtTreeMap Reference (List SearchPlan) := ∅
  subscriptions : List Subscription := []
  nextListener : ListenerId := 0
  disposed : Bool := false
  /-- what happened since the history was taken last, the latest first -/
  history : List Happening := []

/-- A request to an engine. What it did before it failed stays done. -/
abbrev Session := ExceptT Failure (StateM Engine)

namespace Engine

def start (settings : EngineSettings) (m : Model) : Engine := { settings, model := m.drain.1 }

def record (e : Engine) (news : List Happening) : Engine :=
  { e with history := news.reverse ++ e.history }

def takeHistory (e : Engine) : Engine × List Happening :=
  ({ e with history := [] }, e.history.reverse)

def report (e : Engine) (issues : List Issue) : Engine :=
  if e.settings.reportIssues then e.record (issues.map .issue) else e

def network (e : Engine) : Network := e.installed.network

def setNetwork (e : Engine) (net : Network) : Engine :=
  { e with installed := { e.installed with network := net } }

def reportNetwork (e : Engine) : Engine :=
  let (net, issues) := e.network.takeIssues
  (e.setNetwork net).report issues

def inUse (e : Engine) (name : String) : Bool :=
  e.productions.contains name || e.searchPlans.keys.any fun r => r.query == name

def backendOf (e : Engine) (name : String) : Except PlanError Backend := do
  return (← e.catalog.query name).backend.getD e.settings.defaultBackend

def registerEvaluator (e : Engine) (v : Evaluator) : Engine :=
  { e with catalog := e.catalog.registerEvaluator v }

def registerAggregator (e : Engine) (op : Aggregator) : Engine :=
  { e with catalog := e.catalog.registerAggregator op }

def site (e : Engine) : Site := ⟨e.catalog, e.model.graph, e.productions⟩

end Engine

namespace Session

def requireLive : Session Unit := do
  if (← get).disposed then throw .disposed

/-- Adds a query to the catalog. A query in use is not replaced. -/
def register (q : Query) : Session Unit := do
  requireLive
  let e ← get
  if e.inUse q.name then throw (.plan (.malformed (.inUse q.name)))
  let catalog ← liftPlan (e.catalog.register q)
  set { e with catalog }

end Session
end Motif
