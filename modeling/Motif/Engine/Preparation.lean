import Motif.Algebra.OfPlan
import Motif.Catalog.Resolution
import Motif.Engine.Basic
import Motif.Pattern.Normal
import Motif.Plan.Greedy

/-!
Making a query ready to be asked for. A query that is kept up to date goes into the network with all
it calls, component by component. The bodies of a component are compiled before anything is built,
so that a query that cannot be compiled leaves the network as it is. A query answered by search must
not call itself, save through queries in the network.
-/
set_option autoImplicit false
namespace Motif

def Catalog.compile (c : Catalog) (names : List String) :
    Except PlanError (List (String × Compiled)) := do
  let bodies ← names.mapM fun name => do
    (← c.query name).bodies.mapM fun b => do
      let b := b.normalize
      return (name, ← Compiled.ofPlan c b (← Plan.greedy .rete b {}))
  return bodies.flatten

namespace Engine

def addProduction (e : Engine) (q : Query) : Engine :=
  let (net, id) := e.network.addProduction q.name q.arity
  { e.setNetwork net with
    productions := e.productions.insert q.name id
    producers := e.producers.insert id q }

def addBody (e : Engine) (name : String) (body : Compiled) : Except Failure Engine := do
  let (installed, id) ← e.installed.install e.site body.expr
  match e.productions[name]? with
  | none => throw (.fault .outOfRange)
  | some production =>
    let network ← installed.network.connect production id
    return { e with installed := { installed with network } }

/-- Forgets the events of new productions, which nobody can have been waiting for. -/
def settleIn (e : Engine) : Engine := (e.setNetwork e.network.takeEvents.1).reportNetwork

end Engine

namespace Session

/-- Puts a component into the network, unless all its queries are there. -/
def install (component : List String) : Session Unit := do
  let e ← get
  if component.all e.productions.contains then return
  let bodies ← liftPlan (e.catalog.compile component)
  for name in component do
    let q ← liftPlan (e.catalog.query name)
    modify (·.addProduction q)
  for (name, body) in bodies do
    set (← (← get).addBody name body)

def prepareRete (name : String) : Session Unit := do
  let e ← get
  if e.productions.contains name then return
  let components ← liftPlan (e.catalog.resolutionOrder name)
  components.forM install
  modify Engine.settleIn

/-- Puts those queries that a query calls into the network that belong there. -/
def prepareSearch (name : String) : Session Unit := do
  let needed := (← liftPlan ((← get).catalog.resolutionOrder name)).flatten
  for callee in needed do
    if (← liftPlan ((← get).backendOf callee)) = .rete then prepareRete callee
  let e ← get
  match needed.find? fun n => !e.productions.contains n && e.catalog.isRecursive n with
  | some n => throw (.plan (.recursiveSearch n))
  | none => pure ()

/-- Makes a query ready; answers with its backend. -/
def prepare (name : String) : Session Backend := do
  requireLive
  let backend ← liftPlan ((← get).backendOf name)
  match backend with
  | .rete => prepareRete name
  | .localSearch => prepareSearch name
  return backend

end Session
end Motif
