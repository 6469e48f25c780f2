import Motif.Engine.Evaluation
import Motif.Engine.Update

set_option autoImplicit false
namespace Motif
namespace Engine

def introduce : Engine × Subscription → Tuple → (Engine × Subscription) × List Write × List Fatal
  | (e, s), t =>
    match Match.ofTuple s.query t with
    | .error issue => ((e.report [issue], s), [], [])
    | .ok found =>
      let n : Notice := ⟨.insert, found⟩
      ((e.record [.told s.id n], s.hear n), (s.react n).writes, (s.fatal? n).toList)

def attach (e : Engine) (s : Subscription) : Engine :=
  { e with subscriptions := e.subscriptions ++ [s] }

def unsubscribe (e : Engine) (id : ListenerId) : Engine × Bool :=
  ({ e with subscriptions := e.subscriptions.filter fun s => s.id ≠ id },
    e.subscriptions.any fun s => s.id = id)

end Engine

namespace Session

/-- Attaches a listener to a query in the network. With `fireNow` it is told at once of the matches
there are. -/
def subscribe (name : String) (fireNow : Bool) (listener : Listener) : Session ListenerId := do
  if (← prepare name) ≠ .rete then throw (.plan (.unsupported name .notObservable))
  let e ← get
  let query ← liftPlan (e.catalog.query name)
  let s : Subscription := { id := e.nextListener, query, listener }
  set { e with nextListener := e.nextListener + 1 }
  if fireNow then
    let current ← evaluate name .rete (.unbound query.arity)
    let ((e, s), answers) := runAll Engine.introduce (← get, s) current
    let queued := answers.flatMap Prod.fst
    let e := (e.record ((answers.flatMap Prod.snd).map .fatal)).attach s
    if queued.isEmpty then set e
    else
      set (e.runQueued queued)
      flush
  else modify (·.attach s)
  return s.id

/-- Ends an engine that nobody listens to. It forgets all it made of the catalog and the model. -/
def dispose : Session Unit := do
  requireLive
  let e ← get
  if !e.subscriptions.isEmpty then throw (.listenersAttached e.subscriptions.length)
  set { e with
    installed := { network := e.network.clear }, productions := ∅, producers := ∅
    searchPlans := ∅, disposed := true }

end Session
end Motif
