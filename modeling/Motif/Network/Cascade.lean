import Motif.Event
import Motif.Network.Basic

/-!
Propagation of changes. What is still to be done stands on an agenda. A step does the first task and
puts what follows from it before the rest, so that every change has run its course before the next
receiver sees its own: a node passes a change to its receivers one after the other, and an index
notifies its listeners one after the other, each reading the network as the earlier ones left it.
-/
set_option autoImplicit false
namespace Motif

inductive Task where
  /-- a node's output has changed -/
  | propagate (source : NodeId) (e : Event)
  | deliver (receiver : Receiver) (e : Event)
  /-- an index a node listens to has changed -/
  | notify (listener : NodeId) (side : Side) (e : Event) (change : IndexChange)
  deriving DecidableEq, Repr

abbrev Agenda := List Task

namespace Network

def deliverToNode (net : Network) (id : NodeId) (e : Event) :
    Except Fault (Network × Agenda) := do
  let v ← net.vertex id
  let reply ← v.node.receive e
  let net := net.setNode id reply.node
  let net := match reply.issue with
    | some issue => net.report issue
    | none => net
  let net := if v.node.isProduction then net.announce id reply.out else net
  return (net, reply.out.map (Task.propagate id))

def deliverToIndex (net : Network) (id : IndexId) (e : Event) :
    Except Fault (Network × Agenda) := do
  let a ← net.arrangement id
  let (ix, outcome) ← a.index.update e
  let net := net.setIndex id ix
  match outcome with
  | .error issue => return (net.report issue, [])
  | .ok change => return (net, a.listeners.map fun l => .notify l.1 l.2 e change)

def consult (net : Network) (id? : Option IndexId) (signature : Tuple) :
    Except Fault (Network × Option (Bag Tuple)) := do
  match id? with
  | none => return (net, none)
  | some id =>
    let (ix, bucket) := (← net.index id).probe signature
    return (net.setIndex id ix, bucket)

def notifyNode (net : Network) (id : NodeId) (side : Side) (e : Event) (change : IndexChange) :
    Except Fault (Network × Agenda) := do
  let n ← net.node id
  let (net, bucket) ← net.consult (n.consults side change) change.signature
  let (n, out) ← n.respond side e change bucket
  return (net.setNode id n, out.map (Task.propagate id))

/-- Does one task; answers with the tasks that follow from it. -/
def step (net : Network) : Task → Except Fault (Network × Agenda)
  | .propagate id e => do
    let v ← net.vertex id
    return ({ net with propagated := net.propagated + 1 }, v.receivers.map (Task.deliver · e))
  | .deliver (.node id) e => net.deliverToNode id e
  | .deliver (.index id) e => net.deliverToIndex id e
  | .notify id side e change => net.notifyNode id side e change

/-- Does the tasks of the agenda and all that follow; nothing if there is no end to them. -/
def settle? (net : Network) (agenda : Agenda) : Option (Except Fault Network) :=
  match agenda with
  | [] => some (.ok net)
  | task :: rest =>
    match net.step task with
    | .error f => some (.error f)
    | .ok (net, more) => net |>.settle? (more ++ rest)
partial_fixpoint

def settle (net : Network) (agenda : Agenda) : Except Fault Network :=
  (net.settle? agenda).getD (.error .unsettled)

/-- Counts a tuple of a base relation up or down, with what was wrong with that. A tuple that a unique
relation held before is counted down again. -/
def countInput (relation : Relation) (unique : Bool) (memory : Bag Tuple) (e : Event) :
    Bag Tuple × Option Issue :=
  match e.direction with
  | .insert =>
    let (counted, change) := memory.increment e.tuple
    if unique && change == .unchanged then
      ((counted.decrement e.tuple).1, some (.duplicateInsert relation.text e.tuple))
    else (counted, none)
  | .revoke =>
    let (counted, change) := memory.decrement e.tuple
    (counted, if change = .missing then some (.missingTuple relation.text e.tuple) else none)

def changeInput (net : Network) (relation : Relation) (id : NodeId) (e : Event) :
    Except Fault (Network × Option Issue) := do
  match ← net.node id with
  | .input key unique memory =>
    let (memory, issue?) := countInput relation unique memory e
    return (net.setNode id (.input key unique memory), issue?)
  | _ => return (net, none)

/-- Feeds one change of a base relation into the network; false if nothing reads the relation. -/
def update (net : Network) (relation : Relation) (e : Event) : Except Fault (Network × Bool) := do
  match net.inputs[relation]? with
  | none => return (net, false)
  | some id =>
    let (net, issue?) ← net.changeInput relation id e
    match issue? with
    | some issue => return (net.report issue, true)
    | none => return (← net.settle [.propagate id e], true)

def updateAll (net : Network) : List Change → Except Fault Network
  | [] => .ok net
  | c :: rest => do
    let (net, _) ← net.update c.relation c.event
    net.updateAll rest

end Network
end Motif
