import Motif.Network.Node
import Motif.Table

set_option autoImplicit false
namespace Motif

open Std (ExtTreeMap ExtTreeSet)

inductive Receiver where
  | node (id : NodeId)
  | index (id : IndexId)
  deriving DecidableEq, Repr

/-- A node in its place; `arity` is the width of what it puts out. -/
structure Vertex where
  node : Node
  parents : List NodeId
  receivers : List Receiver := []
  arity : Nat

def Vertex.parent (v : Vertex) : Except Fault NodeId :=
  match v.parents with
  | p :: _ => .ok p
  | [] => .error .outOfRange

/-- An index over the output of `parent`, with the nodes to notify of its changes. -/
structure Arrangement where
  parent : NodeId
  index : Index
  listeners : List (NodeId × Side) := []

structure ProductionEvent where
  node : NodeId
  event : Event
  deriving DecidableEq, Repr

structure Network where
  vertices : Array Vertex := #[]
  arrangements : Array Arrangement := #[]
  arranged : Table (NodeId × Mask) IndexId := .empty
  inputs : ExtTreeMap Relation NodeId := ∅
  /-- problems met since they were taken last, the latest first -/
  issues : List Issue := []
  /-- changes of productions since they were taken last, the latest first -/
  events : List ProductionEvent := []
  propagated : Nat := 0

namespace Network

def vertex (net : Network) (id : NodeId) : Except Fault Vertex :=
  match net.vertices[id]? with
  | some v => .ok v
  | none => .error .outOfRange

def node (net : Network) (id : NodeId) : Except Fault Node := Vertex.node <$> net.vertex id

def arity (net : Network) (id : NodeId) : Except Fault Nat := Vertex.arity <$> net.vertex id

def arrangement (net : Network) (id : IndexId) : Except Fault Arrangement :=
  match net.arrangements[id]? with
  | some a => .ok a
  | none => .error .outOfRange

def index (net : Network) (id : IndexId) : Except Fault Index :=
  Arrangement.index <$> net.arrangement id

def inputNode? (net : Network) (r : Relation) : Option NodeId := net.inputs[r]?

def productionMemory? (net : Network) (id : NodeId) : Option (Bag Tuple) :=
  match net.vertices[id]? with
  | some ⟨.production _ memory, _, _, _⟩ => some memory
  | _ => none

def setNode (net : Network) (id : NodeId) (n : Node) : Network :=
  { net with vertices := net.vertices.modify id fun v => { v with node := n } }

def setIndex (net : Network) (id : IndexId) (ix : Index) : Network :=
  { net with arrangements := net.arrangements.modify id fun a => { a with index := ix } }

def report (net : Network) (issue : Issue) : Network := { net with issues := issue :: net.issues }

def announce (net : Network) (id : NodeId) (out : List Event) : Network :=
  { net with events := out.foldl (fun events e => ⟨id, e⟩ :: events) net.events }

def takeIssues (net : Network) : Network × List Issue :=
  ({ net with issues := [] }, net.issues.reverse)

def takeEvents (net : Network) : Network × List ProductionEvent :=
  ({ net with events := [] }, net.events.reverse)

def addReceiver (net : Network) (id : NodeId) (r : Receiver) : Network :=
  { net with
    vertices := net.vertices.modify id fun v => { v with receivers := v.receivers ++ [r] } }

def addListener (net : Network) (id : IndexId) (listener : NodeId × Side) : Network :=
  { net with
    arrangements := net.arrangements.modify id fun a =>
      { a with listeners := a.listeners ++ [listener] } }

def push (net : Network) (n : Node) (parents : List NodeId) (arity : Nat) : Network × NodeId :=
  ({ net with vertices := net.vertices.push { node := n, parents, arity } }, net.vertices.size)

def firstHas (property : NodeId → Except Fault Bool) : List NodeId → Except Fault Bool
  | p :: _ => property p
  | [] => .ok false

/-- A node's output can only hold a tuple twice if this is false. Nodes come after their parents, so
that `depth` need not exceed the number of nodes. -/
def producesSetWithin (net : Network) : Nat → NodeId → Except Fault Bool
  | 0, _ => .error .outOfRange
  | depth + 1, id => do
    let v ← net.vertex id
    match v.node with
    | .input _ unique _ => return unique
    | .constant rows => return (ExtTreeSet.ofList rows).size == rows.length
    | .trim mask =>
      if mask.isIdentity then firstHas (producesSetWithin net depth) v.parents else return false
    | .constantFilter .. | .equalityFilter _ | .inequalityFilter .. | .expression _ =>
      firstHas (producesSetWithin net depth) v.parents
    | .join p s _ | .outerJoin p s _ _ => do
      if (← net.index p).unique then return (← net.index s).unique else return false
    | .existence p _ _ => return (← net.index p).unique
    | .grouping _ | .closure _ | .uniqueness _ | .production .. => return true

def producesSet (net : Network) (id : NodeId) : Except Fault Bool :=
  net.producesSetWithin net.vertices.size id

def clear (net : Network) : Network :=
  { propagated := net.propagated }

end Network

structure NetworkStatistics where
  nodes : Nat
  /-- how many nodes of each kind there are, by name of the kind -/
  nodesByKind : List (String × Nat)
  indexes : Nat
  indexedTuples : Nat
  storedTuples : Nat
  propagated : Nat
  lookups : Nat
  deriving DecidableEq, Repr

namespace Network

def nodesByKind (net : Network) : List (String × Nat) :=
  (Bag.ofList (net.vertices.toList.map fun v => v.node.kindName)).entries

def statistics (net : Network) : NetworkStatistics where
  nodes := net.vertices.size
  nodesByKind := net.nodesByKind
  indexes := net.arrangements.size
  indexedTuples := net.arrangements.foldl (fun n a => n + a.index.size) 0
  storedTuples := net.vertices.foldl (fun n v => n + v.node.stored) 0
  propagated := net.propagated
  lookups := net.arrangements.foldl (fun n a => n + a.index.work.lookups) 0

end Network
end Motif
