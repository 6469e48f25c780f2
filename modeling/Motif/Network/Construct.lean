import Motif.Network.Cascade
import Motif.Network.Pull

/-!
Building networks. A new node that keeps tuples, and a new index, start from what their parent puts
out now, so that parts of a network can be built at any time. A production may stand unconnected and
get its bodies later; this is how queries come to read themselves.
-/
set_option autoImplicit false
namespace Motif
namespace Network

/-- Lets a node receive tuples one by one, each with all that follows from it. -/
def feed (net : Network) (id : NodeId) : List Tuple → Except Fault Network
  | [] => .ok net
  | t :: rest => do (← net.settle [.deliver (.node id) ⟨.insert, t⟩]).feed id rest

def addInput (net : Network) (relation : Relation) (arity : Nat) (unique : Bool) :
    Network × NodeId :=
  match net.inputs[relation]? with
  | some id => (net, id)
  | none =>
    let (net, id) := net.push (.input relation unique ∅) [] arity
    ({ net with inputs := net.inputs.insert relation id }, id)

def addConstant (net : Network) (rows : List Tuple) (arity : Nat) : Network × NodeId :=
  net.push (.constant rows) [] arity

def addChild (net : Network) (parent : NodeId) (n : Node) (arity : Nat) :
    Except Fault (Network × NodeId) := do
  discard (net.vertex parent)
  let (net, id) := net.push n [parent] arity
  let net := net.addReceiver parent (.node id)
  if n.isStateful then return (← net.feed id (← net.pull parent), id)
  else return (net, id)

def addTrim (net : Network) (parent : NodeId) (mask : Mask) : Except Fault (Network × NodeId) :=
  net.addChild parent (.trim mask) mask.arity

def addConstantFilter (net : Network) (parent : NodeId) (column : Nat) (value : Value) :
    Except Fault (Network × NodeId) := do
  net.addChild parent (.constantFilter column value) (← net.arity parent)

def addEqualityFilter (net : Network) (parent : NodeId) (groups : List (List Nat)) :
    Except Fault (Network × NodeId) := do
  net.addChild parent (.equalityFilter groups) (← net.arity parent)

def addInequalityFilter (net : Network) (parent : NodeId) (left right : Nat) :
    Except Fault (Network × NodeId) := do
  net.addChild parent (.inequalityFilter left right) (← net.arity parent)

def addExpression (net : Network) (parent : NodeId) (evaluator : Evaluator) (inputs : List Nat)
    (mode : ExpressionMode) : Except Fault (Network × NodeId) := do
  let width ← net.arity parent
  net.addChild parent (.expression { evaluator, inputs, mode })
    (match mode with | .check => width | .bind => width + 1)

def fill (net : Network) (ix : Index) : List Tuple → Except Fault (Network × Index)
  | [] => .ok (net, ix)
  | t :: rest => do
    let (ix, outcome) ← ix.insert t
    match outcome with
    | .ok _ => net.fill ix rest
    | .error issue => (net.report issue).fill ix rest

/-- The index of a node's output by some columns, made on first request. It is named after the node
and the columns. -/
def indexFor (net : Network) (parent : NodeId) (mask : Mask) :
    Except Fault (Network × IndexId) := do
  match net.arranged.get? (parent, mask) with
  | some id => return (net, id)
  | none =>
    let unique ← net.producesSet parent
    let n ← net.node parent
    let name := n.kindName ++ "#" ++ toString parent ++ mask.text
    let (net, index) ← net.fill { name, mask, unique } (← net.pull parent)
    let id := net.arrangements.size
    let net := { net with
      arrangements := net.arrangements.push { parent, index }
      arranged := net.arranged.set (parent, mask) id }
    return (net.addReceiver parent (.index id), id)

def addOverIndexes (net : Network) (n : Node) (primary : NodeId × IndexId)
    (secondary : NodeId × IndexId) (arity : Nat) : Network × NodeId :=
  let (net, id) := net.push n [primary.1, secondary.1] arity
  ((net.addListener primary.2 (id, .primary)).addListener secondary.2 (id, .secondary), id)

def addJoin (net : Network) (primary : NodeId) (primaryMask : Mask) (secondary : NodeId)
    (secondaryMask : Mask) : Except Fault (Network × NodeId) := do
  let complement := secondaryMask.complement
  let width ← net.arity primary
  let (net, p) ← net.indexFor primary primaryMask
  let (net, s) ← net.indexFor secondary secondaryMask
  return net.addOverIndexes (.join p s complement) (primary, p) (secondary, s)
    (width + complement.arity)

def addExistence (net : Network) (primary : NodeId) (primaryMask : Mask) (secondary : NodeId)
    (secondaryMask : Mask) (negative : Bool) : Except Fault (Network × NodeId) := do
  let width ← net.arity primary
  let (net, p) ← net.indexFor primary primaryMask
  let (net, s) ← net.indexFor secondary secondaryMask
  return net.addOverIndexes (.existence p s negative) (primary, p) (secondary, s) width

def addOuterJoin (net : Network) (primary : NodeId) (primaryMask : Mask) (secondary : NodeId)
    (secondaryMask : Mask) (defaults : Tuple) : Except Fault (Network × NodeId) := do
  let complement := secondaryMask.complement
  if complement.arity ≠ defaults.arity then throw (.defaultsWidth defaults complement)
  let width ← net.arity primary
  let (net, p) ← net.indexFor primary primaryMask
  let (net, s) ← net.indexFor secondary secondaryMask
  return net.addOverIndexes (.outerJoin p s complement defaults) (primary, p) (secondary, s)
    (width + complement.arity)

def foldBuckets (g : Grouping) : List (Tuple × Bag Tuple) → Except Fault Grouping
  | [] => .ok g
  | e :: rest => do
    match ← g.fold (some e.2) with
    | some v => foldBuckets { g with groups := g.groups.insert e.1 v } rest
    | none => foldBuckets g rest

/-- One row for every group of tuples with one signature: the signature and the operator's value. -/
def addGrouping (net : Network) (parent : NodeId) (mask : Mask) (operator : Aggregator)
    (column : Option Nat) : Except Fault (Network × NodeId) := do
  let (net, source) ← net.indexFor parent mask
  let g ← foldBuckets { source, operator, column } (← net.index source).buckets.toList
  let (net, id) := net.push (.grouping g) [parent] (mask.arity + 1)
  return (net.addListener source (id, .primary), id)

def addClosure (net : Network) (parent : NodeId) : Except Fault (Network × NodeId) := do
  if (← net.arity parent) ≠ 2 then throw .closureWidth
  net.addChild parent (.closure {}) 2

def addUniqueness (net : Network) (parent : NodeId) : Except Fault (Network × NodeId) := do
  net.addChild parent (.uniqueness ∅) (← net.arity parent)

def addProduction (net : Network) (query : String) (arity : Nat) : Network × NodeId :=
  net.push (.production query ∅) [] arity

/-- Makes a node a body of a production, which receives what the node puts out now. -/
def connect (net : Network) (production parent : NodeId) : Except Fault Network := do
  if (← net.arity production) ≠ (← net.arity parent) then throw .productionWidth
  let net := { net with
    vertices := net.vertices.modify production fun v => { v with parents := v.parents ++ [parent] } }
  let net := net.addReceiver parent (.node production)
  net.feed production (← net.pull parent)

end Network
end Motif
