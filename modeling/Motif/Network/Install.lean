import Motif.Algebra.Basic
import Motif.Catalog.Basic
import Motif.Failure
import Motif.Model
import Motif.Network.Construct

/-!
Relational expressions as nodes of a network. An expression installed before is not built again. The
nodes of base relations are filled from the graph, and a production must be there beforehand, as its
query may still be under construction.
-/
set_option autoImplicit false
namespace Motif

open Std (ExtTreeMap)

structure Site where
  catalog : Catalog
  graph : Graph
  /-- the node of every query that has one -/
  productions : ExtTreeMap String NodeId

/-- A network with the nodes of the expressions installed in it. An expression is found under its
size and itself, so that large ones are seldom compared. -/
structure Installed where
  network : Network := {}
  nodes : Table (Nat × Algebra) NodeId := .empty

namespace Network

def installInput (net : Network) (g : Graph) (relation : Relation) :
    Except Fault (Network × NodeId) := do
  let fresh := (net.inputNode? relation).isNone
  let (net, id) := net.addInput relation relation.arity (g.schema.isUnique relation)
  if fresh then
    return (← net.updateAll ((g.tuples relation).map fun t => ⟨relation, ⟨.insert, t⟩⟩), id)
  else return (net, id)

end Network

namespace Installed

/-- Runs `build` unless `expr` has a node. -/
def remember (s : Installed) (expr : Algebra)
    (build : Installed → Except Failure (Installed × NodeId)) :
    Except Failure (Installed × NodeId) :=
  let key := (expr.size, expr)
  match s.nodes.get? key with
  | some id => .ok (s, id)
  | none => do
    let (s, id) ← build s
    return ({ s with nodes := s.nodes.set key id }, id)

def make (s : Installed) (r : Except Fault (Network × NodeId)) :
    Except Failure (Installed × NodeId) := do
  let (network, id) ← r
  return ({ s with network }, id)

/-- The node of an expression, with the nodes of its parts before it, the primary side first. -/
def install (site : Site) (s : Installed) (expr : Algebra) : Except Failure (Installed × NodeId) :=
  match expr with
  | .production query _ =>
    match site.productions[query]? with
    | some id => .ok (s, id)
    | none => .error (.plan (.unknownQuery query))
  | .constant rows arity => s.remember expr fun s => s.make (.ok (s.network.addConstant rows arity))
  | .input relation => s.remember expr fun s => s.make (s.network.installInput site.graph relation)
  | .trim parent mask => s.remember expr fun s => do
    let (s, p) ← s.install site parent
    s.make (s.network.addTrim p mask)
  | .constantFilter parent column value => s.remember expr fun s => do
    let (s, p) ← s.install site parent
    s.make (s.network.addConstantFilter p column value)
  | .equalityFilter parent groups => s.remember expr fun s => do
    let (s, p) ← s.install site parent
    s.make (s.network.addEqualityFilter p groups)
  | .inequalityFilter parent left right => s.remember expr fun s => do
    let (s, p) ← s.install site parent
    s.make (s.network.addInequalityFilter p left right)
  | .expression parent evaluator inputs mode => s.remember expr fun s => do
    let e ← site.catalog.evaluator evaluator
    let (s, p) ← s.install site parent
    s.make (s.network.addExpression p e inputs mode)
  | .join primary primaryMask secondary secondaryMask => s.remember expr fun s => do
    let (s, p) ← s.install site primary
    let (s, q) ← s.install site secondary
    s.make (s.network.addJoin p primaryMask q secondaryMask)
  | .existence primary primaryMask secondary secondaryMask negative => s.remember expr fun s => do
    let (s, p) ← s.install site primary
    let (s, q) ← s.install site secondary
    s.make (s.network.addExistence p primaryMask q secondaryMask negative)
  | .outerJoin primary primaryMask secondary secondaryMask defaults => s.remember expr fun s => do
    let (s, p) ← s.install site primary
    let (s, q) ← s.install site secondary
    s.make (s.network.addOuterJoin p primaryMask q secondaryMask defaults)
  | .grouping parent mask operator column => s.remember expr fun s => do
    let op ← site.catalog.aggregator operator
    let (s, p) ← s.install site parent
    s.make (s.network.addGrouping p mask op column)
  | .closure parent => s.remember expr fun s => do
    let (s, p) ← s.install site parent
    s.make (s.network.addClosure p)

end Installed
end Motif
