import Std.Data.ExtTreeMap
import Std.Data.ExtTreeSet

/-!
Strongly connected components of a finite graph by Tarjan's algorithm, every component after those
its edges lead to.

A depth-first search numbers the nodes as it enters them and puts them on a stack. A node stays there
as long as it may belong to a component that is not complete. The search keeps, for every node, the
least number of a node on the stack that it is known to lead to. Where that is the node's own when the
search leaves it, the node and those above it are a component.
-/
set_option autoImplicit false
namespace Motif

open Std (ExtTreeMap ExtTreeSet TransOrd)

/-- A finite graph: by node, the nodes its edges lead to. Nodes without edges need no entry. -/
abbrev CallGraph (α : Type) [Ord α] := ExtTreeMap α (ExtTreeSet α)

namespace CallGraph
variable {α : Type} [Ord α] [TransOrd α]

def next (g : CallGraph α) (a : α) : List α := (g.getD a ∅).toList

def nodes (g : CallGraph α) : ExtTreeSet α := .ofList (g.toList.flatMap fun e => e.1 :: e.2.toList)

end CallGraph

structure Tarjan (α : Type) [Ord α] where
  /-- the number of the next node entered -/
  index : Nat := 0
  /-- entered nodes whose component is not found yet, the latest first -/
  stack : List α := []
  indices : ExtTreeMap α Nat := ∅
  lowlinks : ExtTreeMap α Nat := ∅
  onStack : ExtTreeSet α := ∅
  /-- components found so far, the latest first -/
  found : List (List α) := []

namespace Tarjan
variable {α : Type} [Ord α] [TransOrd α]

def enter (t : Tarjan α) (v : α) : Tarjan α :=
  { t with
    index := t.index + 1
    stack := v :: t.stack
    indices := t.indices.insert v t.index
    lowlinks := t.lowlinks.insert v t.index
    onStack := t.onStack.insert v }

/-- `v` leads to a node on the stack with that number. -/
def lower (t : Tarjan α) (v : α) (candidate : Nat) : Tarjan α :=
  { t with lowlinks := t.lowlinks.modify v (min · candidate) }

variable [DecidableEq α]

/-- Leaves `v`. If it leads to nothing older, the stack down to it is a component. -/
def close (t : Tarjan α) (v : α) : Tarjan α :=
  if t.lowlinks[v]? = t.indices[v]? then
    let (above, rest) := t.stack.span (· ≠ v)
    let component := above ++ rest.take 1
    { t with
      stack := rest.drop 1
      onStack := component.foldl .erase t.onStack
      found := component.mergeSort (fun a b => (compare a b).isLE) :: t.found }
  else t

def follow (connect : Tarjan α → α → Tarjan α) (v : α) (t : Tarjan α) (w : α) : Tarjan α :=
  match t.indices[w]? with
  | some index => if w ∈ t.onStack then t.lower v index else t
  | none =>
    let t := connect t w
    match t.lowlinks[w]? with
    | some low => t.lower v low
    | none => t

/-- Enters `v`, follows its edges and leaves it. `depth` bounds the length of the paths followed; the
number of nodes that are not entered yet is enough. -/
def connect (g : CallGraph α) : Nat → Tarjan α → α → Tarjan α
  | 0, t, _ => t
  | depth + 1, t, v => ((g.next v).foldl (follow (connect g depth) v) (t.enter v)).close v

def search (g : CallGraph α) (size : Nat) (nodes : List α) : Tarjan α :=
  nodes.foldl (fun t v => if v ∈ t.indices then t else connect g size t v) {}

end Tarjan

def CallGraph.components {α : Type} [Ord α] [TransOrd α] [DecidableEq α] (g : CallGraph α) :
    List (List α) :=
  (Tarjan.search g g.nodes.size g.nodes.toList).found.reverse

end Motif
