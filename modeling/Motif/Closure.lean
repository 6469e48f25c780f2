import Motif.Bag
import Motif.Reach
import Motif.Value.Order

/-!
The transitive closure of a changing binary relation. It has the pair of two different values when
a path leads from the first to the second, and the pair of a value with itself only when that very
edge is there, also when the value lies on a cycle.

The first occurrence of an edge pairs all that reaches its source with all its target reaches. The loss
of the last one cannot be counted down, as one pair may have many paths: what each value that reached
the source still reaches is searched anew.
-/
set_option autoImplicit false
namespace Motif

open Std (ExtTreeMap ExtTreeSet)

abbrev Edge := Value × Value

structure Closure where
  /-- the edges, each as often as it is there -/
  edges : Bag Edge := ∅
  /-- by source, the targets of its edges -/
  successors : ExtTreeMap Value (ExtTreeSet Value) := ∅
  /-- by source, the targets of the closure's pairs -/
  reachable : ExtTreeMap Value (ExtTreeSet Value) := ∅
  /-- by target, the sources of the closure's pairs -/
  reachedBy : ExtTreeMap Value (ExtTreeSet Value) := ∅

namespace Closure

def hasEdge (c : Closure) (a b : Value) : Bool := c.edges.contains (a, b)

def targets (c : Closure) (a : Value) : ExtTreeSet Value := c.successors.getD a ∅

def reach (c : Closure) (a : Value) : ExtTreeSet Value := c.reachable.getD a ∅

def sourcesOf (c : Closure) (b : Value) : ExtTreeSet Value := c.reachedBy.getD b ∅

def contains (c : Closure) (a b : Value) : Bool := (c.reach a).contains b

def pairs (c : Closure) : List Edge :=
  c.reachable.toList.flatMap fun e => e.2.toList.map fun b => (e.1, b)

def pairCount (c : Closure) : Nat := c.reachable.foldl (fun n _ targets => n + targets.size) 0

/-- What the edges lead to from `a`, `a` itself only over its own edge. -/
def search (c : Closure) (a : Value) : ExtTreeSet Value :=
  let met := Reach.closure (fun v => (c.targets v).toList) c.successors.size (c.targets a).toList
  if c.hasEdge a a then met else met.erase a

def linkIn (t : ExtTreeMap Value (ExtTreeSet Value)) (a b : Value) :
    ExtTreeMap Value (ExtTreeSet Value) :=
  t.insert a ((t.getD a ∅).insert b)

def unlinkIn (t : ExtTreeMap Value (ExtTreeSet Value)) (a b : Value) :
    ExtTreeMap Value (ExtTreeSet Value) :=
  let left := (t.getD a ∅).erase b
  if left.isEmpty then t.erase a else t.insert a left

def addPair (c : Closure) (p : Edge) : Closure :=
  { c with reachable := linkIn c.reachable p.1 p.2, reachedBy := linkIn c.reachedBy p.2 p.1 }

def removePair (c : Closure) (p : Edge) : Closure :=
  { c with reachable := unlinkIn c.reachable p.1 p.2, reachedBy := unlinkIn c.reachedBy p.2 p.1 }

/-- The pairs that a path over the edge from `a` to `b` adds to those held. -/
def fresh (c : Closure) (a b : Value) : List Edge :=
  let sources := ((c.sourcesOf a).insert a).toList
  let targets := ((c.reach b).insert b).toList
  sources.flatMap fun s =>
    let known := c.reach s
    (targets.filter fun t => t ∉ known && (t ≠ s || c.hasEdge s s)).map fun t => (s, t)

/-- The pairs held of `a` and of the sources that reach it that no path leads from and to any more. -/
def stale (c : Closure) (a : Value) : List Edge :=
  ((c.sourcesOf a).insert a).toList.flatMap fun s =>
    let kept := c.search s
    ((c.reach s).toList.filter fun t => t ∉ kept).map fun t => (s, t)

def insert (c : Closure) (a b : Value) : Closure × List Edge :=
  let counted := { c with edges := c.edges.add (a, b) }
  if 1 < counted.edges.count (a, b) then (counted, [])
  else
    let grown := { counted with successors := linkIn c.successors a b }
    let derived := grown.fresh a b
    (derived.foldl addPair grown, derived)

/-- Removes one occurrence of an edge; answers with the pairs that go, or `none` when there is no
such edge. -/
def remove? (c : Closure) (a b : Value) : Option (Closure × List Edge) :=
  let counted := { c with edges := c.edges.remove (a, b) }
  if c.edges.count (a, b) = 0 then none
  else if 1 < c.edges.count (a, b) then some (counted, [])
  else
    let shrunk := { counted with successors := unlinkIn c.successors a b }
    let lost := shrunk.stale a
    some (lost.foldl removePair shrunk, lost)

end Closure
end Motif
