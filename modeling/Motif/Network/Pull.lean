import Motif.Network.Basic

set_option autoImplicit false
namespace Motif

def Index.joinWith (p s : Index) (complement : Mask) : Except Fault (List Tuple) := do
  let rows ← p.buckets.toList.mapM fun e =>
    match s.bucket? e.1 with
    | none => .ok []
    | some partners => do
      let rows ← e.2.items.mapM fun a => partners.items.mapM fun b => complement.combine a b
      return rows.flatten
  return rows.flatten

def Index.outerJoinWith (p s : Index) (complement : Mask) (defaults : Tuple) :
    Except Fault (List Tuple) := do
  let rows ← p.buckets.toList.mapM fun e =>
    match s.bucket? e.1 with
    | none => .ok (e.2.items.map (· ++ defaults))
    | some partners => do
      let rows ← e.2.items.mapM fun a => partners.items.mapM fun b => complement.combine a b
      return rows.flatten
  return rows.flatten

def Index.existingIn (p s : Index) (negative : Bool) : List Tuple :=
  p.buckets.toList.flatMap fun e =>
    if (s.bucket? e.1).isSome = negative then [] else e.2.items

namespace Network

/-- The output of a node, every tuple as often as it occurs in it. Nodes come after their parents,
so that `depth` need not exceed the number of nodes. -/
def pullWithin (net : Network) : Nat → NodeId → Except Fault (List Tuple)
  | 0, _ => .error .outOfRange
  | depth + 1, id => do
    let v ← net.vertex id
    match v.node with
    | .input _ _ memory => return memory.items
    | .constant rows => return rows
    | .trim mask => (← pullWithin net depth (← v.parent)).mapM mask.project
    | .constantFilter column value =>
      (← pullWithin net depth (← v.parent)).filterM fun t => return decide ((← t.column column) = value)
    | .equalityFilter groups => (← pullWithin net depth (← v.parent)).filterM fun t => t.agreeIn groups
    | .inequalityFilter left right =>
      (← pullWithin net depth (← v.parent)).filterM fun t => return decide ((← t.column left) ≠ (← t.column right))
    | .expression x =>
      return x.cache.toList.flatMap fun e => List.flatten (List.replicate e.2.2 e.2.1.toList)
    | .join p s complement => (← net.index p).joinWith (← net.index s) complement
    | .existence p s negative => return (← net.index p).existingIn (← net.index s) negative
    | .outerJoin p s complement defaults =>
      (← net.index p).outerJoinWith (← net.index s) complement defaults
    | .grouping g => return g.groups.toList.map fun e => e.1 ++ [e.2]
    | .closure state => return state.pairs.map fun p => [p.1, p.2]
    | .uniqueness memory | .production _ memory => return memory.distinct

def pull (net : Network) (id : NodeId) : Except Fault (List Tuple) :=
  net.pullWithin net.vertices.size id

end Network
end Motif
