import Motif.Aggregator
import Motif.Closure
import Motif.Evaluator
import Motif.Index
import Motif.Schema

set_option autoImplicit false
namespace Motif

open Std (ExtTreeMap)

abbrev NodeId := Nat
abbrev IndexId := Nat

inductive Side where
  | primary | secondary
  deriving DecidableEq, Repr

/-- `cache` holds, for every tuple received, what was put out for it and how often it is held. -/
structure Expression where
  evaluator : Evaluator
  inputs : List Nat
  mode : ExpressionMode
  cache : ExtTreeMap Tuple (Option Tuple × Nat) := ∅

/-- Folds one column of every bucket of an index; without a column, a null for every tuple. `groups`
holds the row put out for every bucket. -/
structure Grouping where
  source : IndexId
  operator : Aggregator
  column : Option Nat
  groups : ExtTreeMap Tuple Value := ∅

inductive Node where
  | input (relation : Relation) (unique : Bool) (memory : Bag Tuple)
  | constant (rows : List Tuple)
  | trim (mask : Mask)
  | constantFilter (column : Nat) (value : Value)
  /-- the columns of each group hold one value -/
  | equalityFilter (groups : List (List Nat))
  | inequalityFilter (left right : Nat)
  | expression (x : Expression)
  /-- `complement` are the columns of the secondary side that are appended to the primary tuple -/
  | join (primary secondary : IndexId) (complement : Mask)
  /-- primary tuples with a partner, or with none if `negative` -/
  | existence (primary secondary : IndexId) (negative : Bool)
  /-- a join that puts `defaults` beside primary tuples without a partner -/
  | outerJoin (primary secondary : IndexId) (complement : Mask) (defaults : Tuple)
  | grouping (g : Grouping)
  | closure (state : Closure)
  | uniqueness (memory : Bag Tuple)
  | production (query : String) (memory : Bag Tuple)

structure Reply where
  node : Node
  out : List Event := []
  issue : Option Issue := none

/-- Whether all columns of a group hold the value of `first`; columns after one that does not are
not looked at. -/
def Tuple.agreeWith (t : Tuple) (first : Nat) : List Nat → Except Fault Bool
  | [] => .ok true
  | c :: rest => do
    if (← t.column c) = (← t.column first) then agreeWith t first rest else return false

def Tuple.agreeIn (t : Tuple) : List (List Nat) → Except Fault Bool
  | [] => .ok true
  | group :: rest => do
    if ← t.agreeWith (group.headD 0) group then agreeIn t rest else return false

namespace Expression

def output {m : Type → Type} [Monad m] (evaluate : List Value → m (Except String Value))
    (x : Expression) (t : Tuple) : ExceptT Fault m (Option Tuple × Option Issue) := do
  let inputs ← ExceptT.mk (m := m) (pure (x.inputs.mapM t.column))
  match ← ExceptT.lift (evaluate inputs) with
  | .ok v =>
    match x.mode with
    | .check => return (if v.isTruthy then some t else none, none)
    | .bind => return (some (t ++ [v]), none)
  | .error message => return (none, some (.evaluationFailed x.evaluator.name t message))

/-- A tuple is evaluated when it is held for the first time; what it gave then is put out again for
every further occurrence, and taken back for every one that goes. -/
def receive {m : Type → Type} [Monad m] (evaluate : List Value → m (Except String Value))
    (x : Expression) (e : Event) :
    ExceptT Fault m (Expression × List Event × Option Issue) := do
  match e.direction, x.cache[e.tuple]? with
  | .insert, some (output, count) =>
    return ({ x with cache := x.cache.insert e.tuple (output, count + 1) },
      output.toList.map (Event.mk .insert), none)
  | .insert, none =>
    let (output, issue) ← x.output evaluate e.tuple
    return ({ x with cache := x.cache.insert e.tuple (output, 1) },
      output.toList.map (Event.mk .insert), issue)
  | .revoke, some (output, count) =>
    return ({ x with
        cache :=
          if count ≤ 1 then x.cache.erase e.tuple else x.cache.insert e.tuple (output, count - 1) },
      output.toList.map (Event.mk .revoke), none)
  | .revoke, none =>
    return (x, [], some (.missingTuple ("expression " ++ x.evaluator.name) e.tuple))

end Expression

namespace Grouping

def fold (g : Grouping) : Option (Bag Tuple) → Except Fault (Option Value)
  | none => .ok none
  | some b => do
    let values ← b.items.mapM fun t =>
      match g.column with
      | some c => t.column c
      | none => .ok .null
    return g.operator.fold values

def respond (g : Grouping) (signature : Tuple) (bucket : Option (Bag Tuple)) :
    Except Fault (Grouping × List Event) := do
  let fresh ← g.fold bucket
  let old := g.groups[signature]?
  if old = fresh then return (g, [])
  let groups :=
    match fresh with
    | some v => g.groups.insert signature v
    | none => g.groups.erase signature
  return ({ g with groups },
    (old.toList.map fun v => ⟨.revoke, signature ++ [v]⟩) ++
      fresh.toList.map fun v => ⟨.insert, signature ++ [v]⟩)

end Grouping

def Bag.countEvent (b : Bag Tuple) (e : Event) : Bag Tuple × Option Bool :=
  match e.direction with
  | .insert =>
    let (b, change) := b.increment e.tuple
    (b, some (change == .appeared))
  | .revoke =>
    match b.decrement e.tuple with
    | (_, .missing) => (b, none)
    | (b, change) => (b, some (change == .disappeared))

namespace Node

def kindName : Node → String
  | input .. => "input"
  | constant _ => "constant"
  | trim _ => "trimmer"
  | constantFilter .. => "constant_filter"
  | equalityFilter _ => "equality_filter"
  | inequalityFilter .. => "inequality_filter"
  | expression _ => "expression"
  | join .. => "join"
  | existence _ _ true => "anti_join"
  | existence _ _ false => "semi_join"
  | outerJoin .. => "outer_join"
  | grouping _ => "aggregator"
  | closure _ => "transitive_closure"
  | uniqueness _ => "uniqueness"
  | production .. => "production"

def isStateful : Node → Bool
  | input .. | expression _ | grouping _ | closure _ | uniqueness _ | production .. => true
  | _ => false

def stored : Node → Nat
  | input _ _ memory => memory.size
  | expression x => x.cache.size
  | grouping g => g.groups.size
  | closure state => state.pairCount
  | uniqueness memory | production _ memory => memory.distinct.length
  | _ => 0

def isProduction : Node → Bool
  | production .. => true
  | _ => false

def receiveCounted (rebuild : Bag Tuple → Node) (index : String) (memory : Bag Tuple) (e : Event) :
    Reply :=
  match memory.countEvent e with
  | (memory, some true) => { node := rebuild memory, out := [e] }
  | (memory, some false) => { node := rebuild memory }
  | (memory, none) => { node := rebuild memory, issue := some (.missingTuple index e.tuple) }

def receiveEdge (state : Closure) (e : Event) : Reply :=
  match e.tuple with
  | a :: b :: _ =>
    match e.direction with
    | .insert =>
      let (state, fresh) := state.insert a b
      { node := closure state, out := fresh.map fun p => ⟨.insert, [p.1, p.2]⟩ }
    | .revoke =>
      match state.remove? a b with
      | some (state, stale) =>
        { node := closure state, out := stale.map fun p => ⟨.revoke, [p.1, p.2]⟩ }
      | none =>
        { node := closure state, issue := some (.missingTuple "transitive closure" e.tuple) }
  | _ => { node := closure state }

/-- A node answers a change of its parent's output. Nodes over indexes, inputs and constants have
no parent that sends them changes. -/
def receive (n : Node) (e : Event) : Except Fault Reply :=
  match n with
  | trim mask => do return { node := n, out := [⟨e.direction, ← mask.project e.tuple⟩] }
  | constantFilter column value => do
    return { node := n, out := if (← e.tuple.column column) = value then [e] else [] }
  | equalityFilter groups => do
    return { node := n, out := if ← e.tuple.agreeIn groups then [e] else [] }
  | inequalityFilter left right => do
    return { node := n,
             out := if (← e.tuple.column left) = (← e.tuple.column right) then [] else [e] }
  | expression x => do
    let (x, out, issue) ← x.receive (m := Id) x.evaluator.evaluate e
    return { node := expression x, out, issue }
  | closure state => .ok (receiveEdge state e)
  | uniqueness memory => .ok (receiveCounted uniqueness "uniqueness" memory e)
  | production query memory =>
    .ok (receiveCounted (production query) ("production " ++ query) memory e)
  | input .. | constant _ | join .. | existence .. | outerJoin .. | grouping _ => .ok { node := n }

def consults : Node → Side → IndexChange → Option IndexId
  | join _ s _, .primary, _ | outerJoin _ s _ _, .primary, _ => some s
  | join p _ _, .secondary, _ | outerJoin p _ _ _, .secondary, _ => some p
  | existence p s _, .primary, _ => if p = s then none else some s
  | existence p _ _, .secondary, change => if change.transition then some p else none
  | grouping g, _, _ => some g.source
  | _, _, _ => none

/-- The secondary bucket as it was before the change, for a node that reads one index on both sides;
otherwise as it is. The primary side of such a node goes first and must not pair the tuple with
itself, which the secondary side will do. -/
def previousView (bucket : Option (Bag Tuple)) (shared : Bool) (e : Event) : List Tuple :=
  let now := bucket.getD ∅
  if shared then
    match e.direction with
    | .insert => (now.remove e.tuple).items
    | .revoke => (now.add e.tuple).items
  else now.items

def respondJoin (shared : Bool) (complement : Mask) (side : Side) (e : Event)
    (bucket : Option (Bag Tuple)) : Except Fault (List Event) :=
  match side with
  | .primary => (previousView bucket shared e).mapM fun other => do
      return ⟨e.direction, ← complement.combine e.tuple other⟩
  | .secondary => (bucket.getD ∅).items.mapM fun p => do
      return ⟨e.direction, ← complement.combine p e.tuple⟩

def respondExistence (shared negative : Bool) (side : Side) (e : Event) (change : IndexChange)
    (bucket : Option (Bag Tuple)) : List Event :=
  match side with
  | .primary =>
    let present := if shared then e.direction = .revoke || !change.transition else bucket.isSome
    if present = negative then [] else [e]
  | .secondary =>
    if change.transition then
      let direction := if negative then e.direction.opposite else e.direction
      (bucket.getD ∅).items.map fun p => ⟨direction, p⟩
    else []

/-- Default rows go before the first joined row comes, and come back after the last has gone. -/
def respondOuterJoin (shared : Bool) (complement : Mask) (defaults : Tuple) (side : Side)
    (e : Event) (change : IndexChange) (bucket : Option (Bag Tuple)) :
    Except Fault (List Event) :=
  match side with
  | .primary =>
    match previousView bucket shared e with
    | [] => .ok [⟨e.direction, e.tuple ++ defaults⟩]
    | partners => partners.mapM fun other => do
        return ⟨e.direction, ← complement.combine e.tuple other⟩
  | .secondary => do
    let primaries := (bucket.getD ∅).items
    let joined ← primaries.mapM fun p => do
      return (⟨e.direction, ← complement.combine p e.tuple⟩ : Event)
    let defaulted :=
      if change.transition then
        primaries.map fun p => (⟨e.direction.opposite, p ++ defaults⟩ : Event)
      else []
    return match e.direction with
      | .insert => defaulted ++ joined
      | .revoke => joined ++ defaulted

def respond (n : Node) (side : Side) (e : Event) (change : IndexChange)
    (bucket : Option (Bag Tuple)) : Except Fault (Node × List Event) :=
  match n with
  | join p s complement => do return (n, ← respondJoin (p = s) complement side e bucket)
  | existence p s negative => .ok (n, respondExistence (p = s) negative side e change bucket)
  | outerJoin p s complement defaults => do
    return (n, ← respondOuterJoin (p = s) complement defaults side e change bucket)
  | grouping g => do
    let (g, out) ← g.respond change.signature bucket
    return (grouping g, out)
  | _ => .ok (n, [])

end Node
end Motif
