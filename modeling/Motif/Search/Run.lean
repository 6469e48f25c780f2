import Motif.Binding
import Motif.Firsts
import Motif.Issue
import Motif.Model
import Motif.Search.Plan

/-!
Backtracking search. A frame holds the values of the slots so far. Every operation leads from a frame
to the frames it goes on with, in order; a check keeps the frame or gives none. Calls are answered
from outside, and may change what stands outside.
-/
set_option autoImplicit false
namespace Motif

open Std (ExtTreeSet)

abbrev Frame := List (Option Value)

namespace Frame

def value? (f : Frame) (slot : Nat) : Option Value := f[slot]?.join

/-- Puts a value into a slot, unless the slot holds another one. -/
def put? (f : Frame) (slot : Nat) (v : Value) : Option Frame :=
  match f.value? slot with
  | some old => if old = v then some f else none
  | none => some (f.set slot (some v))

end Frame

def CallFrame.binding (c : CallFrame) (f : Frame) : Binding :=
  c.positions.map fun p => if p.2 then f.value? p.1 else none

/-- A computation that changes a state and answers or breaks off; nothing if it never ends. -/
abbrev Search (σ ε : Type) := ExceptT ε (StateT σ Option)

structure Searcher (σ ε : Type) where
  graph : Graph
  /-- matches of a query that agree with a binding -/
  ask : Reference → Binding → Search σ ε (List Tuple)
  report : Issue → Search σ ε Unit

namespace Searcher
variable {σ ε : Type}

def call (s : Searcher σ ε) (callee : Reference) (c : CallFrame) (f : Frame) : Search σ ε (List Tuple) := do
  let binding := c.binding f
  return (← s.ask callee binding).filter fun t => binding.agrees t && c.isConsistent t

structure Trail where
  visited : ExtTreeSet Value := ∅
  /-- nodes to go on from, the latest first -/
  later : List Value := []

/-- Follows an edge of a path search from `start` to `goal`, leaving `node`; none when the goal is
reached. An edge back to the start counts only as its own loop. -/
def Trail.follow? (start goal node : Value) (t : Trail) (edge : Tuple) : Option Trail :=
  match edge[1]? with
  | none => some t
  | some next =>
    if next = start then (if node = start && next = goal then none else some t)
    else if next = goal then none
    else if next ∈ t.visited then some t
    else some ⟨t.visited.insert next, next :: t.later⟩

def linksFrom (s : Searcher σ ε) (callee : Reference) (start goal : Value) (t : Trail)
    (nodes : List Value) (st : σ) : Option (Except ε Bool × σ) :=
  match nodes with
  | [] =>
    if t.later.isEmpty then some (.ok false, st)
    else s |>.linksFrom callee start goal { t with later := [] } t.later.reverse st
  | node :: rest => do
    match ← (s.ask callee [some node, none]).run.run st with
    | (.error f, st) => return (.error f, st)
    | (.ok edges, st) =>
      match edges.foldlM (Trail.follow? start goal node) t with
      | none => return (.ok true, st)
      | some t => s |>.linksFrom callee start goal t rest st
partial_fixpoint

def reachesFrom (s : Searcher σ ε) (callee : Reference) (start goal : Value) (t : Trail)
    (nodes : List Value) : Search σ ε Bool :=
  ExceptT.mk (s.linksFrom callee start goal t nodes)

theorem reachesFrom_nil (s : Searcher σ ε) (callee : Reference) (start goal : Value) (t : Trail) :
    s.reachesFrom callee start goal t [] =
      if t.later.isEmpty then pure false
      else s.reachesFrom callee start goal { t with later := [] } t.later.reverse := by
  funext st
  simp only [reachesFrom, ExceptT.mk]
  rw [linksFrom.eq_1]
  split <;> rfl

theorem run_step (s : Searcher σ ε) (callee : Reference) (start goal : Value) (t : Trail)
    (node : Value) (after : Trail → Search σ ε Bool) (st : σ) :
    ((do match (← s.ask callee [some node, none]).foldlM (Trail.follow? start goal node) t with
      | none => return true
      | some t => after t) : Search σ ε Bool).run.run st = (do
      match ← (s.ask callee [some node, none]).run.run st with
      | (.error f, st) => return (.error f, st)
      | (.ok edges, st) =>
        match edges.foldlM (Trail.follow? start goal node) t with
        | none => return (.ok true, st)
        | some t => (after t).run.run st) := by
  change ((s.ask callee [some node, none]).run.run st).bind _ = Option.bind _ _
  refine congrArg _ (funext fun p => ?_)
  obtain ⟨_ | edges, st⟩ := p
  · rfl
  · dsimp only [ExceptT.bindCont]
    cases edges.foldlM (Trail.follow? start goal node) t <;> rfl

theorem reachesFrom_cons (s : Searcher σ ε) (callee : Reference) (start goal : Value) (t : Trail)
    (node : Value) (rest : List Value) :
    s.reachesFrom callee start goal t (node :: rest) = (do
      match (← s.ask callee [some node, none]).foldlM (Trail.follow? start goal node) t with
      | none => return true
      | some t => s.reachesFrom callee start goal t rest) := by
  funext st
  change s.linksFrom callee start goal t (node :: rest) st = _
  rw [linksFrom.eq_2]
  exact (s.run_step callee start goal t node
    (fun t => s.reachesFrom callee start goal t rest) st).symm

/-- Whether a path of one or more edges of the callee leads from `start` to `goal`; to itself only
an edge of its own. -/
def reaches (s : Searcher σ ε) (callee : Reference) (start goal : Value) : Search σ ε Bool :=
  s.reachesFrom callee start goal {} [start]

def keep (f : Frame) (ok : Bool) : List Frame := if ok then [f] else []

def evaluate (s : Searcher σ ε) (e : Evaluator) (inputs : List Nat) (f : Frame) :
    Search σ ε (Option Value) := do
  match inputs.mapM f.value? with
  | none => return none
  | some args =>
    match e.evaluate args with
    | .ok v => return some v
    | .error message => do
      s.report (.evaluationFailed e.name args message)
      return none

def frames (s : Searcher σ ε) (f : Frame) : Operation → Search σ ε (List Frame)
  | .iterateInstances cls slot => return (s.graph.instancesOf cls).filterMap (f.put? slot)
  | .checkInstance cls slot => return keep f ((f.value? slot).any (s.graph.isInstance cls))
  | .extendForward feature holder value =>
    match f.value? holder with
    | none => return []
    | some h => return (s.graph.valuesOf h feature).filterMap (f.put? value)
  | .extendBackward feature holder value =>
    match f.value? value with
    | none => return []
    | some v => return (s.graph.holdersOf feature v).filterMap (f.put? holder)
  | .iterateFeature cls feature holder value =>
    return (s.graph.instancesOf cls).flatMap fun h =>
      (s.graph.valuesOf h feature).filterMap fun v => do (← f.put? holder h).put? value v
  | .checkFeature feature holder value =>
    match f.value? holder, f.value? value with
    | some h, some v => return keep f (s.graph.hasValue h feature v)
    | _, _ => return []
  | .checkUnequal left right => return keep f (f.value? left ≠ f.value? right)
  | .checkEqual left right =>
    return keep f ((f.value? left).isSome && f.value? left = f.value? right)
  | .extendEqual source target =>
    return ((f.value? source).bind (f.put? target)).toList
  | .checkConstant slot v => return keep f (f.value? slot = some v)
  | .extendConstant slot v => return (f.put? slot v).toList
  | .checkCall callee c => do return keep f !(← s.call callee c f).isEmpty
  | .checkNoCall callee c => do return keep f (← s.call callee c f).isEmpty
  | .count callee c result _ => do
    let found ← s.call callee c f
    return (f.put? result (.ofNat found.length)).toList
  | .aggregate callee c operator aggregated result _ => do
    let found ← s.call callee c f
    let folded :=
      if found.isEmpty then operator.neutral
      else operator.fold (found.filterMap fun t => t[aggregated]?)
    return (folded.bind (f.put? result)).toList
  | .check e inputs => do return keep f ((← s.evaluate e inputs f).any Value.isTruthy)
  | .eval e inputs output _ => do
    return ((← s.evaluate e inputs f).bind (f.put? output)).toList
  | .checkClosure callee source target =>
    match f.value? source, f.value? target with
    | some a, some b => do return keep f (← s.reaches callee a b)
    | _, _ => return []

def run (s : Searcher σ ε) (parameters : List Nat) : List Operation → Frame → Search σ ε (List Tuple)
  | [], f => return [parameters.map fun slot => (f.value? slot).getD .null]
  | op :: rest, f => do
    let next ← s.frames f op
    return (← next.mapM (run s parameters rest)).flatten

/-- The frame a search starts from: the bound parameters have their values. None if one slot would
have two. -/
def enter (p : SearchPlan) (b : Binding) : Option Frame :=
  b.zipIdx.foldlM (fun (f : Frame) (v, position) =>
    match v, p.parameterSlots[position]? with
    | some v, some slot => if position ∈ p.bound then f.put? slot v else some f
    | _, _ => some f) (List.replicate p.slots.size none)

/-- The distinct matches of a plan that agree with a binding. The positions that the plan takes as
bound should be bound. -/
def execute (s : Searcher σ ε) (p : SearchPlan) (b : Binding) : Search σ ε (List Tuple) := do
  match enter p b with
  | none => return []
  | some f =>
    let found ← s.run p.parameterSlots p.operations f
    return (firsts found).filter b.agrees

end Searcher
end Motif
