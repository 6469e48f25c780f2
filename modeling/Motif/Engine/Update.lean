import Motif.Engine.Preparation

/-!
Updates. What was written to the model is propagated through the network. When the network has
settled, listeners are told what came of it, and then the writes they asked for are run and
propagated in turn, for a limited number of rounds.
-/
set_option autoImplicit false
namespace Motif

open Std (ExtTreeMap)

def ProductionEvent.subject (e : ProductionEvent) : NodeId × Tuple := (e.node, e.event.tuple)

def Direction.sign : Direction → Int
  | insert => 1
  | revoke => -1

structure Tally where
  /-- by match, how many more events tell of its coming than of its going -/
  balances : ExtTreeMap (NodeId × Tuple) Int := ∅
  /-- the matches told of, in the order of first events, the latest first -/
  subjects : List (NodeId × Tuple) := []

namespace Tally

def add (t : Tally) (e : ProductionEvent) : Tally :=
  let sign := e.event.direction.sign
  match t.balances[e.subject]? with
  | some n => { t with balances := t.balances.insert e.subject (n + sign) }
  | none => ⟨t.balances.insert e.subject sign, e.subject :: t.subjects⟩

/-- The one event that a match's events amount to, if they do not cancel out. -/
def event? (t : Tally) (subject : NodeId × Tuple) : Option ProductionEvent :=
  let balance := t.balances.getD subject 0
  if 0 < balance then some ⟨subject.1, .insert, subject.2⟩
  else if balance < 0 then some ⟨subject.1, .revoke, subject.2⟩
  else none

end Tally

def coalesce (events : List ProductionEvent) : List ProductionEvent :=
  let t := events.foldl Tally.add {}
  t.subjects.reverse.filterMap t.event?

namespace Engine

def propagate (e : Engine) : Except Fault Engine := do
  let (model, changes) := e.model.drain
  let net ← e.network.updateAll changes
  return ({ e with model }.setNetwork net).reportNetwork

def takeEvents (e : Engine) : Engine × List ProductionEvent :=
  let (net, events) := e.network.takeEvents
  (e.setNetwork net, if e.settings.coalesce then coalesce events else events)

def listenersOf (e : Engine) (q : Query) : List Subscription :=
  e.subscriptions.filter fun s => s.query.name = q.name

/-- Tells all listeners of a query; answers with the writes they ask for. -/
def tellAll (e : Engine) (n : Notice) : Engine × List Write :=
  let concerned := e.listenersOf n.found.query
  let heard := e.subscriptions.map fun s =>
    if s.query.name = n.found.query.name then s.hear n else s
  let news := concerned.map (fun s => Happening.told s.id n) ++
    (concerned.filterMap (·.fatal? n)).map Happening.fatal
  ({ e with subscriptions := heard }.record news, concerned.flatMap fun s => (s.react n).writes)

/-- Tells of one event, if anyone listens to its query and the match is as the query declares it. -/
def deliver (e : Engine) (event : ProductionEvent) : Engine × List Write :=
  match e.producers[event.node]? with
  | none => (e, [])
  | some q =>
    if (e.listenersOf q).isEmpty then (e, [])
    else
      match Match.ofTuple q event.event.tuple with
      | .error issue => (e.report [issue], [])
      | .ok found => e.tellAll ⟨event.event.direction, found⟩

def deliverAll (e : Engine) (events : List ProductionEvent) : Engine × List Write :=
  let (e, writes) := runAll deliver e events
  (e, writes.flatten)

def round (e : Engine) : Except Fault (Engine × List Write) := do
  let (e, events) := (← e.propagate).takeEvents
  return e.deliverAll events

def runQueued (e : Engine) (queued : List Write) : Engine :=
  { e with model := (e.model.writeAll queued).1 }.record [.wrote queued]

/-- Goes on until listeners ask for nothing more, for at most `rounds` rounds of their writes. -/
def flushWithin : Nat → Engine → Except Fault Engine
  | 0, e => do
    let (e, queued) ← e.round
    if queued.isEmpty then return e
    return e.record [.fatal (.overflow e.settings.maxRounds queued.length)]
  | rounds + 1, e => do
    let (e, queued) ← e.round
    if queued.isEmpty then return e
    flushWithin rounds (e.runQueued queued)

def flush (e : Engine) : Except Fault Engine := flushWithin e.settings.maxRounds e

end Engine

namespace Session

def flush : Session Unit := do set (← liftFault (← get).flush)

def update (writes : List Write) : Session (List Written) := do
  requireLive
  let e ← get
  let (model, answers) := e.model.writeAll writes
  set { e with model }
  flush
  return answers

end Session
end Motif
