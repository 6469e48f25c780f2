import Motif.Event
import Motif.Match
import Motif.Model

set_option autoImplicit false
namespace Motif

structure Notice where
  direction : Direction
  found : Match

inductive Outcome where
  | ok
  | failed (message : String)
  /-- it broke off; the message, if it left one -/
  | broke (message : Option String)
  deriving DecidableEq, Repr

structure Reaction where
  writes : List Write := []
  outcome : Outcome := .ok

/-- Answers a notice, given all that the listener was told before, the latest first. -/
abbrev Listener := List Notice → Notice → Reaction

abbrev ListenerId := Nat

def listenerText (id : ListenerId) : String := "listener#" ++ toString id

inductive Fatal where
  | listenerFailed (query : String) (listener : ListenerId) (message : String)
  | listenerBroke (query : String) (listener : ListenerId) (message : Option String)
  /-- listeners kept asking for writes; the last `dropped` of them were not run -/
  | overflow (rounds dropped : Nat)
  deriving DecidableEq, Repr

def Fatal.text : Fatal → String
  | listenerFailed query listener message =>
    listenerText listener ++ " on " ++ query ++ " failed: " ++ message
  | listenerBroke query listener message =>
    listenerText listener ++ " on " ++ query ++ " panicked: " ++
      message.getD "non-string panic payload"
  | overflow rounds dropped =>
    "deferred updates still pending after " ++ toString rounds ++ " rounds, " ++
      toString dropped ++ " dropped"

/-- A listener of a query; `heard` is what it was told so far, the latest first. -/
structure Subscription where
  id : ListenerId
  query : Query
  listener : Listener
  heard : List Notice := []

namespace Subscription

def hear (s : Subscription) (n : Notice) : Subscription := { s with heard := n :: s.heard }

def react (s : Subscription) (n : Notice) : Reaction := s.listener s.heard n

def fatal? (s : Subscription) (n : Notice) : Option Fatal :=
  match (s.react n).outcome with
  | .ok => none
  | .failed message => some (.listenerFailed s.query.name s.id message)
  | .broke message => some (.listenerBroke s.query.name s.id message)

end Subscription
end Motif
