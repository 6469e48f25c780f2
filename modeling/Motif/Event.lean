import Motif.Schema

set_option autoImplicit false
namespace Motif

inductive Direction where
  | insert | revoke
  deriving DecidableEq, Repr

namespace Direction

def name : Direction → String
  | insert => "INSERT"
  | revoke => "REVOKE"

def opposite : Direction → Direction
  | insert => revoke
  | revoke => insert

end Direction

structure Event where
  direction : Direction
  tuple : Tuple
  deriving DecidableEq, Repr

structure Change where
  relation : Relation
  event : Event
  deriving DecidableEq, Repr

end Motif
