import Motif.Firsts
import Motif.Pattern.Body
import Motif.PlanError

set_option autoImplicit false
namespace Motif

open Std (ExtTreeSet)

structure Slots where
  names : List Variable
  deriving DecidableEq, Repr

namespace Slots

def of (b : Body) : Slots :=
  ⟨firsts (b.parameters ++ b.constraints.flatMap Constraint.vars)⟩

def size (s : Slots) : Nat := s.names.length

def slot? (s : Slots) (x : Variable) : Option Nat := s.names.findIdx? (· = x)

def slot (s : Slots) (x : Variable) : Except PlanError Nat :=
  match s.slot? x with
  | some i => .ok i
  | none => .error (.unknownVariable x)

def slotsOf (s : Slots) (xs : ExtTreeSet Variable) : ExtTreeSet Nat :=
  .ofList (xs.toList.filterMap s.slot?)

end Slots
end Motif
