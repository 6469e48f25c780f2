import Motif.Fault
import Motif.PlanError

set_option autoImplicit false
namespace Motif

inductive Failure where
  | plan (cause : PlanError)
  /-- a partial match with another number of positions than the query has parameters -/
  | bindingArity (query : String) (expected actual : Nat)
  | listenersAttached (count : Nat)
  | disposed
  /-- a contract of the library itself is broken -/
  | fault (cause : Fault)
  deriving DecidableEq

namespace Failure

def text : Failure → String
  | plan cause => "Planning failed: " ++ cause.text
  | bindingArity query expected actual =>
    "Binding for " ++ query ++ " has " ++ toString actual ++ " positions, expected " ++
      toString expected
  | listenersAttached count =>
    "Cannot dispose engine: " ++ toString count ++ " match listener(s) still attached"
  | disposed => "Engine has been disposed"
  | fault cause => cause.message?.getD ""

end Failure

def liftFault {α : Type} : Except Fault α → Except Failure α
  | .ok a => .ok a
  | .error f => .error (.fault f)

def liftPlan {α : Type} : Except PlanError α → Except Failure α
  | .ok a => .ok a
  | .error e => .error (.plan e)

instance : MonadLift (Except Fault) (Except Failure) := ⟨liftFault⟩
instance : MonadLift (Except PlanError) (Except Failure) := ⟨liftPlan⟩

end Motif
