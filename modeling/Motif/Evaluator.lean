import Motif.Value

set_option autoImplicit false
namespace Motif

structure Evaluator where
  name : String
  evaluate : List Value → Except String Value

/-- Whether an expression keeps the tuples it is true of, or appends its value. -/
inductive ExpressionMode where
  | check | bind
  deriving DecidableEq, Repr

end Motif
