import Motif.Binding
import Motif.Failure
import Motif.Issue
import Motif.Pattern.Query

set_option autoImplicit false
namespace Motif

/-- One match of a query: a value for every parameter. -/
structure Match where
  query : Query
  tuple : Tuple

namespace Match

/-- Matches are the same when their queries have one name and their values are equal. -/
instance : BEq Match := ⟨fun a b => a.query.name == b.query.name && a.tuple == b.tuple⟩

def get? (m : Match) (parameter : String) : Option Value :=
  (m.query.position? parameter).bind fun i => m.tuple[i]?

def text (m : Match) : String :=
  m.query.name ++ "(" ++ ", ".intercalate ((m.query.parameters.zip m.tuple).map fun p =>
    p.1.name ++ "=" ++ p.2.text) ++ ")"

/-- Says of a value that it is not of the kind declared for its parameter. -/
def misfit? (p : Parameter × Value) : Option String :=
  match p.1.kind with
  | none => none
  | some k =>
    if p.2.kind = k then none
    else some (p.1.name ++ " = " ++ p.2.text ++ " is not " ++ k.name)

def ofTuple (q : Query) (t : Tuple) : Except Issue Match :=
  match (q.parameters.zip t).findSome? misfit? with
  | some message => .error (.badlyTypedMatch q.name message)
  | none => .ok ⟨q, t⟩

end Match

def Query.position (q : Query) (name : String) : Except PlanError Nat :=
  match q.position? name with
  | some i => .ok i
  | none => .error (.notAParameter name q.name)

/-- Values fixed in advance, for all positions at once and by the names of parameters. A name goes
before its position, and of two values for one name the later counts. -/
structure PartialMatch where
  positions : Option Binding := none
  named : List (String × Value) := []
  deriving DecidableEq, Repr

namespace PartialMatch

def positional (p : PartialMatch) (q : Query) : Except Failure Binding :=
  match p.positions with
  | none => .ok (.unbound q.arity)
  | some b =>
    if b.length = q.arity then .ok b else .error (.bindingArity q.name q.arity b.length)

def resolve (p : PartialMatch) (q : Query) : Except Failure Binding := do
  let start ← p.positional q
  p.named.foldlM (fun b (name, v) => do
    let i ← q.position name
    return b.set i (some v)) start

end PartialMatch
end Motif
