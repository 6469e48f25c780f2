import Motif.Engine.Evaluation
import Motif.Engine.Update

set_option autoImplicit false
namespace Motif
namespace Session

/-- Tuples as matches; those with a value not of its parameter's kind are reported and left out. -/
def typedTuples (q : Query) (ts : List Tuple) : Session (List Match) := do
  let matched := ts.map (Match.ofTuple q)
  modify (·.report (matched.filterMap fun r =>
    match r with
    | .error issue => some issue
    | .ok _ => none))
  return matched.filterMap Except.toOption

def prepared (name : String) : Session (Query × Backend) := do
  let backend ← prepare name
  return (← liftPlan ((← get).catalog.query name), backend)

def matchesOf (q : Query) (backend : Backend) (p : PartialMatch) : Session (List Match) := do
  let b ← p.resolve q
  requireLive
  typedTuples q (← evaluate q.name backend b)

def allMatches (name : String) (p : PartialMatch) : Session (List Match) := do
  let (q, backend) ← prepared name
  matchesOf q backend p

def oneMatch (name : String) (p : PartialMatch) : Session (Option Match) :=
  List.head? <$> allMatches name p

def hasMatch (name : String) (p : PartialMatch) : Session Bool :=
  (!·.isEmpty) <$> allMatches name p

def countMatches (name : String) (p : PartialMatch) : Session Nat :=
  List.length <$> allMatches name p

def valuesOf (name : String) (parameter : String) (p : PartialMatch) :
    Session (Std.ExtTreeSet Value) := do
  let (q, backend) ← prepared name
  let i ← liftPlan (q.position parameter)
  return .ofList ((← matchesOf q backend p).filterMap fun m => m.tuple[i]?)

/-- Matches converted by `convert`. Those it refuses are reported and left out. -/
def converted {α : Type} (name : String) (p : PartialMatch) (convert : Match → Except String α) :
    Session (List α) := do
  let found ← allMatches name p
  modify (·.report (found.filterMap fun m =>
    match convert m with
    | .error message => some (.badlyTypedMatch m.query.name (m.text ++ ": " ++ message))
    | .ok _ => none))
  return found.filterMap fun m => (convert m).toOption

end Session
end Motif
