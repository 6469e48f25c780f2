import Motif.Pattern.Constraint

set_option autoImplicit false
namespace Motif

/-- How a query is evaluated: by a network that keeps its matches up to date, or by searching the
graph at every request. -/
inductive Backend where
  | rete | localSearch
  deriving DecidableEq, Repr

def Backend.name : Backend → String
  | rete => "rete"
  | localSearch => "local_search"

inductive Obstacle where
  /-- nothing left in the body can be applied to the variables bound so far -/
  | noOrder (backend : Backend)
  | appliedBefore (unbound : Variable)
  | unequalUnbound
  | equalUnbound
  | aggregatedNotLocal
  | noSourceClass
  | callUnbound
  | closureUnbound
  /-- a closed-world call inside a recursive component -/
  | throughRecursion (caller callee : String)
  | notObservable
  deriving DecidableEq, Repr

def Obstacle.text : Obstacle → String
  | noOrder backend => "no " ++ backend.name ++ " order binds its variables"
  | appliedBefore x => "applied before " ++ x ++ " is bound"
  | unequalUnbound => "inequality can only check bound variables"
  | equalUnbound => "equality needs one bound side"
  | aggregatedNotLocal => "the aggregated variable must be local to the call"
  | noSourceClass => "neither endpoint bound and no source class declared"
  | callUnbound => "local search can only check a positive pattern call"
  | closureUnbound => "transitive closure can only be checked"
  | throughRecursion caller callee => caller ++ " reaches " ++ callee ++ " through recursion"
  | notObservable => "change notifications need the rete backend"

inductive Malformation where
  | noBody (query : String)
  | relationWidth (c : Constraint) (count : Nat) (relation : Relation)
  | rootProjection
  | constraintRange (index : Nat)
  | appliedTwice (c : Constraint)
  | neverApplied (c : Constraint)
  | unboundProjection (x : Variable)
  | boundEntry
  | inUse (query : String)
  | noProduction (query : String)
  deriving DecidableEq, Repr

def Malformation.text : Malformation → String
  | noBody query => "query " ++ query ++ " has no body"
  | relationWidth c count relation =>
    c.text ++ " has " ++ toString count ++ " variables, " ++ relation.text ++ " needs " ++
      toString relation.arity
  | rootProjection => "plan root must project to the body parameters"
  | constraintRange index => "constraint index " ++ toString index ++ " out of range"
  | appliedTwice c => "constraint " ++ c.text ++ " applied twice"
  | neverApplied c => "constraint " ++ c.text ++ " never applied"
  | unboundProjection x => "projection to unbound variable " ++ x
  | boundEntry => "rete plans start with no bound variable"
  | inUse query => "query " ++ query ++ " is in use and cannot be replaced"
  | noProduction query => query ++ " has no rete production"

inductive PlanError where
  | unsupported (subject : String) (obstacle : Obstacle)
  | malformed (cause : Malformation)
  | unknownQuery (name : String)
  | unknownEvaluator (name : String)
  | unknownAggregator (name : String)
  | arityMismatch (query : String) (expected actual : Nat)
  | unknownVariable (x : Variable)
  /-- the aggregated variable is not among the arguments of the constraint -/
  | notAnArgument (x : Variable) (c : Constraint)
  | notAParameter (x : Variable) (query : String)
  | recursiveSearch (query : String)
  deriving DecidableEq, Repr

namespace PlanError

def text : PlanError → String
  | unsupported subject obstacle =>
    "Unsupported operation for " ++ subject ++ ": " ++ obstacle.text
  | malformed cause => "Malformed plan: " ++ cause.text
  | unknownQuery name => "Unknown query: " ++ name
  | unknownEvaluator name => "Unknown expression evaluator: " ++ name
  | unknownAggregator name => "Unknown aggregation operator: " ++ name
  | arityMismatch query expected actual =>
    "Arity mismatch calling " ++ query ++ ": expected " ++ toString expected ++ ", got " ++
      toString actual
  | unknownVariable x => "Unknown variable: " ++ x
  | notAnArgument x c => "Unknown variable: " ++ x ++ " is not an argument of " ++ c.text
  | notAParameter x query => "Unknown variable: " ++ x ++ " is not a parameter of " ++ query
  | recursiveSearch query => "Recursive pattern cannot be evaluated by local search: " ++ query

def isUnsupported : PlanError → Bool
  | unsupported .. | recursiveSearch _ => true
  | _ => false

end PlanError
end Motif
