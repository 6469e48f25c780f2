import Motif.Schema

set_option autoImplicit false
namespace Motif

abbrev Variable := String

inductive Constraint where
  /-- the variables form a tuple of a base relation -/
  | holds (relation : Relation) (vars : List Variable)
  /-- the arguments form a match of a query -/
  | find (query : String) (arguments : List Variable)
  /-- no match of the query agrees with the arguments -/
  | lacks (query : String) (arguments : List Variable)
  | unequal (left right : Variable)
  | equal (left right : Variable)
  | constant (x : Variable) (value : Value)
  /-- `result` is the number of matches of the query that agree with the arguments -/
  | count (query : String) (arguments : List Variable) (result : Variable)
  /-- `result` is the operator's fold of `aggregated` over those matches -/
  | aggregate (operator query : String) (arguments : List Variable) (aggregated result : Variable)
  | check (evaluator : String) (inputs : List Variable)
  | eval (evaluator : String) (inputs : List Variable) (output : Variable)
  /-- a path of matches of a query with two parameters leads from `source` to `target` -/
  | closure (query : String) (source target : Variable)
  deriving DecidableEq, Repr

namespace Constraint

def vars : Constraint → List Variable
  | holds _ xs | find _ xs | lacks _ xs => xs
  | unequal l r | equal l r => [l, r]
  | constant x _ => [x]
  | count _ xs result | aggregate _ _ xs _ result => xs ++ [result]
  | check _ xs => xs
  | eval _ xs output => xs ++ [output]
  | closure _ source target => [source, target]

def calledQuery? : Constraint → Option String
  | find q _ | lacks q _ | count q _ _ | aggregate _ q _ _ _ | closure q _ _ => some q
  | _ => none

/-- Whether the constraint depends on which matches its callee does not have. -/
def isClosedWorld : Constraint → Bool
  | lacks .. | count .. | aggregate .. => true
  | _ => false

def rename (f : Variable → Variable) : Constraint → Constraint
  | holds r xs => holds r (xs.map f)
  | find q xs => find q (xs.map f)
  | lacks q xs => lacks q (xs.map f)
  | unequal l r => unequal (f l) (f r)
  | equal l r => equal (f l) (f r)
  | constant x v => constant (f x) v
  | count q xs result => count q (xs.map f) (f result)
  | aggregate op q xs aggregated result => aggregate op q (xs.map f) (f aggregated) (f result)
  | check e xs => check e (xs.map f)
  | eval e xs output => eval e (xs.map f) (f output)
  | closure q source target => closure q (f source) (f target)

def application (name : String) (xs : List Variable) : String :=
  name ++ "(" ++ ", ".intercalate xs ++ ")"

def text : Constraint → String
  | holds r xs => application r.name xs
  | find q xs => "find " ++ application q xs
  | lacks q xs => "neg find " ++ application q xs
  | unequal l r => l ++ " != " ++ r
  | equal l r => l ++ " == " ++ r
  | constant x v => x ++ " == " ++ v.text
  | count q xs result => result ++ " == count find " ++ application q xs
  | aggregate op q xs aggregated result =>
    result ++ " == " ++ op ++ " find " ++ application q xs ++ "#" ++ aggregated
  | check e xs => "check " ++ application e xs
  | eval e xs output => output ++ " == eval " ++ application e xs
  | closure q source target => "find " ++ application (q ++ "+") [source, target]

end Constraint
end Motif
