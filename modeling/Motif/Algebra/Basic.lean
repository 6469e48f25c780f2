import Motif.Evaluator
import Motif.Mask
import Motif.Schema

/-!
Relational expressions over base relations and the match sets of queries. Equal expressions stand for
one and the same node of a network.
-/
set_option autoImplicit false
namespace Motif

inductive Algebra where
  | constant (rows : List Tuple) (arity : Nat)
  | input (relation : Relation)
  /-- the matches of a query -/
  | production (query : String) (arity : Nat)
  | trim (parent : Algebra) (mask : Mask)
  | constantFilter (parent : Algebra) (column : Nat) (value : Value)
  | equalityFilter (parent : Algebra) (groups : List (List Nat))
  | inequalityFilter (parent : Algebra) (left right : Nat)
  | expression (parent : Algebra) (evaluator : String) (inputs : List Nat) (mode : ExpressionMode)
  | join (primary : Algebra) (primaryMask : Mask) (secondary : Algebra) (secondaryMask : Mask)
  | existence (primary : Algebra) (primaryMask : Mask) (secondary : Algebra)
      (secondaryMask : Mask) (negative : Bool)
  | outerJoin (primary : Algebra) (primaryMask : Mask) (secondary : Algebra)
      (secondaryMask : Mask) (defaults : Tuple)
  | grouping (parent : Algebra) (mask : Mask) (operator : String) (column : Option Nat)
  | closure (parent : Algebra)
  deriving DecidableEq

namespace Algebra

def unit : Algebra := constant [[]] 0

/-- Whether a join with the expression changes nothing. -/
def isUnit : Algebra → Bool
  | constant rows 0 => rows.length == 1
  | _ => false

def arity : Algebra → Nat
  | constant _ arity | production _ arity => arity
  | input relation => relation.arity
  | trim _ mask => mask.arity
  | constantFilter parent _ _ | equalityFilter parent _ | inequalityFilter parent _ _ => parent.arity
  | expression parent _ _ .check => parent.arity
  | expression parent _ _ .bind => parent.arity + 1
  | join primary _ _ mask | outerJoin primary _ _ mask _ => primary.arity + mask.complement.arity
  | existence primary _ _ _ _ => primary.arity
  | grouping _ mask _ _ => mask.arity + 1
  | closure _ => 2

def size : Algebra → Nat
  | constant .. | input _ | production .. => 1
  | trim parent _ | constantFilter parent _ _ | equalityFilter parent _
  | inequalityFilter parent _ _ | expression parent _ _ _ | grouping parent _ _ _
  | closure parent => parent.size + 1
  | join primary _ secondary _ | existence primary _ secondary _ _
  | outerJoin primary _ secondary _ _ => primary.size + secondary.size + 1

/-- The operators, operands before what is made of them, each with the positions of its operands in
the list. Positions are counted from `start`. -/
def postorderFrom (start : Nat) (a : Algebra) : List (Algebra × List Nat) :=
  match a with
  | constant .. | input _ | production .. => [(a, [])]
  | trim parent _ | constantFilter parent _ _ | equalityFilter parent _
  | inequalityFilter parent _ _ | expression parent _ _ _ | grouping parent _ _ _
  | closure parent => parent.postorderFrom start ++ [(a, [start + parent.size - 1])]
  | join primary _ secondary _ | existence primary _ secondary _ _
  | outerJoin primary _ secondary _ _ =>
    let middle := start + primary.size
    primary.postorderFrom start ++ secondary.postorderFrom middle ++
      [(a, [middle - 1, middle + secondary.size - 1])]

def postorder (a : Algebra) : List (Algebra × List Nat) := a.postorderFrom 0

def modeText : ExpressionMode → String
  | .check => "Check"
  | .bind => "Bind"

def groupsText (groups : List (List Nat)) : String :=
  listText (groups.map fun g => listText (g.map toString))

def text : Algebra → String
  | constant rows _ => "const[" ++ toString rows.length ++ "]"
  | input relation => relation.text
  | production query _ => "@" ++ query
  | trim parent mask => "trim" ++ mask.text ++ "(" ++ parent.text ++ ")"
  | constantFilter parent column value =>
    "filter[" ++ toString column ++ "=" ++ value.text ++ "](" ++ parent.text ++ ")"
  | equalityFilter parent groups => "equal" ++ groupsText groups ++ "(" ++ parent.text ++ ")"
  | inequalityFilter parent left right =>
    "unequal[" ++ toString left ++ "," ++ toString right ++ "](" ++ parent.text ++ ")"
  | expression parent evaluator _ mode =>
    modeText mode ++ ":" ++ evaluator ++ "(" ++ parent.text ++ ")"
  | join primary primaryMask secondary secondaryMask =>
    "join(" ++ primary.text ++ primaryMask.text ++ ", " ++ secondary.text ++ secondaryMask.text ++
      ")"
  | existence primary _ secondary _ negative =>
    (if negative then "anti(" else "semi(") ++ primary.text ++ ", " ++ secondary.text ++ ")"
  | outerJoin primary _ secondary _ _ => "outer(" ++ primary.text ++ ", " ++ secondary.text ++ ")"
  | grouping parent _ operator _ => operator ++ "(" ++ parent.text ++ ")"
  | closure parent => "closure(" ++ parent.text ++ ")"

end Algebra
end Motif
