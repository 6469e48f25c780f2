import Motif.Catalog.Basic

set_option autoImplicit false
namespace Motif

open Std (ExtTreeSet)

/-- How the slots of a caller are passed to a callee, position by position, each with whether it is
bound at the time of the call. -/
structure CallFrame where
  positions : List (Nat × Bool)
  deriving DecidableEq, Repr

namespace CallFrame

def of (slots : List Nat) (bound : ExtTreeSet Nat) : CallFrame :=
  ⟨slots.map fun s => (s, decide (s ∈ bound))⟩

def bound (f : CallFrame) : ExtTreeSet Nat :=
  .ofList ((f.positions.zipIdx.filter fun p => p.1.2).map Prod.snd)

def isConsistent (f : CallFrame) (t : Tuple) : Bool :=
  let indexed := f.positions.zipIdx
  indexed.all fun p => indexed.all fun q => p.1.1 ≠ q.1.1 || t[p.2]? = t[q.2]?

end CallFrame

inductive Operation where
  | iterateInstances (cls : String) (slot : Nat)
  | checkInstance (cls : String) (slot : Nat)
  /-- from a bound holder to its values -/
  | extendForward (feature : String) (holder value : Nat)
  /-- from a bound value to its holders -/
  | extendBackward (feature : String) (holder value : Nat)
  /-- all instances of the class that declares the feature, with their values -/
  | iterateFeature (cls feature : String) (holder value : Nat)
  | checkFeature (feature : String) (holder value : Nat)
  | checkUnequal (left right : Nat)
  | checkEqual (left right : Nat)
  | extendEqual (source target : Nat)
  | checkConstant (slot : Nat) (value : Value)
  | extendConstant (slot : Nat) (value : Value)
  | checkCall (callee : Reference) (frame : CallFrame)
  | checkNoCall (callee : Reference) (frame : CallFrame)
  /-- `bind` tells whether the result is unbound before; so for those below -/
  | count (callee : Reference) (frame : CallFrame) (result : Nat) (bind : Bool)
  | aggregate (callee : Reference) (frame : CallFrame) (operator : Aggregator) (aggregated : Nat)
      (result : Nat) (bind : Bool)
  | check (evaluator : Evaluator) (inputs : List Nat)
  | eval (evaluator : Evaluator) (inputs : List Nat) (output : Nat) (bind : Bool)
  | checkClosure (callee : Reference) (source target : Nat)

namespace Operation

def produced : Operation → List Nat
  | iterateInstances _ slot | extendConstant slot _ => [slot]
  | extendForward _ _ value => [value]
  | extendBackward _ holder _ => [holder]
  | iterateFeature _ _ holder value => [holder, value]
  | extendEqual _ target => [target]
  | count _ _ result bind | aggregate _ _ _ _ result bind | eval _ _ result bind =>
    if bind then [result] else []
  | _ => []

def isCheck (op : Operation) : Bool := op.produced.isEmpty

def slotText (slot : Nat) : String := "$" ++ toString slot

def text : Operation → String
  | iterateInstances cls slot => "iterate " ++ cls ++ "(" ++ slotText slot ++ ")"
  | checkInstance cls slot => "check " ++ cls ++ "(" ++ slotText slot ++ ")"
  | extendForward feature holder value =>
    "extend " ++ slotText holder ++ "." ++ feature ++ " -> " ++ slotText value
  | extendBackward feature holder value =>
    "extend " ++ slotText value ++ " <- " ++ feature ++ "." ++ slotText holder
  | iterateFeature cls feature holder value =>
    "iterate " ++ cls ++ "(" ++ slotText holder ++ ")." ++ feature ++ " -> " ++ slotText value
  | checkFeature feature holder value =>
    "check " ++ slotText holder ++ "." ++ feature ++ " == " ++ slotText value
  | checkUnequal left right => "check " ++ slotText left ++ " != " ++ slotText right
  | checkEqual left right => "check " ++ slotText left ++ " == " ++ slotText right
  | extendEqual source target => "extend " ++ slotText target ++ " := " ++ slotText source
  | checkConstant slot value => "check " ++ slotText slot ++ " == " ++ value.text
  | extendConstant slot value => "extend " ++ slotText slot ++ " := " ++ value.text
  | checkCall callee _ => "check find " ++ callee.text
  | checkNoCall callee _ => "check neg find " ++ callee.text
  | count callee _ result _ => slotText result ++ " := count find " ++ callee.text
  | aggregate callee _ operator _ result _ =>
    slotText result ++ " := " ++ operator.name ++ " find " ++ callee.text
  | check evaluator _ => "check " ++ evaluator.name
  | eval evaluator _ output _ => slotText output ++ " := eval " ++ evaluator.name
  | checkClosure callee source target =>
    "check " ++ slotText source ++ " " ++ callee.text ++ "+ " ++ slotText target

end Operation
end Motif
