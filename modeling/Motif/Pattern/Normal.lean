import Motif.Pattern.Body
import Motif.Table

/-!
Bodies without equalities. Variables that equality constraints relate are merged into one, a
parameter if there is one among them, and the smallest by name among equals. Equalities that have
become trivial go, and of equal constraints the first stays.
-/
set_option autoImplicit false
namespace Motif

/-- Links from variables to others that they are merged with. A variable without a link stands for
itself and for all whose links lead to it. -/
abbrev Merging := Table Variable Variable

namespace Merging

def find (m : Merging) : Nat → Variable → Option Variable
  | 0, _ => none
  | turns + 1, x =>
    match m.get? x with
    | none => some x
    | some next => if next = x then some x else m.find turns next

/-- The variable that stands for `x`. There is a turn for each link, and one to see that there is none. -/
def rep (m : Merging) (x : Variable) : Variable := (m.find (m.size + 1) x).getD x

def prefers (parameters : List Variable) (a b : Variable) : Bool :=
  if (parameters.contains a) = (parameters.contains b) then (compare a b).isLE
  else parameters.contains a

def merge (parameters : List Variable) (m : Merging) (x y : Variable) : Merging :=
  let a := m.rep x
  let b := m.rep y
  if a = b then m
  else if prefers parameters a b then m.set b a
  else m.set a b

def addConstraint (parameters : List Variable) (m : Merging) : Constraint → Merging
  | .equal l r => merge parameters m l r
  | _ => m

def ofConstraints (parameters : List Variable) (cs : List Constraint) : Merging :=
  cs.foldl (addConstraint parameters) .empty

end Merging

def Constraint.isTrivial : Constraint → Bool
  | .equal l r => l = r
  | _ => false

namespace Body

def merging (b : Body) : Merging := .ofConstraints b.parameters b.constraints

def normalize (b : Body) : Body where
  parameters := b.parameters.map b.merging.rep
  constraints :=
    ((b.constraints.map (Constraint.rename b.merging.rep)).filter fun c => !c.isTrivial).eraseDups

end Body
end Motif
