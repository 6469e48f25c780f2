import Motif.Mask

set_option autoImplicit false
namespace Motif

inductive Fault where
  /-- a mask that names a column past its width -/
  | maskIndex (indices : List Nat) (width : Nat)
  | maskWidth (width : Nat) (tuple : Tuple)
  /-- default columns of another width than the columns they stand for -/
  | defaultsWidth (defaults : Tuple) (complement : Mask)
  | closureWidth
  | productionWidth
  /-- a column, slot, node or index that does not exist -/
  | outOfRange
  /-- a text cut within a character -/
  | splitCharacter
  /-- a computation that has no end, or goes deeper than any that has one -/
  | unsettled
  deriving DecidableEq

namespace Fault

def message? : Fault → Option String
  | maskIndex indices width =>
    some ("mask index out of range: " ++ listText (indices.map toString) ++ " over width " ++
      toString width)
  | maskWidth width tuple =>
    some ("mask over width " ++ toString width ++ " applied to tuple " ++ tuple.text)
  | defaultsWidth defaults complement =>
    some ("outer join defaults " ++ defaults.text ++ " do not cover complement " ++
      complement.text)
  | closureWidth => some "transitive closure over a non-binary node"
  | productionWidth => some "production body width mismatch"
  | outOfRange | splitCharacter | unsettled => none

end Fault

namespace Mask

def ofIndices (indices : List Nat) (width : Nat) : Except Fault Mask :=
  match ofIndices? indices width with
  | some m => .ok m
  | none => .error (.maskIndex indices width)

def project (m : Mask) (t : Tuple) : Except Fault Tuple :=
  match m.project? t with
  | some s => .ok s
  | none => .error (.maskWidth m.width t)

def combine (m : Mask) (base other : Tuple) : Except Fault Tuple :=
  (m.project other).map (base ++ ·)

end Mask

def Tuple.column (t : Tuple) (i : Nat) : Except Fault Value :=
  match t[i]? with
  | some v => .ok v
  | none => .error .outOfRange

end Motif
