import Motif.Value

/-!
Column selections. A mask names an ordered list of columns of the tuples of one width, with
repetitions allowed. It projects signatures out of whole tuples, and its complement says which
columns of the second side of a join are new.
-/
set_option autoImplicit false
namespace Motif

section positions
variable {α : Type}

def numbered (l : List α) : List (Fin l.length × α) := (List.finRange l.length).zip l

variable [DecidableEq α]

/-- The positions in `l` that hold `a`, in ascending order. -/
def positionsOf (l : List α) (a : α) : List (Fin l.length) :=
  ((numbered l).filter fun p => p.2 = a).map Prod.fst

/-- The positions that hold an item for the first time. -/
def firstPositions (l : List α) : List (Fin l.length) :=
  ((numbered l).filter fun p => (positionsOf l p.2).head? = some p.1).map Prod.fst

/-- For every item that occurs more than once its positions, in the order of second occurrences. -/
def repeatedPositions (l : List α) : List (List (Fin l.length)) :=
  ((numbered l).map fun p => (p.1, positionsOf l p.2)).filterMap fun p =>
    if p.2[1]? = some p.1 then some p.2 else none

end positions

def listText (l : List String) : String := "[" ++ ", ".intercalate l ++ "]"

structure Mask where
  indices : List Nat
  width : Nat
  indices_lt : ∀ i ∈ indices, i < width
  deriving DecidableEq

namespace Mask

def ofIndices? (indices : List Nat) (width : Nat) : Option Mask :=
  if h : ∀ i ∈ indices, i < width then some ⟨indices, width, h⟩ else none

theorem val_lt {width : Nat} {indices : List (Fin width)} {i : Nat}
    (h : i ∈ indices.map Fin.val) : i < width :=
  match List.mem_map.1 h with
  | ⟨j, _, e⟩ => e ▸ j.isLt

def ofFins {width : Nat} (indices : List (Fin width)) : Mask :=
  ⟨indices.map Fin.val, width, fun _ => val_lt⟩

def identity (width : Nat) : Mask := ⟨List.range width, width, fun _ => List.mem_range.1⟩

def empty (width : Nat) : Mask := @ofFins width []

def first (count width : Nat) (h : count ≤ width) : Mask :=
  ⟨List.range count, width, fun _ hi => Nat.lt_of_lt_of_le (List.mem_range.1 hi) h⟩

def arity (m : Mask) : Nat := m.indices.length

def isIdentity (m : Mask) : Bool := m.indices == List.range m.width

def project? (m : Mask) (t : Tuple) : Option Tuple :=
  if t.length = m.width then some (Tuple.project t m.indices) else none

/-- The columns the mask leaves out, in order. -/
def complement (m : Mask) : Mask :=
  ⟨(List.range m.width).filter fun i => i ∉ m.indices, m.width, fun _ h => List.mem_range.1 (List.mem_filter.1 h).1⟩

/-- Appends to `base` what `m` selects of `other`. -/
def combine? (m : Mask) (base other : Tuple) : Option Tuple := (m.project? other).map (base ++ ·)

/-- For every column selected more than once, the positions in the mask that select it. -/
def repeatedPositions (m : Mask) : List (List Nat) :=
  (Motif.repeatedPositions m.indices).map fun group => group.map Fin.val

def nullTuple (m : Mask) : Tuple := List.replicate m.arity .null

def text (m : Mask) : String :=
  "[" ++ ",".intercalate (m.indices.map toString) ++ "]/" ++ toString m.width

end Mask
end Motif
