import Motif.Decimal.Shortest

/-!
Values held by the columns of a tuple: references to objects of a graph, attribute values, and
`null`. Two values are equal when they are of one kind and equal in it; floats are equal when their
bits are. The order puts kinds first and is linear.
-/
set_option autoImplicit false
namespace Motif

inductive Kind where
  | null | bool | int64 | float64 | string | object
  deriving DecidableEq, Repr

namespace Kind

def name : Kind → String
  | null => "null"
  | bool => "bool"
  | int64 => "int64"
  | float64 => "float64"
  | string => "string"
  | object => "object"

def all : List Kind := [null, bool, int64, float64, string, object]

def ofName? (s : String) : Option Kind := all.find? fun k => k.name == s

end Kind

/-- Floats are held as the bits of the 64-bit format, so that every bit pattern is a value of its
own. -/
inductive Value where
  | null
  | bool (b : Bool)
  | int (n : Int64)
  | float (bits : UInt64)
  | string (s : String)
  | object (id : UInt64)
  deriving DecidableEq, Repr, Inhabited

/-- Position of a float in the IEEE total order: negative numbers count down from -1, positive
numbers up from 0. -/
def floatRank (bits : UInt64) : Int :=
  if signBit bits then Int64.maxValue.toInt - bits.toNat else bits.toNat

def objectText (id : UInt64) : String := "#" ++ toString id.toNat

namespace Value

def kind : Value → Kind
  | null => .null
  | bool _ => .bool
  | int _ => .int64
  | float _ => .float64
  | string _ => .string
  | object _ => .object

def ofFloat (f : Float) : Value := float f.toBits

def ofNat (n : Nat) : Value := int (Int64.ofNat n)

def ofInt? (n : Int) : Option Value :=
  if Int64.minValue.toInt ≤ n ∧ n ≤ Int64.maxValue.toInt then some (int (Int64.ofInt n)) else none

def floatBits? : Value → Option UInt64
  | int n => some n.toFloat.toBits
  | float bits => some bits
  | _ => none

def toFloat? (v : Value) : Option Float := v.floatBits?.map Float.ofBits

def isTruthy (v : Value) : Bool := v == bool true

def text : Value → String
  | null => "null"
  | bool true => "true"
  | bool false => "false"
  | int n => toString n.toInt
  | float bits => floatText bits
  | string s => "\"" ++ s ++ "\""
  | object id => objectText id

/-- Kinds come first, in the order null, bool, int64, float64, string, object; inside a kind the
natural order, for floats the IEEE total order. -/
def cmp : Value → Value → Ordering
  | null, null => .eq
  | null, _ => .lt
  | _, null => .gt
  | bool a, bool b => compare a b
  | bool _, _ => .lt
  | _, bool _ => .gt
  | int a, int b => compare a.toInt b.toInt
  | int _, _ => .lt
  | _, int _ => .gt
  | float a, float b => compare (floatRank a) (floatRank b)
  | float _, _ => .lt
  | _, float _ => .gt
  | string a, string b => compare a b
  | string _, _ => .lt
  | _, string _ => .gt
  | object a, object b => compare a.toNat b.toNat

instance : Ord Value := ⟨cmp⟩

end Value

/-- The columns of one row. Rows are ordered lexicographically, a proper beginning first. -/
abbrev Tuple := List Value

namespace Tuple

def arity (t : Tuple) : Nat := t.length

def project (t : Tuple) (indices : List Nat) : Tuple := indices.filterMap fun i => t[i]?

def text (t : Tuple) : String := "(" ++ ", ".intercalate (t.map Value.text) ++ ")"

end Tuple

end Motif
