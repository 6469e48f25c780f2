import Motif.Value

set_option autoImplicit false
namespace Motif

/-- `fold` is given one value for every occurrence of a tuple in the group; when it gives none, the
group has no row. `neutral` stands in for a group without tuples. -/
structure Aggregator where
  name : String
  fold : List Value → Option Value
  neutral : Option Value

namespace Aggregator

def count : Aggregator := ⟨"count", fun vs => some (.ofNat vs.length), some (.int 0)⟩

structure Sums where
  ints : Int64 := 0
  floats : Float := 0
  isFloat : Bool := false

def Sums.add (s : Sums) : Value → Sums
  | .int n => { s with ints := s.ints + n, floats := s.floats + n.toFloat }
  | .float bits => { s with floats := s.floats + Float.ofBits bits, isFloat := true }
  | _ => s

def sum : Aggregator where
  name := "sum"
  fold vs :=
    let s := vs.foldl Sums.add {}
    some (if s.isFloat then .ofFloat s.floats else .int s.ints)
  neutral := some (.int 0)

def reduce (better : Value → Value → Value) : List Value → Option Value
  | [] => none
  | v :: rest => some (rest.foldl better v)

def least : List Value → Option Value := reduce fun b v => if compare b v = .gt then v else b

/-- The last of the greatest values. -/
def greatest : List Value → Option Value := reduce fun b v => if compare b v = .gt then b else v

def min : Aggregator := ⟨"min", least, none⟩

def max : Aggregator := ⟨"max", greatest, none⟩

def builtin : List Aggregator := [count, sum, min, max]

end Aggregator
end Motif
