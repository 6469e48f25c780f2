import Motif.Aggregator
import Motif.Evaluator

set_option autoImplicit false
namespace Motif
namespace Evaluator

def onFirst (f : Value → Except String Value) : List Value → Except String Value
  | [] => .error "no input"
  | v :: _ => f v

def onInt (otherwise : String) (f : Int64 → Except String Value) :
    List Value → Except String Value :=
  onFirst fun v =>
    match v with
    | .int n => f n
    | _ => .error otherwise

def double (n : Int64) : Except String Value :=
  match Value.ofInt? (2 * n.toInt) with
  | some v => .ok v
  | none => .error "overflow"

def half (v : Value) : Except String Value :=
  match v.toFloat? with
  | some f => .ok (.ofFloat (f * 0.5))
  | none => .error "not numeric"

def inverse (n : Int64) : Except String Value :=
  if n = 0 then .error "division by zero" else .ok (.ofFloat (1 / n.toFloat))

def positive : Value → Value
  | .int n => .bool (0 < n)
  | .float bits => .bool (0 < Float.ofBits bits)
  | _ => .int 0

def add (vs : List Value) : Except String Value := do
  let sum ← vs.foldlM (fun (sum : Int64) v =>
    match v with
    | .int n => Except.ok (sum + n)
    | _ => .error ("not an integer: " ++ v.text)) 0
  return .int sum

def pred (n : Int64) : Except String Value :=
  if 0 < n then .ok (.int (n - 1)) else .error "exhausted"

def negate : Value → Except String Value
  | .bool b => .ok (.bool !b)
  | _ => .error "expected a boolean"

def length : Value → Except String Value
  | .string s => .ok (.ofNat s.length)
  | _ => .error "expected a string"

def less : List Value → Except String Value
  | [a, b] => .ok (.bool (compare a b = .lt))
  | _ => .error "two inputs expected"

def stock : List Evaluator := [
  ⟨"id", onFirst .ok⟩,
  ⟨"null", fun _ => .ok .null⟩,
  ⟨"true", fun _ => .ok (.bool true)⟩,
  ⟨"one", fun _ => .ok (.int 1)⟩,
  ⟨"fail", fun _ => .error "always fails"⟩,
  ⟨"kind", onFirst fun v => .ok (.string v.kind.name)⟩,
  ⟨"show", fun vs => .ok (.string ("|".intercalate (vs.map Value.text)))⟩,
  ⟨"double", onInt "expected an integer" double⟩,
  ⟨"half", onFirst half⟩,
  ⟨"inverse", onInt "not an integer" inverse⟩,
  ⟨"positive", onFirst fun v => .ok (positive v)⟩,
  ⟨"add", add⟩,
  ⟨"dec", onInt "exhausted" pred⟩,
  ⟨"not", onFirst negate⟩,
  ⟨"length", onFirst length⟩,
  ⟨"less", less⟩]

def named? (name : String) : Option Evaluator := stock.find? fun e => e.name = name

end Evaluator

namespace Aggregator

def ints (vs : List Value) : List Int64 :=
  vs.filterMap fun v =>
    match v with
    | .int n => some n
    | _ => none

def product : Aggregator where
  name := "product"
  fold vs := some (.int ((ints vs).foldl (· * ·) 1))
  neutral := some (.int 1)

/-- The greatest integer less the smallest. -/
def span : Aggregator where
  name := "span"
  fold vs :=
    match ints vs with
    | [] => none
    | n :: ns => some (.int (ns.foldl Max.max n - ns.foldl Min.min n))
  neutral := none

def never : Aggregator := ⟨"none", fun _ => none, some .null⟩

def named? (name : String) : Option Aggregator :=
  (builtin ++ [product, span, never]).find? fun op => op.name = name

end Aggregator
end Motif
