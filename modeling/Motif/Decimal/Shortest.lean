/-!
Decimal text of positive binary numbers: the fewest digits that read back to the same number,
written positionally.
-/
set_option autoImplicit false
namespace Motif

structure Decimal where
  digits : Nat
  exponent : Int
  deriving DecidableEq, Repr

namespace Decimal

def strip : Nat → Decimal → Decimal
  | 0, d => d
  | fuel + 1, d =>
    if d.digits ≠ 0 ∧ d.digits % 10 = 0 then strip fuel ⟨d.digits / 10, d.exponent + 1⟩ else d

def zeros (n : Nat) : String := String.ofList (List.replicate n '0')

def text (d : Decimal) : String :=
  let shown := Nat.repr d.digits
  if 0 ≤ d.exponent then shown ++ zeros d.exponent.toNat
  else
    let places := (-d.exponent).toNat
    if places < shown.length then
      String.ofList (shown.toList.take (shown.length - places)) ++ "." ++
        String.ofList (shown.toList.drop (shown.length - places))
    else "0." ++ zeros (places - shown.length) ++ shown

end Decimal

/-- The positive binary number `mantissa * 2 ^ exponent` in a format where the next smaller number
is half as far away as the next larger one when `narrowBelow`. -/
structure Binary where
  mantissa : Nat
  exponent : Int
  narrowBelow : Bool
  deriving DecidableEq, Repr

namespace Binary

/-- Numerator, over `quarters.2`, of the unit in which the number and the middles of the gaps to its
neighbours are whole: a quarter of the last place. -/
def quarters (b : Binary) : Nat × Nat :=
  (Nat.pow 2 (b.exponent - 2).toNat, Nat.pow 2 (2 - b.exponent).toNat)

def value (b : Binary) : Nat := 4 * b.mantissa
def upper (b : Binary) : Nat := 4 * b.mantissa + 2
def lower (b : Binary) : Nat := 4 * b.mantissa - (if b.narrowBelow then 1 else 2)

def magnitude (b : Binary) : Int :=
  let num := b.value * b.quarters.1
  let den := b.quarters.2
  if den ≤ num then ((Nat.repr (num / den)).length : Int) - 1
  else -((Nat.repr ((den + num - 1) / num - 1)).length : Int)

/-- The neighbour of `b` among the decimals with an exponent that reads back as `b`, if one does. Of
two the nearer is taken, and the upper one when both are equally near. The ends of the interval that
reads back as `b` belong to it when the mantissa is even. -/
def onGrid (b : Binary) (exponent : Int) : Option Decimal :=
  let grid := Nat.pow 10 exponent.toNat * b.quarters.2
  let scale := b.quarters.1 * Nat.pow 10 (-exponent).toNat
  let below := b.value * scale / grid
  let readsBack (digits : Nat) : Bool :=
    if b.mantissa % 2 = 0 then
      b.lower * scale ≤ digits * grid && digits * grid ≤ b.upper * scale
    else b.lower * scale < digits * grid && digits * grid < b.upper * scale
  if readsBack below then
    if readsBack (below + 1) && grid ≤ 2 * (b.value * scale - below * grid) then
      some ⟨below + 1, exponent⟩
    else some ⟨below, exponent⟩
  else if readsBack (below + 1) then some ⟨below + 1, exponent⟩ else none

/-- One digit is tried first, then two, and so on. Seventeen are enough for every number of the 64-bit
format. -/
def shortest (b : Binary) : Decimal :=
  let first := b.magnitude
  let found := (List.range 17).findSome? fun (n : Nat) => b.onGrid (first - n)
  (found.getD ⟨b.mantissa * Nat.pow 2 b.exponent.toNat, 0⟩).strip 20

end Binary

inductive Magnitude where
  | zero
  | finite (number : Binary)
  | infinite
  | notANumber
  deriving DecidableEq, Repr

namespace Magnitude

def unit : Nat := Nat.pow 2 52

def ofBits (bits : UInt64) : Magnitude :=
  let fraction := bits.toNat % unit
  let exponent := bits.toNat / unit % 2048
  if exponent = 2047 then if fraction = 0 then .infinite else .notANumber
  else if exponent = 0 then if fraction = 0 then .zero else .finite ⟨fraction, -1074, false⟩
  else .finite ⟨fraction + unit, (exponent : Int) - 1075, fraction == 0 && 1 < exponent⟩

end Magnitude

def signBit (bits : UInt64) : Bool := UInt64.size ≤ 2 * bits.toNat

def floatText (bits : UInt64) : String :=
  let sign := if signBit bits then "-" else ""
  match Magnitude.ofBits bits with
  | .zero => sign ++ "0"
  | .finite number => sign ++ number.shortest.text
  | .infinite => sign ++ "inf"
  | .notANumber => "NaN"

end Motif
