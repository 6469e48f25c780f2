import Motif.Decimal.Shortest

set_option autoImplicit false
namespace Motif.Decimal

def fit : Nat → Decimal → Decimal
  | 0, d => d
  | fuel + 1, d =>
    if d.digits < UInt64.size then d else fit fuel ⟨d.digits / 10, d.exponent + 1⟩

def power (n : Nat) : Float := Float.ofScientific 1 false n

/-- The first 64 bits of digits, rounded to a float and then scaled by a power of ten: up or down by
as much as `10 ^ 308` in one step, and below that in two. Numbers above the floats have none. -/
def toFloat? (d : Decimal) : Option Float :=
  let d := d.fit (Nat.repr d.digits).length
  let leading := Float.ofNat d.digits
  if d.digits = 0 then some 0
  else if d.exponent < -616 then some 0
  else if d.exponent < -308 then some (leading / power 308 / power (-d.exponent - 308).toNat)
  else if d.exponent < 0 then some (leading / power (-d.exponent).toNat)
  else if 308 < d.exponent then none
  else
    let scaled := leading * power d.exponent.toNat
    if scaled.isInf then none else some scaled

/-- The least number that is nearer to `2 ^ 1024` than to the largest float, or as near. -/
def bound : Nat := (Nat.pow 2 54 - 1) * Nat.pow 2 970

def overflows (d : Decimal) : Bool :=
  let places := (Nat.repr d.digits).length + d.exponent
  d.digits ≠ 0 && (309 < places || (places = 309 &&
    bound * Nat.pow 10 (-d.exponent).toNat ≤ d.digits * Nat.pow 10 d.exponent.toNat))

end Motif.Decimal
