import Motif.Decimal.Shortest
import Motif.Text.Reader

set_option autoImplicit false
namespace Motif.Text

open Reader (accept? char?)

def digit? (base : Nat) (c : Char) : Option Nat :=
  let d :=
    if c.isDigit then c.toNat - '0'.toNat
    else if 'a' ≤ c ∧ c ≤ 'f' then 10 + (c.toNat - 'a'.toNat)
    else if 'A' ≤ c ∧ c ≤ 'F' then 10 + (c.toNat - 'A'.toNat)
    else base
  if d < base then some d else none

def isDigit (base : Nat) (c : Char) : Bool := (digit? base c).isSome

/-- The number that digits write; `none` if one of them is no digit of the base. -/
def natural? (base : Nat) (cs : List Char) : Option Nat :=
  cs.foldlM (fun n c => (digit? base c).map (n * base + ·)) 0

def charOf? (code : Nat) : Option Char := if code.isValidChar then some (Char.ofNat code) else none

def digits : Reader (List Char) := Reader.takeSome (isDigit 10)

def sign : Reader Bool := do return (← accept? fun c => c == '+' || c == '-') == some '-'

def fraction (digits : Reader (List Char)) : Reader (Option (List Char)) := do
  if ← char? '.' then some <$> digits else return none

def exponent (digits : Reader (List Char)) : Reader (Option Int) := do
  match ← accept? fun c => c == 'e' || c == 'E' with
  | none => return none
  | some _ =>
    let negative ← sign
    let n ← natural? 10 (← digits)
    return some (if negative then -n else n)

def decimal? (whole fraction : List Char) (exponent : Int) : Option Decimal := do
  return ⟨← natural? 10 (whole ++ fraction), exponent - fraction.length⟩

end Motif.Text
