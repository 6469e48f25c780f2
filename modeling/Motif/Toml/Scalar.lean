import Motif.Document
import Motif.Toml.Text

set_option autoImplicit false
namespace Motif.Toml

open Reader (accept? char char? word?)
open Text (natural? isDigit)

/-- Digits without the underscores between them; `after` tells whether a digit comes before. -/
def ungroup? (after : Bool) : List Char → Option (List Char)
  | [] => if after then some [] else none
  | '_' :: rest => if after then ungroup? false rest else none
  | c :: rest => (ungroup? true rest).map (c :: ·)

def digits (base : Nat) : Reader (List Char) := do
  ungroup? false (← Reader.takeWhile fun c => isDigit base c || c == '_')

def integer? (n : Int) : Option Document :=
  if Int64.minValue.toInt ≤ n ∧ n ≤ Int64.maxValue.toInt then some (.int n) else none

def based (start : String) (base : Nat) : Reader Document := do
  Reader.word start
  integer? (← natural? base (← digits base))

/-- A number in base ten. Its digits start with no zero but that of a single digit. -/
def decimal : Reader Document := do
  let negative ← Text.sign
  if ← word? "inf" then return .infinite negative
  if ← word? "nan" then return .notANumber
  let whole ← digits 10
  if whole.head? = some '0' ∧ whole.length ≠ 1 then failure
  let fraction ← Text.fraction (digits 10)
  let exponent ← Text.exponent (digits 10)
  if fraction.isNone ∧ exponent.isNone then
    let n : Int := ← natural? 10 whole
    integer? (if negative then -n else n)
  else
    let d ← Text.decimal? whole (fraction.getD []) (exponent.getD 0)
    if !d.overflows then return .decimal negative d
    if negative then return .infinite true
    failure

def fixed (count low high : Nat) : Reader Nat := do
  let n ← natural? 10 (← Reader.take count)
  if n < low ∨ high < n then failure
  return n

def isLeap (year : Nat) : Bool := year % 4 = 0 && (year % 100 ≠ 0 || year % 400 = 0)

def daysOf (year month : Nat) : Nat :=
  if month = 2 then if isLeap year then 29 else 28
  else if month ∈ [4, 6, 9, 11] then 30
  else 31

def date : Reader Unit := do
  let year ← fixed 4 0 9999
  char '-'
  let month ← fixed 2 1 12
  char '-'
  let _ ← fixed 2 1 (daysOf year month)

def hourAndMinute : Reader Unit := do
  let _ ← fixed 2 0 23
  char ':'
  let _ ← fixed 2 0 59

def time : Reader Unit := do
  hourAndMinute
  char ':'
  let _ ← fixed 2 0 60
  if ← char? '.' then
    let _ ← Text.digits

def offset : Reader Unit := do
  match ← accept? fun c => c ∈ ['Z', 'z', '+', '-'] with
  | some '+' | some '-' => hourAndMinute
  | some _ => return
  | none => failure

def moment : Reader Document := do
  let behind : Reader Unit := do
    let _ ← Reader.next
    time
    let _ ← optional offset
  let both : Reader Unit := do
    date
    match ← Reader.peek? with
    | some 'T' | some 't' | some ' ' => let _ ← optional behind
    | _ => return
  let cs ← Reader.taken (both <|> time)
  return .record [("date", .text (String.ofList cs))]

def scalar : Reader Document := do
  match ← Reader.peek? with
  | some '"' | some '\'' => return .text (← string)
  | some 't' => Reader.word "true"; return .bool true
  | some 'f' => Reader.word "false"; return .bool false
  | _ => moment <|> based "0x" 16 <|> based "0o" 8 <|> based "0b" 2 <|> decimal

end Motif.Toml
