import Motif.Document
import Motif.Text.Quoted

/-!
The text form of documents: JSON. Numbers with a point or an exponent stay decimals, and so do those
that fit neither a signed nor an unsigned integer of 64 bits. Infinite numbers and what is no number
have no form of their own and are written as `null`.
-/
set_option autoImplicit false
namespace Motif.Json

open Reader (char char? word? listing)
open Text (natural? charOf? digits)

def blank : Reader Unit :=
  Reader.skipWhile fun c => c == ' ' || c == '\t' || c == '\n' || c == '\x0d'

def escape? : Char → Option Char
  | '/' => some '/'
  | c => Text.escape? c

/-- The 16-bit units and whole characters that stand between quotes, as numbers. -/
def units? : List Char → Option (List Nat)
  | [] => some []
  | '\\' :: 'u' :: a :: b :: c :: d :: rest => do
    return (← natural? 16 [a, b, c, d]) :: (← units? rest)
  | ['\\'] => none
  | '\\' :: c :: rest => do return (← escape? c).toNat :: (← units? rest)
  | c :: rest => do
    if c < ' ' then none
    return c.toNat :: (← units? rest)

def characters? : Option Nat → List Nat → Option (List Char)
  | none, [] => some []
  | some _, [] => none
  | none, n :: rest =>
    if 0xd800 ≤ n ∧ n < 0xdc00 then characters? (some (n - 0xd800)) rest
    else do return (← charOf? n) :: (← characters? none rest)
  | some high, n :: rest => do
    if n < 0xdc00 ∨ 0xe000 ≤ n then none
    return (← charOf? (0x10000 + high * 0x400 + (n - 0xdc00))) :: (← characters? none rest)

def string : Reader String := do
  char '"'
  let inner ← Text.upTo ['"'] true
  return String.ofList (← characters? none (← units? inner))

def number : Reader Document := do
  let negative ← char? '-'
  let whole ← digits
  if whole.head? = some '0' ∧ whole.length ≠ 1 then failure
  let fraction ← Text.fraction digits
  let exponent ← Text.exponent digits
  let size ← natural? 10 whole
  let n : Int := if negative then -size else size
  if fraction.isNone ∧ exponent.isNone ∧ Int64.minValue.toInt ≤ n ∧ n < UInt64.size ∧
      (n = 0 → negative = false) then
    return .int n
  let d ← Text.decimal? whole (fraction.getD []) (exponent.getD 0)
  if d.toFloat?.isNone then failure
  return .decimal negative d

def scalar : Reader Document := do
  if ← word? "null" then return .null
  if ← word? "true" then return .bool true
  if ← word? "false" then return .bool false
  if (← Reader.peek?) = some '"' then return .text (← string)
  number

def field (value : Reader Document) : Reader (String × Document) := do
  let name ← string
  blank
  char ':'
  blank
  return (name, ← value)

/-- A value with at most `limit` items in a list. Lists and records nest at most `depth` deep. -/
def value (limit : Nat) : Nat → Reader Document
  | 0 => scalar
  | depth + 1 => do
    if ← char? '[' then return .list (← listing false ']' blank (value limit depth) limit)
    if ← char? '\x7b' then
      return .ofFields (← listing false '\x7d' blank (field (value limit depth)) limit)
    scalar

def maxDepth : Nat := 127

def read? (text : String) : Option Document :=
  let cs := text.toList
  let whole : Reader Document := do
    blank
    let d ← value (cs.length + 1) maxDepth
    blank
    return d
  whole.all? cs

def escaped (c : Char) : List Char :=
  if c = '"' ∨ c = '\\' then ['\\', c]
  else if c < ' ' then
    ['\\', 'u', '0', '0', Nat.digitChar (c.toNat / 16), Nat.digitChar (c.toNat % 16)]
  else [c]

def writeText (s : String) : String := "\"" ++ String.ofList (s.toList.flatMap escaped) ++ "\""

mutual

def write : Document → String
  | .null | .infinite _ | .notANumber => "null"
  | .bool b => if b then "true" else "false"
  | .int n => toString n
  | .decimal negative d =>
    (if negative then "-" else "") ++ toString d.digits ++ "e" ++ toString d.exponent
  | .text s => writeText s
  | .list items => "[" ++ ",".intercalate (writeItems [] items) ++ "]"
  | .record fields => "\x7b" ++ ",".intercalate (writeFields [] fields) ++ "\x7d"

def writeItems (before : List String) : List Document → List String
  | [] => before.reverse
  | d :: rest => writeItems (write d :: before) rest

def writeFields (before : List String) : List (String × Document) → List String
  | [] => before.reverse
  | (name, d) :: rest => writeFields ((writeText name ++ ":" ++ write d) :: before) rest

end

end Motif.Json
