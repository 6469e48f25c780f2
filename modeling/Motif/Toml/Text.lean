import Motif.Text.Quoted

/-!
Texts and keys of the TOML format. Texts stand between double quotes, with escapes, or between
apostrophes, as they are; between three of either they may go over several lines. Lines end with a
line feed.
-/
set_option autoImplicit false
namespace Motif

abbrev Path := List String

namespace Toml

open Reader (char char? word?)
open Text (isControl)

def blank : Reader Unit := Reader.skipWhile fun c => c == ' ' || c == '\t'

def isBare (c : Char) : Bool := c.isAlphanum || c == '_' || c == '-'

/-- Takes out each backslash that ends a line, with the blanks and line ends behind it; `skipping`
tells whether one has just been taken out. -/
def joinLines (skipping : Bool) : List Char → List Char
  | [] => []
  | '\\' :: c :: rest =>
    let behind := (c :: rest).dropWhile fun c => c == ' ' || c == '\t'
    if behind.head? = some '\n' then joinLines true rest
    else '\\' :: c :: joinLines false rest
  | c :: rest =>
    if skipping && (c == ' ' || c == '\t' || c == '\n') then joinLines true rest
    else c :: joinLines false rest

/-- What comes before the closing three quotes. A line end right at the start is no part of it, and
up to two quotes more than three are. -/
def long (quote : Char) (escapes : Bool) : Reader (List Char) := do
  let _ ← char? '\n'
  let inner ← Text.upTo (List.replicate 3 quote) escapes
  let first ← char? quote
  let second ← if first then char? quote else pure false
  return inner ++ List.replicate (first.toNat + second.toNat) quote

def literal? (plain : Char → Bool) (cs : List Char) : Option (List Char) :=
  if cs.all plain then some cs else none

def line : Reader String := do
  if ← char? '\'' then
    let inner ← Text.upTo ['\''] false
    return String.ofList (← literal? (fun c => !isControl c) inner)
  Text.quoted

def string : Reader String := do
  let plain (c : Char) : Bool := c == '\n' || !isControl c
  if ← word? "\"\"\"" then
    return String.ofList (← Text.unescape? plain (joinLines false (← long '"' true)))
  if ← word? "'''" then return String.ofList (← literal? plain (← long '\'' false))
  line

def key : Reader String := do
  match ← Reader.peek? with
  | some '"' | some '\'' => line
  | _ => String.ofList <$> Reader.takeSome isBare

def path : Nat → Reader Path
  | 0 => failure
  | depth + 1 => do
    blank
    let k ← key
    blank
    if ← char? '.' then return k :: (← path depth)
    return [k]

end Toml
end Motif
