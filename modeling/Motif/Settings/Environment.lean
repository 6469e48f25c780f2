import Motif.Document
import Motif.Fault
import Motif.Text.Characters
import Motif.Text.Quoted

set_option autoImplicit false
namespace Motif.Environment

open Reader (char char? word? listing)
open Text (natural? digits isDigit isControl)

/-- A reader that may also break off for good. -/
abbrev StrictReader (α : Type) := StateT (List Char) (OptionT (Except Fault)) α

instance : MonadLift Reader StrictReader := ⟨fun r cs => OptionT.mk (.ok (r cs))⟩

def isBlank (c : Char) : Bool := c == ' ' || c == '\t' || c == '\n' || c == '\x0c' || c == '\x0d'

def blank : Reader Unit := Reader.skipWhile isBlank

def isSeparator (c : Char) : Bool := c ∈ [',', '[', ']', '\x7b', '\x7d']

def decimal : Reader Document := do
  let negative ← Text.sign
  let whole ← Reader.takeWhile (isDigit 10)
  char '.'
  let fraction ← Reader.takeWhile (isDigit 10)
  if whole.isEmpty && fraction.isEmpty then failure
  let exponent ← Text.exponent digits
  return .decimal negative (← Text.decimal? whole fraction (exponent.getD 0))

def integer : Reader Document := do
  let negative ← Text.sign
  let n : Int := ← natural? 10 (← digits)
  let n := if negative then -n else n
  if Int64.minValue.toInt ≤ n ∧ n < UInt64.size then return .int n
  failure

def ofWord (cs : List Char) : Document :=
  ((decimal <|> integer).all? cs).getD (.text (String.ofList cs))

/-- The characters that fill as many bytes as there are characters. -/
def shortened (cs : List Char) : Except Fault (List Char) :=
  match Text.firstBytes? cs.length cs with
  | some front => .ok front
  | none => .error .splitCharacter

def unescape (cs : List Char) : OptionT (Except Fault) (List Char) := do
  let (front, rest) := cs.span (· != '\\')
  if front.any isControl then failure
  if rest.isEmpty then return front
  let kept ← shortened front
  match Text.unescape? (fun c => !isControl c) rest with
  | some behind => return kept ++ behind
  | none => failure

def quoted : StrictReader String := do
  return String.ofList (← unescape (← Text.quotedChars))

def bareKey : Reader String :=
  String.ofList <$> Reader.takeSome fun c => c.isAlphanum || c == '_' || c == '-'

def key : StrictReader String := do
  if (← Reader.peek?) = some '"' then quoted else bareKey

def field (value : StrictReader Document) : StrictReader (String × Document) := do
  blank
  let name ← key
  blank
  char '='
  return (name, ← value)

/-- A value without the blanks around it, from readers of what it may hold. A boolean word counts as
such whatever is behind it. -/
def bare (items : StrictReader (List Document))
    (fields : StrictReader (List (String × Document))) : StrictReader Document := do
  if ← word? "true" then return .bool true
  if ← word? "false" then return .bool false
  if ← char? '[' then return .list (← items)
  if ← char? '\x7b' then return .ofFields (← fields)
  if ← char? '\'' then
    let c ← Reader.next
    char '\''
    return .text c.toString
  if (← Reader.peek?) = some '"' then return .text (← quoted)
  return ofWord (Text.trim (← Reader.takeWhile fun c => !isSeparator c))

def value (limit : Nat) : Nat → StrictReader Document
  | 0 => failure
  | depth + 1 => do
    let inner := value limit depth
    blank
    let d ← bare (listing true ']' (pure ()) inner limit)
      (listing true '\x7d' (pure ()) (field inner) limit)
    blank
    return d

def valueOf (text : String) : Except Fault Document := do
  let cs := text.toList
  return match ← (value (cs.length + 1) (cs.length + 1)).run cs with
    | some (d, []) => d
    | _ => .text text

/-- Where a variable goes. Blanks around its name do not count, nor do those right behind `start`. Two
underscores and points divide the rest into a path, in which letters have no case; one with an empty
part goes nowhere. -/
def path? (start name : String) : Option (List String) := do
  let name := (String.ofList (Text.trim name.toList)).toLower
  if !name.startsWith start.toLower then none
  let rest := String.ofList (Text.trim (name.toList.drop start.length))
  let path := (rest.splitOn "__").flatMap fun part => part.splitOn "."
  if path.all (· ≠ "") then some path else none

def document (start : String) (vars : List (String × String)) : Except Fault Document :=
  (Table.ofList vars).entries.foldlM (fun d v =>
    match path? start v.1 with
    | some path => do return d.merge (path.foldr Document.tagged (← valueOf v.2))
    | none => .ok d) (.record [])

end Motif.Environment
