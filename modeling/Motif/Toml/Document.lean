import Motif.Toml.Scalar
import Motif.Toml.Tables

set_option autoImplicit false
namespace Motif.Toml

open Reader (char char? listing)
open Text (isControl)

def withoutGap (inComment : Bool) : List Char → List Char
  | [] => []
  | c :: rest =>
    if c = '\n' then withoutGap false rest
    else if inComment then if isControl c then c :: rest else withoutGap true rest
    else if c = '#' then withoutGap true rest
    else if c = ' ' ∨ c = '\t' then withoutGap false rest
    else c :: rest

def gap : Reader Unit := modify (withoutGap false)

def lineEnd : Reader Unit := do
  blank
  if ← char? '#' then Reader.skipWhile fun c => !isControl c
  match ← Reader.peek? with
  | none | some '\n' => return
  | some _ => failure

def maxDepth : Nat := 79

def entry (value : Reader Document) : Reader (Path × Document) := do
  let path ← path maxDepth
  char '='
  blank
  return (path, ← value)

def value (limit : Nat) : Nat → Reader Document
  | 0 => scalar
  | depth + 1 => do
    if ← char? '[' then return .list (← listing true ']' gap (value limit depth) limit)
    if ← char? '\x7b' then
      let entries ← listing false '\x7d' blank (entry (value limit depth)) limit
      let fields : Fields ← entries.foldlM (fun fs e => fs.assign? e.1 e.2) []
      return .record (documents fields)
    scalar

/-- Headers and entries, at most `more` of them, added to tables; `header` is the last header. -/
def sections (limit : Nat) : Nat → Path → Fields → Reader Fields
  | 0, _, _ => failure
  | more + 1, header, fs => do
    gap
    if (← Reader.peek?).isNone then return fs
    if ← char? '[' then
      let several ← char? '['
      let path ← path maxDepth
      char ']'
      if several then char ']'
      lineEnd
      sections limit more path (← fs.open? several path)
    else
      let (path, d) ← entry (value limit maxDepth)
      lineEnd
      sections limit more header (← fs.assignIn? header path d)

def lineFeeds : List Char → List Char
  | [] => []
  | '\x0d' :: '\n' :: rest => '\n' :: lineFeeds rest
  | c :: rest => c :: lineFeeds rest

def withoutMark : List Char → List Char
  | '\ufeff' :: rest => rest
  | cs => cs

/-- The record that a text stands for; `none` if it is not well formed. -/
def read? (text : String) : Option Document :=
  let cs := lineFeeds (withoutMark text.toList)
  let limit := cs.length + 1
  ((sections limit limit [] []).all? cs).map fun fs => .record (documents fs)

end Motif.Toml
