import Motif.Text.Digits

set_option autoImplicit false
namespace Motif.Text

def isControl (c : Char) : Bool := (c < ' ' && c != '\t') || c == '\x7f'

/-- The characters before `mark`; the mark itself is taken, too. Where there are escapes, the
character behind a backslash is no part of the mark. -/
def upTo (mark : List Char) (escapes : Bool) : Reader (List Char) := go false
where
  go (escaped : Bool) : List Char → Option (List Char × List Char)
    | [] => none
    | c :: rest =>
      if !escaped && mark.isPrefixOf (c :: rest) then some ([], (c :: rest).drop mark.length)
      else (go (escapes && !escaped && c == '\\') rest).map fun r => (c :: r.1, r.2)

def escape? : Char → Option Char
  | 'b' => some '\x08'
  | 't' => some '\t'
  | 'n' => some '\n'
  | 'f' => some '\x0c'
  | 'r' => some '\x0d'
  | '"' => some '"'
  | '\\' => some '\\'
  | _ => none

def unescape? (plain : Char → Bool) : List Char → Option (List Char)
  | [] => some []
  | '\\' :: 'u' :: a :: b :: c :: d :: rest => do
    return (← charOf? (← natural? 16 [a, b, c, d])) :: (← unescape? plain rest)
  | '\\' :: 'U' :: a :: b :: c :: d :: e :: f :: g :: h :: rest => do
    return (← charOf? (← natural? 16 [a, b, c, d, e, f, g, h])) :: (← unescape? plain rest)
  | ['\\'] => none
  | '\\' :: c :: rest => do return (← escape? c) :: (← unescape? plain rest)
  | c :: rest => do
    if !plain c then none
    return c :: (← unescape? plain rest)

def quotedChars : Reader (List Char) := do
  Reader.char '"'
  upTo ['"'] true

def quoted : Reader String := do
  return String.ofList (← unescape? (fun c => !isControl c) (← quotedChars))

end Motif.Text
