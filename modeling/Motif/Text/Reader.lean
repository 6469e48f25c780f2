set_option autoImplicit false
namespace Motif

abbrev Reader (α : Type) := StateT (List Char) Option α

namespace Reader
variable {α : Type}

def next : Reader Char
  | [] => none
  | c :: rest => some (c, rest)

def peek? : Reader (Option Char) := fun cs => some (cs.head?, cs)

def accept? (p : Char → Bool) : Reader (Option Char)
  | [] => some (none, [])
  | c :: rest => if p c then some (some c, rest) else some (none, c :: rest)

def char? (c : Char) : Reader Bool := Option.isSome <$> accept? (· == c)

def char (c : Char) : Reader Unit := do
  if !(← char? c) then failure

def word (w : String) : Reader Unit := w.toList.forM char

def word? (w : String) : Reader Bool := Option.isSome <$> optional (word w)

def takeWhile (p : Char → Bool) : Reader (List Char) := fun cs => some (cs.span p)

def skipWhile (p : Char → Bool) : Reader Unit := fun cs => some ((), cs.dropWhile p)

def takeSome (p : Char → Bool) : Reader (List Char) := do
  let cs ← takeWhile p
  if cs.isEmpty then failure
  return cs

def take (count : Nat) : Reader (List Char) := fun cs =>
  let front := cs.take count
  if front.length = count then some (front, cs.drop count) else none

def taken (r : Reader α) : Reader (List Char) := do
  let before ← get
  let _ ← r
  return before.take (before.length - (← get).length)

/-- Items divided by commas up to `close`, at most `limit` of them, with `gap` before and behind
each. Whether a comma may also come last is for `trailing` to say. Reading an item may have other
effects, too. -/
@[specialize] def listing {m : Type → Type} [Monad m] [MonadLiftT Reader m]
    (trailing : Bool) (close : Char) (gap : Reader Unit) (item : m α) : Nat → m (List α)
  | 0 => liftM (failure : Reader (List α))
  | limit + 1 => do
    gap
    if ← char? close then return []
    let a ← item
    gap
    if ← char? ',' then
      let rest ← listing trailing close gap item limit
      if rest.isEmpty && !trailing then liftM (failure : Reader Unit)
      return a :: rest
    char close
    return [a]

def all? (r : Reader α) (cs : List Char) : Option α :=
  match r cs with
  | some (a, []) => some a
  | _ => none

end Reader
end Motif
