import Motif.Decimal.Float
import Motif.Table
import Motif.Value

set_option autoImplicit false
namespace Motif

inductive Document where
  | null
  | bool (b : Bool)
  | int (n : Int)
  /-- a number written with a point or an exponent, without its sign -/
  | decimal (negative : Bool) (number : Decimal)
  | infinite (negative : Bool)
  | notANumber
  | text (s : String)
  | list (items : List Document)
  | record (fields : List (String × Document))
  deriving Repr, Inhabited

namespace Document

def strings (l : List String) : Document := list (l.map text)

def ofOption {α : Type} (f : α → Document) : Option α → Document
  | none => null
  | some a => f a

def ofFields (fields : List (String × Document)) : Document := record (Table.ofList fields).entries

def tagged (tag : String) (content : Document) : Document := record [(tag, content)]

def isNull : Document → Bool
  | null => true
  | _ => false

def string? : Document → Option String
  | text s => some s
  | _ => none

def bool? : Document → Option Bool
  | bool b => some b
  | _ => none

def int? : Document → Option Int
  | int n => some n
  | _ => none

def nat? (d : Document) : Option Nat := do
  let n ← d.int?
  if 0 ≤ n then some n.toNat else none

def items? : Document → Option (List Document)
  | list items => some items
  | _ => none

def listOf? {α : Type} (f : Document → Option α) (d : Document) : Option (List α) := do
  (← d.items?).mapM f

def strings? : Document → Option (List String) := listOf? string?

def field? (d : Document) (name : String) : Option Document :=
  match d with
  | record fields => (fields.find? fun f => f.1 = name).map Prod.snd
  | _ => none

/-- The fields of a record by name; `none` for one that is missing. -/
def fields? (names : List String) (d : Document) : Option (List (Option Document)) :=
  match d with
  | record _ => some (names.map d.field?)
  | _ => none

/-- As `fields?`, also from a list of all fields in their order. -/
def members? (names : List String) (d : Document) : Option (List (Option Document)) :=
  match d with
  | list items => if items.length = names.length then some (items.map some) else none
  | _ => d.fields? names

def leading? (names : List String) (d : Document) : Option (List (Option Document)) :=
  match d with
  | list items => some (names.zipIdx.map fun n => items[n.2]?)
  | _ => d.fields? names

def required? {α : Type} (f : Document → Option α) (field : Option Document) : Option α :=
  field.bind f

def optional? {α : Type} (f : Document → Option α) : Option Document → Option (Option α)
  | none | some null => some none
  | some d => (f d).map some

def fieldOr? {α : Type} (f : Document → Option α) (missing : α) : Option Document → Option α
  | none => some missing
  | some d => f d

/-- Tag and content of an alternative. A bare text is a tag without content. -/
def alternative? : Document → Option (String × Document)
  | text tag => some (tag, null)
  | record [(tag, content)] => some (tag, content)
  | _ => none

def tag? (empty : Document → Bool) : Document → Option String
  | text tag => some tag
  | record [(tag, content)] => if empty content then some tag else none
  | _ => none

mutual

/-- The document with another one laid over it: records field by field, and anything else in place of what
was there. -/
def merge (below : Document) : Document → Document
  | record fields =>
    match below with
    | record under => record (mergeFields under fields)
    | _ => record fields
  | d => d

def mergeFields (below : List (String × Document)) :
    List (String × Document) → List (String × Document)
  | [] => below
  | (name, d) :: rest =>
    let merged := match (record below).field? name with
      | some under => merge under d
      | none => d
    mergeFields (Table.setIn name merged below) rest

end

end Document

namespace Value

def floatDocument (bits : UInt64) : Document :=
  match Magnitude.ofBits bits with
  | .zero => .decimal (signBit bits) ⟨0, 0⟩
  | .finite number => .decimal (signBit bits) number.shortest
  | .infinite => .infinite (signBit bits)
  | .notANumber => .notANumber

def toDocument : Value → Document
  | null => .text "Null"
  | bool b => .tagged "Bool" (.bool b)
  | int n => .tagged "Int64" (.int n.toInt)
  | float bits => .tagged "Float64" (floatDocument bits)
  | string s => .tagged "String" (.text s)
  | object id => .tagged "Object" (.int id.toNat)

def float? : Document → Option Float
  | .int n => some (if n < 0 then -Float.ofNat n.natAbs else Float.ofNat n.natAbs)
  | .decimal negative d => d.toFloat?.map fun size => if negative then -size else size
  | _ => none

def ofDocument? (d : Document) : Option Value :=
  match d.alternative? with
  | some ("Null", .null) => some null
  | some ("Bool", .bool b) => some (bool b)
  | some ("Int64", .int n) => ofInt? n
  | some ("Float64", content) => (float? content).map ofFloat
  | some ("String", .text s) => some (string s)
  | some ("Object", .int n) =>
    if 0 ≤ n ∧ n < UInt64.size then some (object (UInt64.ofNat n.toNat)) else none
  | _ => none

end Value
end Motif
