import Motif.Document
import Motif.Toml.Text

/-!
Tables in the making. Headers and the keys of entries name paths, and what stands on a path comes
into being when it is named. No entry and no header is given twice, and what one way of naming has
opened another may be barred from.
-/
set_option autoImplicit false
namespace Motif.Toml

inductive Origin where
  /-- on the way of a header to another table -/
  | passed
  /-- on the way of a key to its value -/
  | dotted
  /-- opened by a header -/
  | opened
  deriving DecidableEq, Repr

inductive Node where
  | value (d : Document)
  | table (origin : Origin) (fields : List (String × Node))
  /-- tables of one header in double brackets; only the last is still in the making -/
  | tables (closed : List Document) (last : List (String × Node))

abbrev Fields := List (String × Node)

mutual

def Node.toDocument : Node → Document
  | .value d => d
  | .table _ fields => .record (documents fields)
  | .tables closed last => .list (closed ++ [.record (documents last)])

def documents : List (String × Node) → List (String × Document)
  | [] => []
  | (name, n) :: rest => (name, n.toDocument) :: documents rest

end

namespace Fields

def get? (fs : Fields) (name : String) : Option Node := (fs.find? fun f => f.1 = name).map Prod.snd

def set (fs : Fields) (name : String) (n : Node) : Fields := Table.setIn name n fs

/-- Changes the table at the end of a path. A key (`byKey`) does not lead into a table that a header
has opened; neither keys nor headers lead into a value. -/
def changeAt (byKey : Bool) (change : Origin → Fields → Option Fields) :
    Path → Origin → Fields → Option Fields
  | [], origin, fs => change origin fs
  | name :: path, _, fs => do
    let n ← match fs.get? name with
      | none =>
        let origin := if byKey then .dotted else .passed
        Node.table origin <$> changeAt byKey change path origin []
      | some (.table origin inner) =>
        if byKey ∧ origin = .opened then none
        else Node.table origin <$> changeAt byKey change path origin inner
      | some (.tables closed last) =>
        Node.tables closed <$> changeAt byKey change path .opened last
      | some (.value _) => none
    return fs.set name n

def opened? (several : Bool) (found : Option Node) : Option Node :=
  match several, found with
  | false, none => some (.table .opened [])
  | false, some (.table .passed inner) => some (.table .opened inner)
  | true, none => some (.tables [] [])
  | true, some (.tables closed last) => some (.tables (closed ++ [.record (documents last)]) [])
  | _, _ => none

def open? (fs : Fields) (several : Bool) (path : Path) : Option Fields := do
  let name ← path.getLast?
  changeAt false (fun _ fs => (opened? several (fs.get? name)).map (fs.set name))
    path.dropLast .opened fs

/-- Gives a value to a key. The tables on its way are those of other keys. -/
def assign? (fs : Fields) (path : Path) (d : Document) : Option Fields := do
  let name ← path.getLast?
  let enter (origin : Origin) (fs : Fields) : Option Fields :=
    if (path.length ≠ 1 ∧ origin ≠ .dotted) ∨ (fs.get? name).isSome then none
    else some (fs.set name (.value d))
  changeAt true enter path.dropLast .opened fs

def assignIn? (fs : Fields) (header path : Path) (d : Document) : Option Fields :=
  changeAt false (fun _ fs => fs.assign? path d) header .opened fs

end Fields
end Motif.Toml
