import Motif.Algebra.Basic
import Motif.PlanError

set_option autoImplicit false
namespace Motif

structure Rows where
  expr : Algebra
  columns : List Variable
  deriving DecidableEq

namespace Rows

def unit : Rows := ⟨.unit, []⟩

def arity (r : Rows) : Nat := r.columns.length

def position (r : Rows) (x : Variable) : Except PlanError (Fin r.columns.length) :=
  match r.columns.finIdxOf? x with
  | some i => .ok i
  | none => .error (.unknownVariable x)

/-- A relation with one variable for each column. Columns with the same variable are made equal, and
the first of them is kept. -/
def source (expr : Algebra) (xs : List Variable) : Rows :=
  match repeatedPositions xs with
  | [] => ⟨expr, xs⟩
  | groups =>
    let keep := firstPositions xs
    ⟨.trim (.equalityFilter expr (groups.map fun g => g.map Fin.val)) (.ofFins keep),
      keep.map fun i => xs[i]⟩

def select (r : Rows) (xs : List Variable) : Except PlanError Rows := do
  return ⟨.trim r.expr (.ofFins (← xs.mapM r.position)), xs⟩

/-- Like `select`, but leaves rows as they are whose columns are the ones asked for. -/
def project (r : Rows) (xs : List Variable) : Except PlanError Rows := do
  let mask := Mask.ofFins (← xs.mapM r.position)
  return if mask.isIdentity then r else ⟨.trim r.expr mask, xs⟩

/-- The columns on both sides that carry a common variable, in the order of the left side. -/
def shared (left right : Rows) : List (Fin left.columns.length × Fin right.columns.length) :=
  (List.finRange left.columns.length).filterMap fun i =>
    (right.columns.finIdxOf? left.columns[i]).map fun j => (i, j)

def join (left right : Rows) : Rows :=
  if left.expr.isUnit then right
  else if right.expr.isUnit then left
  else
    let common := left.shared right
    let fresh := (List.finRange right.columns.length).filter fun j => j ∉ common.map Prod.snd
    ⟨.join left.expr (.ofFins (common.map Prod.fst)) right.expr (.ofFins (common.map Prod.snd)),
      left.columns ++ fresh.map fun j => right.columns[j]⟩

def without (left right : Rows) : Rows :=
  let common := left.shared right
  ⟨.existence left.expr (.ofFins (common.map Prod.fst)) right.expr (.ofFins (common.map Prod.snd))
    true, left.columns⟩

def unifyLast (r : Rows) (x : Variable) : Except PlanError Rows := do
  let target ← r.position x
  let last := r.arity - 1
  return ⟨.trim (.equalityFilter r.expr [[target.val, last]])
    (.first last r.arity (Nat.sub_le r.arity 1)), r.columns.dropLast⟩

end Rows
end Motif
