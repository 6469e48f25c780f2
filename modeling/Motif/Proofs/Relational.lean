import Mathlib.Algebra.Order.Group.Multiset
import Mathlib.Logic.Relation
import Motif.Network.Node
import Motif.Proofs.Index

set_option autoImplicit false
namespace Motif

def partners (p s : Mask) (S : Multiset Tuple) (a : Tuple) : Multiset Tuple :=
  S.filter fun b => s.signature b = p.signature a

def naturalJoin (p s complement : Mask) (P S : Multiset Tuple) : Multiset Tuple :=
  P.bind fun a => (partners p s S a).map fun b => a ++ complement.signature b

def matching (p s : Mask) (negative : Bool) (P S : Multiset Tuple) : Multiset Tuple :=
  P.filter fun a => partners p s S a = 0 ↔ negative = true

def outerRows (p s complement : Mask) (defaults : Tuple) (S : Multiset Tuple) (a : Tuple) :
    Multiset Tuple :=
  if partners p s S a = 0 then {a ++ defaults}
  else (partners p s S a).map fun b => a ++ complement.signature b

def leftJoin (p s complement : Mask) (defaults : Tuple) (P S : Multiset Tuple) : Multiset Tuple :=
  P.bind (outerRows p s complement defaults S)

def group (m : Mask) (S : Multiset Tuple) (signature : Tuple) : Multiset Tuple :=
  S.filter fun t => m.signature t = signature

def foldedValue (column : Option Nat) (t : Tuple) : Value :=
  match column with
  | some c => t.getD c .null
  | none => .null

namespace Aggregator

def valueOf (op : Aggregator) (column : Option Nat) (G : Multiset Tuple) : Option Value :=
  op.fold ((ascending G).map (foldedValue column))

def groupValue (op : Aggregator) (column : Option Nat) (G : Multiset Tuple) : Option Value :=
  if G = 0 then none else op.valueOf column G

end Aggregator

def groupRow (m : Mask) (op : Aggregator) (column : Option Nat) (S : Multiset Tuple) (s : Tuple) :
    Option Tuple :=
  (op.groupValue column (group m S s)).map fun v => s ++ [v]

def groupRows (m : Mask) (op : Aggregator) (column : Option Nat) (S : Multiset Tuple) :
    Multiset Tuple :=
  (S.map m.signature).dedup.filterMap (groupRow m op column S)

/-- A path of edges leads from `a` to `b`; to itself only an edge of its own. -/
def Linked (E : Multiset Tuple) (a b : Value) : Prop :=
  if a = b then [a, b] ∈ E else Relation.TransGen (fun x y => [x, y] ∈ E) a b

open Classical in
noncomputable def linkedPairs (E : Multiset Tuple) : Multiset Tuple :=
  let ends := (E.bind fun t => (↑t : Multiset Value)).toFinset
  ((ends ×ˢ ends).filter fun p => Linked E p.1 p.2).val.map fun p => [p.1, p.2]

def Evaluator.result (e : Evaluator) (inputs : List Nat) (mode : ExpressionMode) (t : Tuple) :
    Option Tuple :=
  match e.evaluate (inputs.map fun i => t.getD i .null) with
  | .ok v =>
    match mode with
    | .check => if v.isTruthy then some t else none
    | .bind => some (t ++ [v])
  | .error _ => none

def Tuple.equalIn (t : Tuple) (groups : List (List Nat)) : Prop :=
  ∀ g ∈ groups, ∀ c ∈ g, t[c]? = t[g.headD 0]?

instance (t : Tuple) (groups : List (List Nat)) : Decidable (t.equalIn groups) := by
  unfold Tuple.equalIn
  infer_instance

namespace Node

/-- What a node puts out when it has been fed `fed`, by its parents or, if it is an input, from
outside, or, if it reads indexes, when these hold `view`. -/
noncomputable def output (masks : IndexId → Mask) (fed : Multiset Tuple)
    (view : Side → Multiset Tuple) : Node → Multiset Tuple
  | input .. => fed
  | constant rows => ↑rows
  | trim mask => fed.map mask.signature
  | constantFilter column value => fed.filter fun t => t[column]? = some value
  | equalityFilter groups => fed.filter fun t => t.equalIn groups
  | inequalityFilter left right => fed.filter fun t => t[left]? ≠ t[right]?
  | expression x => fed.filterMap (x.evaluator.result x.inputs x.mode)
  | join p s complement =>
    naturalJoin (masks p) (masks s) complement (view .primary) (view .secondary)
  | existence p s negative =>
    matching (masks p) (masks s) negative (view .primary) (view .secondary)
  | outerJoin p s complement defaults =>
    leftJoin (masks p) (masks s) complement defaults (view .primary) (view .secondary)
  | grouping g => groupRows (masks g.source) g.operator g.column (view .primary)
  | closure _ => linkedPairs fed
  | uniqueness _ | production _ _ => fed.dedup

end Node

theorem mem_linkedPairs {E : Multiset Tuple} {t : Tuple} :
    t ∈ linkedPairs E ↔ ∃ a b, t = [a, b] ∧ Linked E a b := by
  have ends : ∀ {x y : Value}, [x, y] ∈ E →
      x ∈ E.bind (fun t => (↑t : Multiset Value)) ∧ y ∈ E.bind fun t => (↑t : Multiset Value) :=
    fun h => ⟨Multiset.mem_bind.2 ⟨_, h, by simp⟩, Multiset.mem_bind.2 ⟨_, h, by simp⟩⟩
  have linked : ∀ {a b : Value}, Linked E a b →
      a ∈ E.bind (fun t => (↑t : Multiset Value)) ∧ b ∈ E.bind fun t => (↑t : Multiset Value) := by
    intro a b h
    rw [Linked] at h
    split at h
    · exact ends h
    · obtain ⟨c, hc, -⟩ := Relation.TransGen.head'_iff.1 h
      obtain ⟨d, -, hd⟩ := Relation.TransGen.tail'_iff.1 h
      exact ⟨(ends hc).1, (ends hd).2⟩
  simp only [linkedPairs, Multiset.mem_map, Finset.mem_val, Finset.mem_filter, Finset.mem_product,
    Multiset.mem_toFinset, Prod.exists]
  constructor
  · rintro ⟨a, b, ⟨-, h⟩, rfl⟩
    exact ⟨a, b, rfl, h⟩
  · rintro ⟨a, b, rfl, h⟩
    exact ⟨a, b, ⟨linked h, h⟩, rfl⟩

theorem nodup_linkedPairs (E : Multiset Tuple) : (linkedPairs E).Nodup :=
  Multiset.Nodup.map (fun p q h => by simpa [Prod.ext_iff] using h) (Finset.nodup _)

end Motif
