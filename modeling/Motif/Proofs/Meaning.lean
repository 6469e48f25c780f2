import Motif.Pattern.Body
import Motif.Proofs.Algebra.Value

set_option autoImplicit false
namespace Motif

abbrev Assignment := Variable → Value

namespace Aggregator

def outcome (op : Aggregator) (column : Nat) (G : Multiset Tuple) : Option Value :=
  if G = 0 then op.neutral else op.fold (ascending (G.map (foldedValue (some column))))

end Aggregator

namespace Body
variable {c : Catalog}

theorem mem_vars {b : Body} {x : Variable} :
    x ∈ b.vars ↔ x ∈ b.parameters ∨ ∃ k ∈ b.constraints, x ∈ k.vars := by
  rw [vars, Std.ExtTreeSet.mem_ofList, List.contains_iff_mem, List.mem_append, List.mem_flatMap]

def Calls (b : Body) (query : String) : Prop :=
  ∃ k ∈ b.constraints, k.calledQuery? = some query

def Agrees (b : Body) (index : Nat) (xs : List Variable) (σ : Assignment) (t : Tuple) : Prop :=
  ∃ τ : Assignment, (∀ x ∈ xs, b.isLocal x index = false → τ x = σ x) ∧ xs.map τ = t

open Classical in
/-- The matches that agree with the arguments of the constraint at `index`. -/
noncomputable def agreeing (b : Body) (index : Nat) (xs : List Variable) (found : Finset Tuple)
    (σ : Assignment) : Finset Tuple := found.filter (b.Agrees index xs σ)

/-- The values satisfy a constraint that stands at `index`. -/
def Satisfies (f : Facts c) (b : Body) (index : Nat) (σ : Assignment) : Constraint → Prop
  | .holds r xs => xs.map σ ∈ f.holds r
  | .find query xs => xs.map σ ∈ f.found query
  | .lacks query xs => b.agreeing index xs (f.found query) σ = ∅
  | .unequal l r => σ l ≠ σ r
  | .equal l r => σ l = σ r
  | .constant x v => σ x = v
  | .count query xs result =>
    σ result = .ofNat (b.agreeing index xs (f.found query) σ).card
  | .aggregate operator query xs aggregated result =>
    ∃ op, c.aggregators[operator]? = some op ∧
      op.outcome (xs.idxOf aggregated) (b.agreeing index xs (f.found query) σ).val =
        some (σ result)
  | .check evaluator xs =>
    ∃ e v, c.evaluators[evaluator]? = some e ∧ e.evaluate (xs.map σ) = .ok v ∧ v.isTruthy = true
  | .eval evaluator xs output =>
    ∃ e, c.evaluators[evaluator]? = some e ∧ e.evaluate (xs.map σ) = .ok (σ output)
  | .closure query s t => Linked (f.found query).val (σ s) (σ t)

def SatisfiesAt (f : Facts c) (b : Body) (indices : List Nat) (σ : Assignment) : Prop :=
  ∀ i ∈ indices, ∀ k, b.constraints[i]? = some k → b.Satisfies f i σ k

/-- The parameter tuples of the values that satisfy every constraint. -/
def meaning (f : Facts c) (b : Body) : Set Tuple :=
  {t | ∃ σ : Assignment, (∀ i k, b.constraints[i]? = some k → b.Satisfies f i σ k) ∧
    b.parameters.map σ = t}

variable {f : Facts c} {b : Body}

theorem mem_found_of_agreeing {index : Nat} {xs : List Variable} {found : Finset Tuple}
    {σ : Assignment} {t : Tuple} (h : t ∈ b.agreeing index xs found σ) : t ∈ found := by
  classical
  exact (Finset.mem_filter.1 h).1

theorem agreeing_congr {index : Nat} {xs : List Variable} {found : Finset Tuple}
    {σ τ : Assignment} (h : ∀ x ∈ xs, τ x = σ x) :
    b.agreeing index xs found τ = b.agreeing index xs found σ := by
  have same : b.Agrees index xs τ = b.Agrees index xs σ := by
    funext t
    refine propext (exists_congr fun υ => and_congr_left fun _ => ?_)
    exact forall_congr' fun x => forall_congr' fun hx => by rw [h x hx]
  rw [agreeing, agreeing, same]

/-- Whether a constraint is satisfied is up to the variables it mentions. -/
theorem satisfies_congr {index : Nat} {k : Constraint} {σ τ : Assignment}
    (h : ∀ x ∈ k.vars, τ x = σ x) : b.Satisfies f index τ k ↔ b.Satisfies f index σ k := by
  cases k with
  | holds r xs | find q xs | check e xs =>
    have hx : ∀ x ∈ xs, τ x = σ x := h
    simp only [Satisfies]
    rw [List.map_congr_left hx]
  | lacks q xs =>
    have hx : ∀ x ∈ xs, τ x = σ x := h
    simp only [Satisfies]
    rw [agreeing_congr hx]
  | unequal l r | equal l r | closure q l r =>
    have hl := h l (by simp [Constraint.vars])
    have hr := h r (by simp [Constraint.vars])
    simp only [Satisfies, hl, hr]
  | constant x v =>
    have hx := h x (by simp [Constraint.vars])
    simp only [Satisfies, hx]
  | count q xs result | aggregate op q xs aggregated result =>
    have hr := h result (by simp [Constraint.vars])
    simp only [Satisfies, hr]
    rw [agreeing_congr fun x hx => h x (by simp [Constraint.vars, hx])]
  | eval e xs output =>
    have hr := h output (by simp [Constraint.vars])
    simp only [Satisfies, hr]
    rw [List.map_congr_left fun x hx => h x (by simp [Constraint.vars, hx])]

theorem meaning_congr {c' : Catalog} {f' : Facts c'} (evaluators : c'.evaluators = c.evaluators)
    (aggregators : c'.aggregators = c.aggregators) (holds : f'.holds = f.holds)
    (found : ∀ n, b.Calls n → f'.found n = f.found n) : b.meaning f' = b.meaning f := by
  have same : ∀ i σ, ∀ k ∈ b.constraints, b.Satisfies f' i σ k ↔ b.Satisfies f i σ k := by
    intro i σ k hk
    have called : ∀ n, k.calledQuery? = some n → f'.found n = f.found n := fun n hn =>
      found n ⟨k, hk, hn⟩
    cases k with
    | holds r xs => simp only [Satisfies, holds]
    | find q xs | lacks q xs | count q xs result | closure q s t => simp only [Satisfies, called q rfl]
    | aggregate op q xs aggregated result => simp only [Satisfies, called q rfl, aggregators]
    | check e xs | eval e xs output => simp only [Satisfies, evaluators]
    | _ => exact Iff.rfl
  ext t
  refine exists_congr fun σ => and_congr_left fun _ => forall_congr' fun i => forall_congr' fun k =>
    forall_congr' fun hk => same i σ k (List.mem_of_getElem? hk)

end Body
end Motif
