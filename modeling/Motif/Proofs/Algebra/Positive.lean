import Motif.Plan.Greedy
import Motif.Proofs.Algebra.WellFormed

set_option autoImplicit false
namespace Motif

open Std (ExtTreeSet)

def Constraint.isPositive : Constraint → Bool
  | holds .. | find .. | unequal .. | equal .. | constant .. | check .. | closure .. => true
  | lacks .. | count .. | aggregate .. | eval .. => false

theorem Constraint.isClosedWorld_of_isPositive {k : Constraint} (h : k.isPositive = true) :
    k.isClosedWorld = false := by
  cases k <;> first | rfl | cases h

namespace Algebra

/-- The expression gives more when it is given more, and the columns it works with are there.
`calls` says how wide the matches of the queries are. -/
def Positive (c : Catalog) (calls : String → Nat → Prop) : Algebra → Prop
  | constant rows arity => ∀ t ∈ rows, t.length = arity
  | input _ => True
  | production query arity => calls query arity
  | trim e mask => e.Positive c calls ∧ mask.width = e.arity
  | constantFilter e column _ => e.Positive c calls ∧ column < e.arity
  | equalityFilter e groups => e.Positive c calls ∧ ∀ g ∈ groups, ∀ i ∈ g, i < e.arity
  | inequalityFilter e left right => e.Positive c calls ∧ left < e.arity ∧ right < e.arity
  | expression e evaluator inputs mode => e.Positive c calls ∧ mode = .check ∧
      (∃ x, c.evaluators[evaluator]? = some x) ∧ ∀ i ∈ inputs, i < e.arity
  | join a p b s => (a.Positive c calls ∧ p.width = a.arity) ∧ b.Positive c calls ∧ s.width = b.arity
  | closure e => e.Positive c calls ∧ e.arity = 2
  | existence .. | outerJoin .. | grouping .. => False

def isOpenWorld : Algebra → Bool
  | constant .. | input _ | production .. => true
  | trim e _ | constantFilter e .. | equalityFilter e _ | inequalityFilter e .. | expression e ..
  | closure e => e.isOpenWorld
  | join a _ b _ => a.isOpenWorld && b.isOpenWorld
  | existence .. | outerJoin .. | grouping .. => false

end Algebra

namespace Scope
variable {c : Catalog} {calls : String → Nat → Prop}

def positive (c : Catalog) (calls : String → Nat → Prop) : Scope where
  calls := calls
  guarded _ _ := False
  evaluator name := ∃ x, c.evaluators[name]? = some x
  operator name := ∃ op, c.aggregators[name]? = some op
  binds := False

theorem admits_positive {k : Constraint} (hk : k.isPositive = true)
    (valid : Query.validateConstraint k = .ok ()) (checked : c.checkCall k = .ok ())
    (hcalls : ∀ name q, k.calledQuery? = some name → c.queries[name]? = some q → calls name q.arity) :
    (positive c calls).Admits c k where
  valid := valid
  checked := checked
  calls := hcalls
  guarded _ _ _ closed _ := by
    rw [k.isClosedWorld_of_isPositive hk] at closed
    cases closed
  evaluator _ x hx := ⟨x, hx⟩
  operator _ op _ hop := ⟨op, hop⟩
  binds hb := by
    cases k with
    | eval => cases hk
    | _ => cases hb

end Scope

theorem Algebra.WellFormed.positive {c : Catalog} {calls : String → Nat → Prop} {e : Algebra}
    (h : e.WellFormed (.positive c calls)) (ho : e.isOpenWorld = true) : e.Positive c calls := by
  induction e with
  | constant | input | production => exact h
  | trim e _ ih | constantFilter e _ _ ih | equalityFilter e _ ih | inequalityFilter e _ _ ih
  | closure e ih => exact ⟨ih h.1 ho, h.2⟩
  | expression e _ _ mode ih =>
    obtain ⟨he, evaluator, inputs, binds⟩ := h
    refine ⟨ih he ho, ?_, evaluator, inputs⟩
    cases mode with
    | check => rfl
    | bind => exact (binds rfl).elim
  | join a _ b _ iha ihb =>
    obtain ⟨ha, hb, left, right, -⟩ := h
    obtain ⟨oa, ob⟩ := Bool.and_eq_true_iff.1 ho
    exact ⟨⟨iha ha oa, left⟩, ihb hb ob, right⟩
  | existence | outerJoin | grouping => cases ho

namespace Rows

def IsOpenWorld (r : Rows) : Prop := r.expr.isOpenWorld = true

variable {c : Catalog} {r r' l : Rows} {b : Body} {k : Constraint}

theorem isOpenWorld_source {expr : Algebra} {xs : List Variable} (he : expr.isOpenWorld = true) :
    (source expr xs).IsOpenWorld := by
  rw [source]
  split <;> exact he

namespace IsOpenWorld

theorem select (h : r.IsOpenWorld) {xs : List Variable} (hs : r.select xs = .ok r') :
    r'.IsOpenWorld := by
  obtain ⟨is, -, e⟩ := bind_ok hs
  cases e
  exact h

theorem project (h : r.IsOpenWorld) {xs : List Variable} (hs : r.project xs = .ok r') :
    r'.IsOpenWorld := by
  obtain ⟨is, -, e⟩ := bind_ok hs
  cases e
  split <;> exact h

theorem join (hl : l.IsOpenWorld) (hr : r.IsOpenWorld) : (l.join r).IsOpenWorld := by
  rw [Rows.join]
  split
  · exact hr
  · split
    · exact hl
    · exact Bool.and_eq_true_iff.2 ⟨hl, hr⟩

theorem applyConstraint (h : r.IsOpenWorld) (hk : k.isPositive = true) {index : Nat}
    {more : List Reference} (he : r.applyConstraint c b index k = .ok (r', more)) : r'.IsOpenWorld := by
  cases made_of_applyConstraint he with
  | holds | find | closure => exact h.join (isOpenWorld_source rfl)
  | unequal made =>
    obtain ⟨i, j, -, -, rfl⟩ := applyUnequal_ok made
    exact h
  | equal made =>
    obtain ⟨i, j, -, -, rfl⟩ | ⟨i, -, -, rfl⟩ | ⟨i, -, -, rfl⟩ := applyEqual_ok made
    all_goals exact h
  | constant made =>
    obtain ⟨i, -, rfl⟩ | rfl := applyConstant_ok made
    · exact h
    · exact h.join rfl
  | check => exact h
  | lacks | count | aggregate | eval => cases hk

end IsOpenWorld
end Rows

/-- A compiled body with positive constraints is positive, and as wide as the body has parameters. -/
theorem Compiled.positive_ofPlan {c : Catalog} {calls : String → Nat → Prop} {b : Body}
    (hb : ∀ k ∈ b.constraints, k.isPositive = true ∧
      Query.validateConstraint k = .ok () ∧ c.checkCall k = .ok () ∧
      ∀ name q, k.calledQuery? = some name → c.queries[name]? = some q → calls name q.arity)
    {p : Plan} {r : Compiled} (compiled : Compiled.ofPlan c b p = .ok r) :
    r.expr.Positive c calls ∧ r.expr.arity = b.parameters.length := by
  obtain ⟨wellFormed, arity⟩ := Compiled.wellFormed_ofPlan (s := .positive c calls) (fun k hk => by
    obtain ⟨positive, valid, checked, hcalls⟩ := hb k hk
    exact Scope.admits_positive positive valid checked hcalls) compiled
  obtain ⟨⟨⟩, -, hr⟩ := bind_ok compiled
  split at hr
  · cases hr
  obtain ⟨⟨rows, more⟩, hrows, hr⟩ := bind_ok hr
  cases hr
  refine ⟨wellFormed.positive ?_, arity⟩
  exact Rows.ofPlan_induction (P := Rows.IsOpenWorld) rfl
    (fun k hk _ _ h => h.applyConstraint (hb k hk).1) Rows.IsOpenWorld.select
    Rows.IsOpenWorld.project Rows.IsOpenWorld.join hrows

end Motif
