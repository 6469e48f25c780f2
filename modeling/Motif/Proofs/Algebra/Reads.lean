import Motif.Proofs.Network.Loops
import Motif.Proofs.Normal

set_option autoImplicit false
namespace Motif

def Body.Reads (b : Body) (r : Relation) : Prop := ∃ xs, Constraint.holds r xs ∈ b.constraints

theorem Body.reads_of_normalize {b : Body} {r : Relation} (h : b.normalize.Reads r) : b.Reads r := by
  obtain ⟨xs, h⟩ := h
  obtain ⟨⟨k, hk, e⟩, -⟩ := mem_normalize.1 h
  cases k with
  | holds r' xs' =>
    cases e
    exact ⟨xs', hk⟩
  | _ => cases e

/-- A body of the query, or of one that it leads to by calls, asks what is in the relation. -/
def Catalog.Reads (c : Catalog) (name : String) (r : Relation) : Prop :=
  ∃ callee q, c.Leads name callee ∧ c.queries[callee]? = some q ∧ ∃ b ∈ q.bodies, b.Reads r

namespace Algebra

def ReadsIn (R : Set Relation) : Algebra → Prop
  | constant .. | production .. => True
  | input r => r ∈ R
  | trim e _ | constantFilter e _ _ | equalityFilter e _ | inequalityFilter e _ _
  | expression e _ _ _ | grouping e _ _ _ | closure e => e.ReadsIn R
  | join a _ b _ | existence a _ b _ _ | outerJoin a _ b _ _ => a.ReadsIn R ∧ b.ReadsIn R

theorem ReadsIn.operand {R : Set Relation} {e e' : Algebra} (h : e.ReadsIn R)
    (he : e' ∈ e.operands) : e'.ReadsIn R := by
  cases e with
  | constant _ _ | input _ | production _ _ => cases he
  | trim _ _ | constantFilter _ _ _ | equalityFilter _ _ | inequalityFilter _ _ _
  | expression _ _ _ _ | grouping _ _ _ _ | closure _ => exact List.mem_singleton.1 he ▸ h
  | join _ _ _ _ | existence _ _ _ _ _ | outerJoin _ _ _ _ _ =>
    obtain rfl | he := List.mem_cons.1 he
    · exact h.1
    · exact List.mem_singleton.1 he ▸ h.2

theorem ReadsIn.mono {R R' : Set Relation} (hR : R ⊆ R') {e : Algebra} (h : e.ReadsIn R) :
    e.ReadsIn R' := by
  induction e with
  | constant _ _ | production _ _ => trivial
  | input r => exact hR h
  | trim _ _ ih | constantFilter _ _ _ ih | equalityFilter _ _ ih | inequalityFilter _ _ _ ih
  | expression _ _ _ _ ih | grouping _ _ _ _ ih | closure _ ih => exact ih h
  | join _ _ _ _ iha ihb | existence _ _ _ _ _ iha ihb | outerJoin _ _ _ _ _ iha ihb =>
    exact ⟨iha h.1, ihb h.2⟩

end Algebra

namespace Rows
variable {c : Catalog} {R : Set Relation} {r l r' : Rows} {b : Body} {k : Constraint}

theorem readsIn_source {expr : Algebra} {xs : List Variable} (h : expr.ReadsIn R) :
    (source expr xs).expr.ReadsIn R := by
  rw [source]
  split
  · exact h
  · exact h

theorem readsIn_select (h : r.expr.ReadsIn R) {xs : List Variable} (hs : r.select xs = .ok r') :
    r'.expr.ReadsIn R := by
  obtain ⟨is, -, e⟩ := bind_ok hs
  cases e
  exact h

theorem readsIn_project (h : r.expr.ReadsIn R) {xs : List Variable} (hs : r.project xs = .ok r') :
    r'.expr.ReadsIn R := by
  obtain ⟨is, -, e⟩ := bind_ok hs
  cases e
  split
  · exact h
  · exact h

theorem readsIn_join (hl : l.expr.ReadsIn R) (hr : r.expr.ReadsIn R) : (l.join r).expr.ReadsIn R := by
  rw [Rows.join]
  split
  · exact hr
  · split
    · exact hl
    · exact ⟨hl, hr⟩

theorem readsIn_unifyLast (h : r.expr.ReadsIn R) {x : Variable} (hu : r.unifyLast x = .ok r') :
    r'.expr.ReadsIn R := by
  obtain ⟨target, -, hu⟩ := bind_ok hu
  cases hu
  exact h

theorem readsIn_result {expr : Algebra} {xs : List Variable} {x y : Variable} (h : expr.ReadsIn R)
    (hr : (if x ∈ xs then Rows.unifyLast ⟨expr, xs ++ [y]⟩ x
      else .ok ⟨expr, xs ++ [x]⟩) = .ok r') : r'.expr.ReadsIn R := by
  split at hr
  · exact readsIn_unifyLast (r := ⟨expr, xs ++ [y]⟩) h hr
  · cases hr
    exact h

theorem readsIn_fold (h : r.expr.ReadsIn R) {callee : Rows} (hc : callee.expr.ReadsIn R)
    {groups : List Variable} {operator : String} {column : Option Nat} {result : Variable}
    (he : Rows.fold c r callee groups operator column result = .ok r') : r'.expr.ReadsIn R := by
  obtain ⟨op, -, he⟩ := bind_ok he
  obtain ⟨is, -, he⟩ := bind_ok he
  obtain ⟨js, -, he⟩ := bind_ok he
  cases hn : op.neutral with
  | some neutral =>
    rw [hn] at he
    refine readsIn_result ?_ he
    exact ⟨h, hc⟩
  | none =>
    rw [hn] at he
    refine readsIn_result ?_ he
    exact ⟨h, hc⟩

/-- A constraint applied reads what it asks for besides. -/
theorem readsIn_applyConstraint (hk : ∀ rel xs, k = .holds rel xs → rel ∈ R) (h : r.expr.ReadsIn R)
    {index : Nat} {more : List Reference}
    (he : Rows.applyConstraint c b r index k = .ok (r', more)) : r'.expr.ReadsIn R := by
  have call (query : String) (q : Query) (xs : List Variable) :
      (source (.production query q.arity) xs).expr.ReadsIn R := readsIn_source trivial
  cases made_of_applyConstraint he with
  | holds => exact readsIn_join h (readsIn_source (hk _ _ rfl))
  | @find query xs q => exact readsIn_join h (call query q xs)
  | @lacks query xs q _ _ made => exact ⟨h, readsIn_project (call query q xs) made⟩
  | unequal made =>
    obtain ⟨i, j, -, -, rfl⟩ := applyUnequal_ok made
    exact h
  | equal made =>
    obtain ⟨i, j, -, -, rfl⟩ | ⟨i, -, -, rfl⟩ | ⟨i, -, -, rfl⟩ := applyEqual_ok made
    · exact h
    · exact h
    · exact h
  | constant made =>
    obtain ⟨i, -, rfl⟩ | rfl := applyConstant_ok made
    · exact h
    · exact readsIn_join h trivial
  | @count query xs _ q _ _ made | @aggregate _ query xs _ _ q _ _ _ _ made =>
    exact readsIn_fold h (call query q xs) made
  | check => exact h
  | eval _ _ hexpr made =>
    refine readsIn_result ?_ made
    rw [hexpr]
    exact h
  | closure => exact readsIn_join h (readsIn_source trivial)

theorem readsIn_ofPlan {p : Plan} {more : List Reference}
    (he : Rows.ofPlan c b p = .ok (r, more)) : r.expr.ReadsIn {rel | b.Reads rel} := by
  refine ofPlan_induction (P := fun r => r.expr.ReadsIn {rel | b.Reads rel}) trivial
    (fun k hk _ _ h _ _ => readsIn_applyConstraint (fun rel xs e => ?_) h)
    (fun h _ => readsIn_select h) (fun h _ => readsIn_project h) readsIn_join he
  exact ⟨xs, e ▸ hk⟩

end Rows

theorem Compiled.readsIn_ofPlan {c : Catalog} {b : Body} {p : Plan} {r : Compiled}
    (compiled : Compiled.ofPlan c b p = .ok r) : r.expr.ReadsIn {rel | b.Reads rel} := by
  obtain ⟨⟨⟩, -, hr⟩ := bind_ok compiled
  split at hr
  · cases hr
  obtain ⟨⟨rows, more⟩, hrows, hr⟩ := bind_ok hr
  cases hr
  exact Rows.readsIn_ofPlan hrows

end Motif
