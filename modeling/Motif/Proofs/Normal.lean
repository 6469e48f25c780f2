import Motif.Catalog.Resolution
import Motif.Pattern.Normal
import Motif.Proofs.Derivation
import Motif.Proofs.Merging

set_option autoImplicit false
namespace Motif

namespace Body
variable {b : Body} {c : Catalog} {base : Relation → Set Tuple} {found : String → Set Tuple}

theorem merges_merging (b : Body) :
    b.merging.Merges b.parameters (Merging.Equated b.constraints) :=
  Merging.merges_ofConstraints b.parameters b.constraints

theorem mem_normalize {k : Constraint} : k ∈ b.normalize.constraints ↔
    (∃ k' ∈ b.constraints, k'.rename b.merging.rep = k) ∧ k.isTrivial = false := by
  simp [normalize]

/-- What holds of trivial equalities holds of the normal form's constraints if it does of all renamed
ones. -/
theorem forall_normalize {P : Constraint → Prop} (trivial : ∀ x, P (.equal x x)) :
    (∀ k ∈ b.normalize.constraints, P k) ↔ ∀ k ∈ b.constraints, P (k.rename b.merging.rep) := by
  constructor
  · intro h k hk
    cases ht : (k.rename b.merging.rep).isTrivial with
    | false => exact h _ (mem_normalize.2 ⟨⟨k, hk, rfl⟩, ht⟩)
    | true =>
      cases k with
      | equal l r =>
        have same : b.merging.rep l = b.merging.rep r := of_decide_eq_true ht
        rw [Constraint.rename, same]
        exact trivial _
      | _ => cases ht
  · intro h k hk
    obtain ⟨⟨k, hk', rfl⟩, -⟩ := mem_normalize.1 hk
    exact h k hk'

theorem derives_normalize : b.normalize.derives c base found = b.derives c base found := by
  have holds : ∀ σ : Assignment, (∀ k ∈ b.normalize.constraints, k.Holds c base found σ) ↔
      ∀ k ∈ b.constraints, k.Holds c base found (σ ∘ b.merging.rep) := fun σ => by
    simp only [← Constraint.holds_rename]
    exact forall_normalize fun x => rfl
  ext t
  constructor
  · rintro ⟨σ, hσ, rfl⟩
    exact ⟨σ ∘ b.merging.rep, (holds σ).1 hσ, by rw [normalize, List.map_map]⟩
  · rintro ⟨σ, hσ, rfl⟩
    have same : σ ∘ b.merging.rep = σ :=
      funext (b.merges_merging.respects fun l r hk => hσ (.equal l r) hk)
    refine ⟨σ, (holds σ).2 (same.symm ▸ hσ), ?_⟩
    rw [normalize, List.map_map, same]

end Body

/-! What is checked of a body holds of its normal form. -/

namespace Constraint
variable {rep : Variable → Variable} {k : Constraint}

@[simp] theorem calledQuery?_rename : (k.rename rep).calledQuery? = k.calledQuery? := by
  cases k <;> rfl

@[simp] theorem isPositive_rename : (k.rename rep).isPositive = k.isPositive := by
  cases k <;> rfl

end Constraint

namespace Body
variable {b : Body} {c : Catalog}

theorem length_parameters_normalize : b.normalize.parameters.length = b.parameters.length :=
  List.length_map _

theorem calls_normalize {query : String} (h : b.normalize.Calls query) : b.Calls query := by
  obtain ⟨k, hk, hq⟩ := h
  obtain ⟨⟨k', hk', rfl⟩, -⟩ := mem_normalize.1 hk
  exact ⟨k', hk', by rwa [Constraint.calledQuery?_rename] at hq⟩

theorem isPositive_normalize (h : ∀ k ∈ b.constraints, k.isPositive = true) :
    ∀ k ∈ b.normalize.constraints, k.isPositive = true := by
  intro k hk
  obtain ⟨⟨k', hk', rfl⟩, -⟩ := mem_normalize.1 hk
  rw [Constraint.isPositive_rename]
  exact h k' hk'

end Body

theorem Query.validateConstraint_rename {rep : Variable → Variable} {k : Constraint}
    (h : validateConstraint k = .ok ()) : validateConstraint (k.rename rep) = .ok () := by
  cases k with
  | holds r xs =>
    rw [validateConstraint] at h
    split at h
    · rename_i e
      simp [Constraint.rename, validateConstraint, e]
    · cases h
  | aggregate op q xs aggregated result =>
    rw [validateConstraint] at h
    split at h
    · rename_i e
      exact if_pos (List.mem_map_of_mem e)
    · cases h
  | _ => rfl

theorem Query.validateBody_normalize {q : Query} {b : Body} (h : q.validateBody b = .ok ()) :
    q.validateBody b.normalize = .ok () := by
  rw [validateBody] at h ⊢
  rw [Body.length_parameters_normalize]
  split at h
  · cases h
  · rename_i hl
    rw [if_neg hl]
    refine forM_eq_ok fun k hk => ?_
    obtain ⟨⟨k', hk', rfl⟩, -⟩ := Body.mem_normalize.1 hk
    exact validateConstraint_rename (forM_ok h hk')

@[simp] theorem Catalog.checkCall_rename {c : Catalog} {rep : Variable → Variable}
    {k : Constraint} :
    c.checkCall (k.rename rep) = c.checkCall k := by
  cases k with
  | find | lacks | count | aggregate | closure =>
    simp only [checkCall, Constraint.rename, Constraint.calledQuery?, Constraint.callWidth,
      List.length_map]
    rfl
  | _ => rfl

theorem Body.checkCall_normalize {b : Body} {c : Catalog}
    (h : b.constraints.forM c.checkCall = .ok ()) :
    b.normalize.constraints.forM c.checkCall = .ok () := by
  refine forM_eq_ok fun k hk => ?_
  obtain ⟨⟨k', hk', rfl⟩, -⟩ := mem_normalize.1 hk
  rw [Catalog.checkCall_rename]
  exact forM_ok h hk'

end Motif
