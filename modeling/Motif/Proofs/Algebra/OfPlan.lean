import Motif.Proofs.Algebra.Constraints

set_option autoImplicit false
namespace Motif

open Std (ExtTreeSet)

namespace Plan

def mentioned (b : Body) (p : Plan) : List Variable :=
  p.applied.flatMap fun i => (b.constraints[i]?).elim [] Constraint.vars

/-- What two parts of a plan both mention is bound in both, and a closed-world constraint finds its
outer arguments bound by the plan before it. -/
def Coherent (b : Body) : Plan → Prop
  | start _ => True
  | apply before index => before.Coherent b ∧ ∀ k ∈ b.constraints[index]?,
      (∀ x ∈ k.vars, x ∈ before.mentioned b → x ∈ before.bound b) ∧
      (k.isClosedWorld = true → ∀ x ∈ (b.deferred index k).toList, x ∈ before.bound b)
  | project before _ => before.Coherent b
  | join left right => left.Coherent b ∧ right.Coherent b ∧
      ∀ x ∈ left.mentioned b, x ∈ right.mentioned b → x ∈ left.bound b ∧ x ∈ right.bound b

variable {b : Body}

theorem mentioned_apply {p : Plan} {i : Nat} {k : Constraint} (h : b.constraints[i]? = some k) :
    {x | x ∈ (apply p i).mentioned b} = {x | x ∈ p.mentioned b} ∪ {x | x ∈ k.vars} := by
  ext x
  simp [mentioned, applied, h]

theorem mentioned_join {p q : Plan} :
    {x | x ∈ (join p q).mentioned b} = {x | x ∈ p.mentioned b} ∪ {x | x ∈ q.mentioned b} := by
  ext x
  simp [mentioned, applied]

end Plan

namespace Rows
variable {c : Catalog} {f : Facts c} {b : Body}

theorem columns_ofPlan {before : Plan} {xs : List Variable} {r : Rows} {calls : List Reference}
    (he : Rows.ofPlan c b (.project before xs) = .ok (r, calls)) : r.columns = xs := by
  obtain ⟨⟨r₀, calls₀⟩, -, he⟩ := bind_ok he
  dsimp only at he
  split at he
  · obtain ⟨r₁, h₁, he⟩ := bind_ok he
    cases he
    exact columns_project h₁
  · obtain ⟨r₁, h₁, he⟩ := bind_ok he
    cases he
    exact columns_select h₁

theorem ofPlan_induction {P : Rows → Prop} (unit : P Rows.unit)
    (apply : ∀ k ∈ b.constraints, ∀ {r r' : Rows}, P r → ∀ {index : Nat} {more : List Reference},
      r.applyConstraint c b index k = .ok (r', more) → P r')
    (select : ∀ {r r' : Rows}, P r → ∀ {xs : List Variable}, r.select xs = .ok r' → P r')
    (project : ∀ {r r' : Rows}, P r → ∀ {xs : List Variable}, r.project xs = .ok r' → P r')
    (join : ∀ {l r : Rows}, P l → P r → P (l.join r)) {p : Plan} {r : Rows} {calls : List Reference}
    (he : Rows.ofPlan c b p = .ok (r, calls)) : P r := by
  induction p generalizing r calls with
  | start bound =>
    cases he
    exact unit
  | apply before index ih =>
    obtain ⟨⟨r₀, calls₀⟩, h₀, he⟩ := bind_ok he
    dsimp only at he
    split at he
    · cases he
    · rename_i k hindex
      obtain ⟨⟨r₁, more⟩, h₁, he⟩ := bind_ok he
      cases he
      exact apply k (List.mem_of_getElem? hindex) (ih h₀) h₁
  | project before xs ih =>
    obtain ⟨⟨r₀, calls₀⟩, h₀, he⟩ := bind_ok he
    dsimp only at he
    split at he
    · obtain ⟨r₁, h₁, he⟩ := bind_ok he
      cases he
      exact project (ih h₀) h₁
    · obtain ⟨r₁, h₁, he⟩ := bind_ok he
      cases he
      exact select (ih h₀) h₁
  | join left right ihl ihr =>
    obtain ⟨⟨l, calls₀⟩, hl, he⟩ := bind_ok he
    obtain ⟨⟨r₀, more⟩, hr, he⟩ := bind_ok he
    cases he
    exact join (ihl hl) (ihr hr)

/-- The rows of a sub-plan show the assignments that satisfy what it applies, and have columns for
what it leaves bound. -/
theorem ofPlan_shows (fits : ∀ k ∈ b.constraints, Query.validateConstraint k = .ok () ∧
    c.checkCall k = .ok () ∧ c.Folds k) {p : Plan} (hp : p.Coherent b)
    (hentry : ∀ x, x ∉ p.entry) {r : Rows} {calls : List Reference}
    (he : Rows.ofPlan c b p = .ok (r, calls)) :
    r.Shows f {x | x ∈ p.mentioned b} {σ | b.SatisfiesAt f p.applied σ} ∧
      ∀ x ∈ p.bound b, x ∈ r.columns := by
  induction p generalizing r calls with
  | start bound =>
    cases he
    refine ⟨Shows.toUnit.of_eq (fun σ => ?_) |>.mono (Set.empty_subset _), fun x hx => ?_⟩
    · simp [Plan.applied, Body.SatisfiesAt]
    · exact absurd hx (hentry x)
  | apply before index ih =>
    obtain ⟨⟨r₀, calls₀⟩, h₀, he⟩ := bind_ok he
    obtain ⟨hc, hk⟩ := hp
    obtain ⟨shows, bound⟩ := ih hc hentry h₀
    dsimp only at he
    split at he
    · cases he
    · rename_i k hindex
      obtain ⟨⟨r₁, more⟩, h₁, he⟩ := bind_ok he
      cases he
      obtain ⟨used, closed⟩ := hk k hindex
      obtain ⟨hv, hcall, hfold⟩ := fits k (List.mem_of_getElem? hindex)
      have applies := applyConstraint_applies shows hv hcall hfold
        (fun x hx hm => bound x (used x hx hm))
        (fun hw x hx => bound x (closed hw x (ExtTreeSet.mem_toList.2 hx))) h₁
      rw [Plan.mentioned_apply hindex]
      refine ⟨applies.shows.of_eq fun σ => ?_, fun x hx => ?_⟩
      · simp only [Set.mem_inter_iff, Set.mem_ofPred_eq, Body.SatisfiesAt, Plan.applied,
          List.mem_append, List.mem_singleton, or_imp, forall_and, forall_eq, hindex,
          Option.some_inj, forall_eq']
      · rw [Plan.bound, ExtTreeSet.mem_union_iff, Body.affectedAt, hindex] at hx
        exact hx.elim (fun hx => applies.kept x (bound x hx)) (applies.bound x)
  | project before xs ih =>
    have columns := columns_ofPlan he
    refine ⟨?_, fun x hx => by simpa [columns, Plan.bound] using hx⟩
    obtain ⟨⟨r₀, calls₀⟩, h₀, he⟩ := bind_ok he
    obtain ⟨shows, -⟩ := ih hp hentry h₀
    dsimp only at he
    split at he
    · obtain ⟨r₁, h₁, he⟩ := bind_ok he
      cases he
      exact shows.project h₁
    · obtain ⟨r₁, h₁, he⟩ := bind_ok he
      cases he
      exact shows.select h₁
  | join left right ihl ihr =>
    obtain ⟨⟨l, calls₀⟩, hl, he⟩ := bind_ok he
    obtain ⟨⟨r₀, more⟩, hr, he⟩ := bind_ok he
    cases he
    obtain ⟨cl, cr, common⟩ := hp
    have entry : ∀ x, x ∉ left.entry ∧ x ∉ right.entry := fun x => by
      have hx := hentry x
      rw [Plan.entry, ExtTreeSet.mem_union_iff, not_or] at hx
      exact hx
    obtain ⟨sl, bl⟩ := ihl cl (fun x => (entry x).1) hl
    obtain ⟨sr, br⟩ := ihr cr (fun x => (entry x).2) hr
    have columns := fun x => Shows.mem_columns_join (x := x) sl sr
    rw [Plan.mentioned_join]
    refine ⟨(sl.join sr fun x ha hb => ?_).of_eq fun σ => ?_, fun x hx => ?_⟩
    · exact (common x ha hb).imp (bl x) (br x)
    · simp only [Set.mem_inter_iff, Set.mem_ofPred_eq, Body.SatisfiesAt, Plan.applied,
        List.mem_append, or_imp, forall_and]
    · rw [Plan.bound, ExtTreeSet.mem_union_iff] at hx
      exact (columns x).2 (hx.imp (bl x) (br x))

end Rows

namespace Plan
variable {b : Body} {p : Plan}

theorem exists_root (h : p.validate b = .ok ()) : ∃ before, p = .project before b.parameters := by
  obtain ⟨_, h, -⟩ := bind_ok h
  cases p with
  | project before xs =>
    refine ⟨before, ?_⟩
    rw [checkRoot] at h
    split at h
    · rename_i e
      rw [e]
    · cases h
  | _ => cases h

theorem mem_applied (h : p.validate b = .ok ()) {i : Nat} {k : Constraint}
    (hk : b.constraints[i]? = some k) : i ∈ p.applied := by
  obtain ⟨_, -, h⟩ := bind_ok h
  obtain ⟨_, -, h⟩ := bind_ok h
  obtain ⟨_, -, h⟩ := bind_ok h
  obtain ⟨_, h, -⟩ := bind_ok h
  rw [checkAll] at h
  split at h
  · cases h
  · rename_i hn
    rw [List.find?_eq_none] at hn
    have hi := hn (k, i) (by
      rw [List.mem_zipIdx_iff_getElem?]
      exact hk)
    simpa using hi

end Plan

/-- A compiled body gives the parameter tuples of the values that satisfy every constraint, whatever
plan it is compiled along. -/
theorem Compiled.ofPlan_exact {c : Catalog} {q : Query} {b : Body}
    (valid : q.validateBody b = .ok ()) (calls : b.constraints.forM c.checkCall = .ok ())
    (folds : ∀ k ∈ b.constraints, c.Folds k) {p : Plan} (coherent : p.Coherent b) {r : Compiled}
    (compiled : Compiled.ofPlan c b p = .ok r) (f : Facts c) :
    (∀ t, t ∈ r.expr.value f ↔ t ∈ b.meaning f) ∧
      ∀ p' r', p'.Coherent b → Compiled.ofPlan c b p' = .ok r' →
        ∀ t, t ∈ r'.expr.value f ↔ t ∈ r.expr.value f := by
  have fits : ∀ k ∈ b.constraints, Query.validateConstraint k = .ok () ∧ c.checkCall k = .ok () ∧
      c.Folds k := fun k hk =>
    ⟨(Query.validateBody_ok valid).2 k hk, forM_ok calls hk, folds k hk⟩
  have exact : ∀ p r, p.Coherent b → Compiled.ofPlan c b p = .ok r →
      ∀ t, t ∈ r.expr.value f ↔ t ∈ b.meaning f := by
    intro p r hp hr t
    obtain ⟨⟨⟩, hvalid, hr⟩ := bind_ok hr
    split at hr
    · cases hr
    rename_i hentry
    have none : p.entry = ∅ := by simpa using hentry
    have entry : ∀ x, x ∉ p.entry := by simp [none]
    obtain ⟨⟨rows, calls⟩, hrows, hr⟩ := bind_ok hr
    cases hr
    obtain ⟨shows, -⟩ := Rows.ofPlan_shows fits hp entry hrows
    have all : ∀ σ, b.SatisfiesAt f p.applied σ ↔
        ∀ i k, b.constraints[i]? = some k → b.Satisfies f i σ k := fun σ =>
      ⟨fun h i k hk => h i (Plan.mem_applied hvalid hk) k hk, fun h i _ k hk => h i k hk⟩
    obtain ⟨before, rfl⟩ := Plan.exists_root hvalid
    have columns := Rows.columns_ofPlan hrows
    rw [shows.rows, columns]
    simp only [Set.mem_ofPred_eq, all, Body.meaning]
  refine ⟨exact p r coherent compiled, fun p' r' hp' hr' t => ?_⟩
  rw [exact p' r' hp' hr', exact p r coherent compiled]

end Motif
