import Mathlib.Order.Bounds.Defs
import Motif.Proofs.Normal

/-!
The normal form of a body. It says the same as the body whatever its constraints are read as, and it is
the same for all ways to write the equalities down. What is normal already stays as it is.
-/
set_option autoImplicit false
namespace Motif

open Merging (Equated rank)

def Merging.Ends (m : Merging) : Prop :=
  ∀ x, m.find (m.size + 1) x = some (m.rep x) ∧ m.get? (m.rep x) = none

namespace Constraint
variable {α : Type} {R : Constraint → Set (List α)} {σ : Variable → α} {f : Variable → Variable}
  {k : Constraint}

def isEquality : Constraint → Bool
  | .equal .. => true
  | _ => false

def places : Constraint → List Variable
  | aggregate _ _ xs aggregated result => xs ++ [aggregated, result]
  | k => k.vars

def form (k : Constraint) : Constraint := k.rename fun _ => ""

/-- The values satisfy the constraint where each form of constraint but equalities is read as a relation
of the values at its places. -/
def HoldsAs (R : Constraint → Set (List α)) (σ : Variable → α) : Constraint → Prop
  | equal l r => σ l = σ r
  | k => k.places.map σ ∈ R k.form

theorem holdsAs_rename : (k.rename f).HoldsAs R σ ↔ k.HoldsAs R (σ ∘ f) := by
  cases k <;> simp [HoldsAs, rename, form, places, vars, Function.comp_def]

theorem holdsAs_congr {τ : Variable → α} (h : ∀ x ∈ k.places, σ x = τ x) :
    k.HoldsAs R σ ↔ k.HoldsAs R τ := by
  cases k with
  | equal l r => rw [HoldsAs, HoldsAs, h l (by simp [places, vars]), h r (by simp [places, vars])]
  | _ => simp only [HoldsAs, List.map_congr_left h]

theorem rename_id : k.rename id = k := by
  cases k <;> simp [rename]

theorem isEquality_rename : (k.rename f).isEquality = k.isEquality := by
  cases k <;> rfl

end Constraint

section
variable {α : Type} [DecidableEq α] {l : List α}

theorem eraseDups_concat (l : List α) (a : α) :
    (l ++ [a]).eraseDups = if a ∈ l then l.eraseDups else l.eraseDups ++ [a] := by
  rw [List.eraseDups_append]
  split
  · rename_i ha
    simp [List.removeAll, ha]
  · rename_i ha
    simp [List.removeAll, ha, List.eraseDups_cons]

theorem nodup_eraseDups (l : List α) : l.eraseDups.Nodup := by
  induction l using List.reverseRecOn with
  | nil => exact List.nodup_nil
  | append_singleton l a ih =>
    rw [eraseDups_concat]
    split
    · exact ih
    · rename_i ha
      exact ih.append (List.nodup_singleton a) (by simpa using ha)

theorem eraseDups_of_nodup (h : l.Nodup) : l.eraseDups = l := by
  induction l using List.reverseRecOn with
  | nil => rfl
  | append_singleton l a ih =>
    obtain ⟨hl, -, apart⟩ := List.nodup_append.1 h
    rw [eraseDups_concat, if_neg fun ha => apart a ha a (List.mem_singleton_self a) rfl, ih hl]

theorem eraseDups_filter (p : α → Bool) (l : List α) : (l.filter p).eraseDups =
    (l.zipIdx.filter fun a => p a.1 && decide (a.1 ∉ l.take a.2)).map Prod.fst := by
  induction l using List.reverseRecOn with
  | nil => rfl
  | append_singleton l a ih =>
    have before : l.zipIdx.filter (fun b => p b.1 && decide (b.1 ∉ (l ++ [a]).take b.2)) =
        l.zipIdx.filter fun b => p b.1 && decide (b.1 ∉ l.take b.2) := by
      refine List.filter_congr fun b hb => ?_
      have lt := (List.mem_zipIdx' hb).1
      rw [List.take_append_of_le_length lt.le]
    rw [List.zipIdx_append, List.filter_append, List.filter_append, List.map_append, before, ← ih]
    cases ha : p a with
    | false => simp [ha]
    | true =>
      have last : [a].filter p = [a] := by simp [ha]
      rw [last, eraseDups_concat]
      by_cases hl : a ∈ l <;> simp [ha, hl]

end

namespace Body
variable {b : Body} {α : Type} {R : Constraint → Set (List α)} {σ : Variable → α} {x y : Variable}

def Connects (b : Body) : Variable → Variable → Prop :=
  Relation.EqvGen (Equated b.constraints)

theorem Connects.eq_or_equated (h : b.Connects x y) :
    x = y ∨ ∀ z, z = x ∨ z = y → ∃ k ∈ b.constraints, k.isEquality = true ∧ z ∈ k.vars := by
  induction h with
  | rel x y hxy =>
    refine .inr fun z hz => ⟨_, hxy, rfl, ?_⟩
    simpa [Constraint.vars] using hz
  | refl x => exact .inl rfl
  | symm x y _ ih => exact ih.imp Eq.symm fun h z hz => h z hz.symm
  | trans x y z _ _ ihx ihy =>
    rcases ihx with rfl | hx
    · exact ihy
    · rcases ihy with rfl | hy
      · exact .inr hx
      · exact .inr fun w hw => hw.elim (fun e => hx w (.inl e)) fun e => hy w (.inr e)

theorem connects_rep (b : Body) (x : Variable) : b.Connects x (b.merging.rep x) :=
  b.merges_merging.within x

theorem rep_eq_self (h : ∀ k ∈ b.constraints, k.isEquality = true → x ∉ k.vars) :
    b.merging.rep x = x := by
  rcases (b.connects_rep x).eq_or_equated with e | equated
  · exact e.symm
  · obtain ⟨k, hk, he, hx⟩ := equated x (.inl rfl)
    exact absurd hx (h k hk he)

theorem rep_of_not_mem_vars (h : x ∉ b.vars) : b.merging.rep x = x :=
  rep_eq_self fun k hk _ hx => h (mem_vars.2 (.inr ⟨k, hk, hx⟩))

/-- The values satisfy every constraint of the body. -/
def HoldsAs (b : Body) (R : Constraint → Set (List α)) (σ : Variable → α) : Prop :=
  ∀ k ∈ b.constraints, k.HoldsAs R σ

/-- The values of the parameters where the body holds. -/
def rowsAs (b : Body) (R : Constraint → Set (List α)) : Set (List α) :=
  {t | ∃ σ, b.HoldsAs R σ ∧ b.parameters.map σ = t}

theorem HoldsAs.rep (h : b.HoldsAs R σ) (x : Variable) : σ (b.merging.rep x) = σ x :=
  b.merges_merging.respects (fun l r hk => h (.equal l r) hk) x

theorem holdsAs_normalize : b.normalize.HoldsAs R σ ↔ b.HoldsAs R (σ ∘ b.merging.rep) := by
  simp only [HoldsAs, ← Constraint.holdsAs_rename]
  exact forall_normalize fun x => rfl

theorem holdsAs_iff : b.HoldsAs R σ ↔
    (∀ x ∈ b.vars, σ x = σ (b.merging.rep x)) ∧ b.normalize.HoldsAs R σ := by
  constructor
  · intro h
    have same : σ ∘ b.merging.rep = σ := funext h.rep
    exact ⟨fun x _ => (h.rep x).symm, holdsAs_normalize.2 (same.symm ▸ h)⟩
  · rintro ⟨same, h⟩ k hk
    refine (Constraint.holdsAs_congr fun x _ => ?_).1 (holdsAs_normalize.1 h k hk)
    by_cases hx : x ∈ b.vars
    · exact (same x hx).symm
    · exact congrArg σ (rep_of_not_mem_vars hx)

theorem rowsAs_normalize : b.normalize.rowsAs R = b.rowsAs R := by
  ext t
  constructor
  · rintro ⟨σ, hσ, rfl⟩
    exact ⟨σ ∘ b.merging.rep, holdsAs_normalize.1 hσ, by rw [normalize, List.map_map]⟩
  · rintro ⟨σ, hσ, rfl⟩
    refine ⟨σ, (holdsAs_iff.1 hσ).2, ?_⟩
    rw [normalize, List.map_map]
    exact List.map_congr_left fun x _ => hσ.rep x

/-- A body and its normal form hold of the same values, as far as a variable has the value of the one
that stands for it, and have the same rows of parameters, whatever the constraints are read as. After any
number of constraints the links from each variable come to an end. -/
theorem normalize_preserves (b : Body) (R : Constraint → Set (List α)) :
    (∀ σ, b.HoldsAs R σ ↔
      (∀ x ∈ b.vars, σ x = σ (b.merging.rep x)) ∧ b.normalize.HoldsAs R σ) ∧
    b.normalize.rowsAs R = b.rowsAs R ∧
    ∀ n, (Merging.ofConstraints b.parameters (b.constraints.take n)).Ends :=
  ⟨fun _ => holdsAs_iff, rowsAs_normalize, fun n =>
    (Merging.merges_ofConstraints b.parameters (b.constraints.take n)).climbs.find_rep⟩

-- The variables of a chain of equalities all become the smallest parameter among them.
example : (⟨["b", "d"], [.equal "a" "c", .equal "d" "c", .holds (.feature "f") ["a", "e"],
      .equal "c" "b", .holds (.feature "f") ["d", "e"]]⟩ : Body).normalize =
    ⟨["b", "b"], [.holds (.feature "f") ["b", "e"]]⟩ := by
  decide

/-! What stands for a variable. -/

theorem rank_rep_le (h : b.Connects x y) :
    rank b.parameters (b.merging.rep x) ≤ rank b.parameters y :=
  b.merges_merging.rank_rep_le h

theorem isLeast_rep_of_parameter (hy : y ∈ b.parameters) (hxy : b.Connects x y) :
    IsLeast {z | z ∈ b.parameters ∧ b.Connects x z} (b.merging.rep x) := by
  have parameter : b.merging.rep x ∈ b.parameters := by
    rcases Merging.rank_le_rank_iff.1 (rank_rep_le hxy) with h | h
    · exact h.1
    · exact h.1.2 hy
  refine ⟨⟨parameter, b.connects_rep x⟩, fun z hz => ?_⟩
  rcases Merging.rank_le_rank_iff.1 (rank_rep_le hz.2) with h | h
  · exact absurd hz.1 h.2
  · exact h.2

theorem isLeast_rep_of_no_parameter (none : ∀ y ∈ b.parameters, ¬b.Connects x y) :
    IsLeast {z | b.Connects x z} (b.merging.rep x) := by
  refine ⟨b.connects_rep x, fun z hz => ?_⟩
  rcases Merging.rank_le_rank_iff.1 (rank_rep_le hz) with h | h
  · exact absurd (b.connects_rep x) (none _ h.1)
  · exact h.2

/-- What stands for a variable depends only on what is connected and on which variables are parameters. -/
theorem rep_congr {b' : Body} (parameters : ∀ x, x ∈ b'.parameters ↔ x ∈ b.parameters)
    (connects : ∀ x y, b'.Connects x y ↔ b.Connects x y) : b'.merging.rep = b.merging.rep := by
  have same : rank b'.parameters = rank b.parameters := by
    funext x
    have same : b'.parameters.contains x = b.parameters.contains x := by
      rw [Bool.eq_iff_iff, List.contains_iff_mem, List.contains_iff_mem]
      exact parameters x
    rw [rank, rank, same]
  funext x
  suffices rank b.parameters (b'.merging.rep x) = rank b.parameters (b.merging.rep x) from
    Merging.rank_injective this
  refine le_antisymm ?_ ?_
  · rw [← same]
    exact rank_rep_le ((connects x _).2 (b.connects_rep x))
  · exact rank_rep_le ((connects x _).1 (b'.connects_rep x))

theorem Connects.of_equalities {b' : Body} (h : ∀ l r, Equated b.constraints l r →
    Equated b'.constraints l r ∨ Equated b'.constraints r l) (hxy : b.Connects x y) :
    b'.Connects x y := by
  induction hxy with
  | rel x y hxy => exact (h x y hxy).elim (.rel x y) fun hyx => (Relation.EqvGen.rel y x hyx).symm
  | refl x => exact .refl x
  | symm x y _ ih => exact Relation.EqvGen.symm x y ih
  | trans x y z _ _ ihx ihy => exact Relation.EqvGen.trans x y z ihx ihy

/-! What is left of the constraints. -/

structure IsNormal (b : Body) : Prop where
  noEquality : ∀ k ∈ b.constraints, k.isEquality = false
  nodup : b.constraints.Nodup

theorem isTrivial_rename {k : Constraint} (hk : k ∈ b.constraints) :
    (k.rename b.merging.rep).isTrivial = k.isEquality := by
  cases k with
  | equal l r => exact decide_eq_true (b.merges_merging.same l r hk)
  | _ => rfl

def renamed (b : Body) : List Constraint := b.constraints.map (Constraint.rename b.merging.rep)

theorem constraints_normalize (b : Body) : b.normalize.constraints =
    (b.renamed.zipIdx.filter fun k => !k.1.isEquality && decide (k.1 ∉ b.renamed.take k.2)).map
      Prod.fst := by
  have kept : b.renamed.filter (fun k => !k.isTrivial) = b.renamed.filter fun k => !k.isEquality := by
    refine List.filter_congr fun k hk => ?_
    obtain ⟨k, hk', rfl⟩ := List.mem_map.1 hk
    rw [isTrivial_rename hk', Constraint.isEquality_rename]
  rw [← eraseDups_filter (fun k => !k.isEquality) b.renamed, ← kept]
  rfl

theorem isNormal_normalize (b : Body) : b.normalize.IsNormal where
  noEquality k hk := by
    obtain ⟨⟨k, hk', rfl⟩, ht⟩ := mem_normalize.1 hk
    rw [Constraint.isEquality_rename, ← isTrivial_rename hk', ht]
  nodup := nodup_eraseDups _

theorem IsNormal.normalize_eq (h : b.IsNormal) : b.normalize = b := by
  have rep : b.merging.rep = id := funext fun x =>
    rep_eq_self fun k hk he => absurd he (by simp [h.noEquality k hk])
  have rename : Constraint.rename b.merging.rep = id := funext fun k => by
    rw [rep, Constraint.rename_id, id]
  have kept : b.constraints.filter (fun k => !k.isTrivial) = b.constraints := by
    refine List.filter_eq_self.2 fun k hk => ?_
    rw [← Constraint.rename_id (k := k), ← rep, isTrivial_rename hk, h.noEquality k hk]
    rfl
  rw [normalize, rename, List.map_id, kept, eraseDups_of_nodup h.nodup, rep, List.map_id]

/-- What stands for a variable is the smallest parameter connected with it, or the smallest variable if
there is none, however the equalities are written. The normal form has no equality and no constraint
twice, keeps the others where they come first, has as many parameters as the body, and is its own normal
form. -/
theorem normalize_canonical (b : Body) :
    (∀ x, (∀ y ∈ b.parameters, b.Connects x y →
        IsLeast {z | z ∈ b.parameters ∧ b.Connects x z} (b.merging.rep x)) ∧
      ((∀ y ∈ b.parameters, ¬b.Connects x y) →
        IsLeast {z | b.Connects x z} (b.merging.rep x))) ∧
    (∀ b' : Body, (∀ x, x ∈ b'.parameters ↔ x ∈ b.parameters) →
      (∀ l r, (Equated b'.constraints l r ∨ Equated b'.constraints r l) ↔
        (Equated b.constraints l r ∨ Equated b.constraints r l)) →
      b'.merging.rep = b.merging.rep) ∧
    (∀ k ∈ b.normalize.constraints, k.isEquality = false) ∧
    b.normalize.constraints.Nodup ∧
    b.normalize.constraints =
      (b.renamed.zipIdx.filter fun k => !k.1.isEquality && decide (k.1 ∉ b.renamed.take k.2)).map
        Prod.fst ∧
    b.normalize.parameters = b.parameters.map b.merging.rep ∧
    b.normalize.parameters.length = b.parameters.length ∧
    b.normalize.normalize = b.normalize := by
  have normal := b.isNormal_normalize
  refine ⟨fun x => ⟨fun y => isLeast_rep_of_parameter, isLeast_rep_of_no_parameter⟩, ?_,
    normal.noEquality, normal.nodup, b.constraints_normalize, rfl, length_parameters_normalize,
    normal.normalize_eq⟩
  intro b' parameters equalities
  refine rep_congr parameters fun x y => ⟨?_, ?_⟩
  · exact Connects.of_equalities fun l r h => (equalities l r).1 (.inl h)
  · exact Connects.of_equalities fun l r h => (equalities l r).2 (.inl h)

end Body

end Motif
