import Motif.Algebra.Rows
import Motif.Proofs.Meaning
import Motif.Proofs.Positions
import Motif.Proofs.Traversal

/-!
Relations with one variable for each column. A row gives the variables values if columns with the same
variable hold the same value; rows show a set of assignments if they are the values that the
assignments give the columns. Each way of making rows of others is followed by what it makes of the
assignments.
-/
set_option autoImplicit false
namespace Motif

def Assignment.ofRow (xs : List Variable) (u : Tuple) : Assignment :=
  fun x => u.getD (xs.idxOf x) .null

section ofRow
variable {xs : List Variable} {u : Tuple} {σ : Assignment}

theorem ofRow_map {x : Variable} (h : x ∈ xs) : Assignment.ofRow xs (xs.map σ) x = σ x := by
  have hi : xs.idxOf x < xs.length := List.idxOf_lt_length_of_mem h
  simp [Assignment.ofRow, hi]

theorem map_ofRow (h : ∃ σ : Assignment, xs.map σ = u) : xs.map (Assignment.ofRow xs u) = u := by
  obtain ⟨σ, rfl⟩ := h
  exact List.map_congr_left fun x hx => ofRow_map hx

/-- A row fits the variables if it is equal in the columns of each. -/
theorem equalIn_repeated_iff (hu : u.length = xs.length) :
    u.equalIn ((repeatedPositions xs).map fun g => g.map Fin.val) ↔
      ∃ σ : Assignment, xs.map σ = u := by
  constructor
  · intro h
    refine ⟨.ofRow xs u, List.ext_getElem (by simp [hu]) fun i hi hi' => ?_⟩
    have hx : i < xs.length := by simpa using hi
    have hj : xs.idxOf xs[i] < xs.length := List.idxOf_lt_length_of_mem (List.getElem_mem hx)
    have hget : xs[xs.idxOf xs[i]] = xs[i] := List.getElem_idxOf hj
    have same : u[xs.idxOf xs[i]]? = u[i]? := by
      by_cases hij : xs.idxOf xs[i] = i
      · rw [hij]
      · have hne : (⟨xs.idxOf xs[i], hj⟩ : Fin xs.length) ≠ ⟨i, hx⟩ := fun e =>
          hij (congrArg Fin.val e)
        obtain ⟨g, hg, hm, hm'⟩ := exists_repeated hne hget
        have eq := h _ (List.mem_map_of_mem hg)
        rw [eq _ (List.mem_map_of_mem hm), eq _ (List.mem_map_of_mem hm')]
    simp only [List.getElem_map, Assignment.ofRow, List.getD_eq_getElem?_getD]
    rw [same, List.getElem?_eq_getElem hi']
    rfl
  · rintro ⟨σ, rfl⟩ g' hg' n hn
    obtain ⟨g, hg, rfl⟩ := List.mem_map.1 hg'
    obtain ⟨i, hi, rfl⟩ := List.mem_map.1 hn
    cases g with
    | nil => cases hi
    | cons j rest =>
      have same : xs[i] = xs[j] := eq_of_mem_repeated hg hi (List.mem_cons_self ..)
      have hi' : (xs.map σ)[i.val]? = some (σ xs[i]) := by simp
      have hj' : (xs.map σ)[j.val]? = some (σ xs[j]) := by simp
      rw [hi', List.map_cons, List.headD_cons, hj', same]

end ofRow

theorem signature_ofFins {xs : List Variable} (is : List (Fin xs.length)) (σ : Assignment) :
    (Mask.ofFins is).signature (xs.map σ) = is.map fun i => σ (xs.get i) := by
  simp only [Mask.signature, Mask.ofFins, Tuple.project, List.filterMap_map]
  induction is with
  | nil => rfl
  | cons i rest ih => simp

namespace Rows
variable {c : Catalog} {f : Facts c} {expr : Algebra} {xs : List Variable}

theorem mem_columns_source {x : Variable} : x ∈ (source expr xs).columns ↔ x ∈ xs := by
  rw [source]
  split
  · rfl
  · simp only [List.mem_map]
    constructor
    · rintro ⟨i, -, rfl⟩
      exact List.getElem_mem i.isLt
    · intro h
      obtain ⟨i, hi, rfl⟩ := List.getElem_of_mem h
      obtain ⟨j, hj, e⟩ := exists_firstPosition ⟨i, hi⟩
      exact ⟨j, hj, e⟩

open Classical in
/-- The rows of a relation that fit the variables, with one column for each. -/
theorem value_source (hw : ∀ u ∈ expr.value f, u.length = xs.length) :
    (source expr xs).expr.value f =
      ((expr.value f).filter fun u => ∃ σ : Assignment, xs.map σ = u).map
        fun u => (source expr xs).columns.map (Assignment.ofRow xs u) := by
  have fits : ∀ u ∈ expr.value f,
      (u.equalIn ((repeatedPositions xs).map fun g => g.map Fin.val) ↔
        ∃ σ : Assignment, xs.map σ = u) := fun u hu => equalIn_repeated_iff (hw u hu)
  rw [source]
  split
  · rename_i h
    rw [h] at fits
    have all : ∀ u ∈ expr.value f, ∃ σ : Assignment, xs.map σ = u := fun u hu =>
      (fits u hu).1 fun g hg => by cases hg
    rw [Multiset.filter_eq_self.2 all]
    exact ((Multiset.map_congr rfl fun u hu => map_ofRow (all u hu)).trans
      (Multiset.map_id' _)).symm
  · simp only [Algebra.value]
    rw [Multiset.filter_congr fits]
    refine Multiset.map_congr rfl fun u hu => ?_
    rw [← map_ofRow (Multiset.mem_filter.1 hu).2, signature_ofFins, List.map_map,
      map_ofRow (Multiset.mem_filter.1 hu).2]
    rfl

end Rows

variable {c : Catalog} {f : Facts c}

def ToldBy (A : Set Variable) (S : Set Assignment) : Prop :=
  ∀ σ ∈ S, ∀ τ : Assignment, (∀ x ∈ A, τ x = σ x) → τ ∈ S

theorem ToldBy.mono {A B : Set Variable} {S : Set Assignment} (h : ToldBy A S) (hab : A ⊆ B) :
    ToldBy B S := fun σ hσ τ e => h σ hσ τ fun x hx => e x (hab hx)

theorem ToldBy.inter {A B : Set Variable} {S T : Set Assignment} (h : ToldBy A S)
    (h' : ToldBy B T) : ToldBy (A ∪ B) (S ∩ T) := fun σ hσ τ e =>
  ⟨h σ hσ.1 τ fun x hx => e x (.inl hx), h' σ hσ.2 τ fun x hx => e x (.inr hx)⟩

open Classical in
theorem exists_joined {A B : Set Variable} {σ τ : Assignment}
    (h : ∀ x ∈ A, x ∈ B → σ x = τ x) :
    ∃ ρ : Assignment, (∀ x ∈ A, ρ x = σ x) ∧ ∀ x ∈ B, ρ x = τ x := by
  refine ⟨fun x => if x ∈ A then σ x else τ x, fun x hx => if_pos hx, fun x hx => ?_⟩
  by_cases ha : x ∈ A
  · simp only [if_pos ha]
    exact h x ha hx
  · simp only [if_neg ha]

namespace Rows

/-- The rows are what the assignments of `S` give the columns. Whether an assignment is in `S` is up
to the variables in `A`. -/
structure Shows (f : Facts c) (r : Rows) (A : Set Variable) (S : Set Assignment) : Prop where
  rows : ∀ t, t ∈ r.expr.value f ↔ ∃ σ ∈ S, r.columns.map σ = t
  told : ToldBy A S
  columns : ∀ x ∈ r.columns, x ∈ A
  unit : r.expr.isUnit = true → r.columns = []

theorem position_eq {r : Rows} {x : Variable} {i : Fin r.columns.length}
    (h : r.position x = .ok i) : r.columns.get i = x := by
  rw [position] at h
  split at h
  · rename_i j hj
    cases h
    exact (List.finIdxOf?_eq_some_iff.1 hj).1
  · cases h

theorem mem_columns_of_position {r : Rows} {x : Variable} {i : Fin r.columns.length}
    (h : r.position x = .ok i) : x ∈ r.columns := by
  rw [← position_eq h]
  exact List.getElem_mem i.isLt

theorem map_position {r : Rows} {xs : List Variable} {is : List (Fin r.columns.length)}
    (h : xs.mapM r.position = .ok is) : is.map r.columns.get = xs := by
  have pairs := (forall₂_of_mapM h).imp fun _ _ => position_eq
  rw [← List.forall₂_eq_eq_eq]
  exact List.forall₂_map_left_iff.2 pairs.flip

theorem mem_columns_of_mapM {r : Rows} {xs : List Variable} {is : List (Fin r.columns.length)}
    (h : xs.mapM r.position = .ok is) {x : Variable} (hx : x ∈ xs) : x ∈ r.columns := by
  rw [← map_position h] at hx
  obtain ⟨i, -, rfl⟩ := List.mem_map.1 hx
  exact List.getElem_mem i.isLt

theorem signature_positions {r : Rows} {xs : List Variable} {is : List (Fin r.columns.length)}
    (h : xs.mapM r.position = .ok is) (σ : Assignment) :
    (Mask.ofFins is).signature (r.columns.map σ) = xs.map σ := by
  rw [signature_ofFins, ← map_position h, List.map_map]
  rfl

namespace Shows
variable {l r : Rows} {A B : Set Variable} {S T : Set Assignment}

theorem length (h : r.Shows f A S) {t : Tuple} (ht : t ∈ r.expr.value f) :
    t.length = r.columns.length := by
  obtain ⟨σ, -, rfl⟩ := (h.rows t).1 ht
  exact List.length_map _

theorem toUnit : Rows.unit.Shows f ∅ Set.univ where
  rows t := by
    simp only [Rows.unit, Algebra.unit, Algebra.value, Multiset.mem_coe, List.mem_singleton,
      Set.mem_univ, true_and, List.map_nil, exists_const]
    exact eq_comm
  told _ _ _ _ := trivial
  columns x hx := by cases hx
  unit _ := rfl

theorem mono (h : r.Shows f A S) (hab : A ⊆ B) : r.Shows f B S :=
  ⟨h.rows, h.told.mono hab, fun x hx => hab (h.columns x hx), h.unit⟩

theorem of_eq (h : r.Shows f A S) (hs : ∀ σ, σ ∈ S ↔ σ ∈ T) : r.Shows f A T := by
  rw [← Set.ext hs]
  exact h

theorem restrict (h : r.Shows f A S) {expr : Algebra} {p : Tuple → Prop}
    (hv : ∀ t, t ∈ expr.value f ↔ t ∈ r.expr.value f ∧ p t)
    (hp : ∀ σ ∈ S, p (r.columns.map σ) ↔ σ ∈ T) (hT : ToldBy A T) (hu : expr.isUnit = false) :
    Shows f ⟨expr, r.columns⟩ A (S ∩ T) where
  rows t := by
    rw [hv, h.rows]
    constructor
    · rintro ⟨⟨σ, hσ, rfl⟩, ht⟩
      exact ⟨σ, ⟨hσ, (hp σ hσ).1 ht⟩, rfl⟩
    · rintro ⟨σ, ⟨hσ, hτ⟩, rfl⟩
      exact ⟨⟨σ, hσ, rfl⟩, (hp σ hσ).2 hτ⟩
  told := by
    have told := h.told.inter hT
    rwa [Set.union_self] at told
  columns := h.columns
  unit hx := by
    rw [hu] at hx
    cases hx

theorem toSource {expr : Algebra} {xs : List Variable}
    (hw : ∀ u ∈ expr.value f, u.length = xs.length) (hu : expr.isUnit = false) :
    (source expr xs).Shows f {x | x ∈ xs} {σ | xs.map σ ∈ expr.value f} where
  rows t := by
    simp only [value_source hw, Multiset.mem_map, Multiset.mem_filter, Set.mem_ofPred_eq]
    constructor
    · rintro ⟨u, ⟨hm, hx⟩, rfl⟩
      refine ⟨.ofRow xs u, ?_, rfl⟩
      rw [map_ofRow hx]
      exact hm
    · rintro ⟨σ, hσ, rfl⟩
      refine ⟨xs.map σ, ⟨hσ, σ, rfl⟩, List.map_congr_left fun x hx => ?_⟩
      exact ofRow_map (mem_columns_source.1 hx)
  told σ hσ τ h := by
    have same : xs.map τ = xs.map σ := List.map_congr_left h
    simp only [Set.mem_ofPred_eq] at hσ ⊢
    rw [same]
    exact hσ
  columns x hx := mem_columns_source.1 hx
  unit hx := by
    rw [source] at hx
    split at hx
    · rw [hu] at hx
      cases hx
    · cases hx

theorem trim (h : r.Shows f A S) {xs : List Variable} {is : List (Fin r.columns.length)}
    (hm : xs.mapM r.position = .ok is) :
    Shows f ⟨.trim r.expr (.ofFins is), xs⟩ A S where
  rows t := by
    simp only [Algebra.value, Multiset.mem_map, h.rows]
    constructor
    · rintro ⟨_, ⟨σ, hσ, rfl⟩, rfl⟩
      exact ⟨σ, hσ, (signature_positions hm σ).symm⟩
    · rintro ⟨σ, hσ, rfl⟩
      exact ⟨_, ⟨σ, hσ, rfl⟩, signature_positions hm σ⟩
  told := h.told
  columns x hx := h.columns x (mem_columns_of_mapM hm hx)
  unit hx := by cases hx

end Shows
end Rows
end Motif
