import Mathlib.Data.List.FinRange
import Mathlib.Data.Set.Basic
import Mathlib.Data.Set.Insert
import Motif.Proofs.Algebra.Shows

set_option autoImplicit false
namespace Motif
namespace Rows

variable {c : Catalog} {f : Facts c} {l r : Rows}

theorem mem_shared {p : Fin l.columns.length × Fin r.columns.length} :
    p ∈ l.shared r ↔ r.columns.finIdxOf? l.columns[p.1] = some p.2 := by
  simp only [shared, List.mem_filterMap, List.mem_finRange, true_and, Option.map_eq_some_iff]
  constructor
  · rintro ⟨i, j, h, rfl⟩
    exact h
  · intro h
    exact ⟨p.1, p.2, h, rfl⟩

theorem column_of_mem_shared {p : Fin l.columns.length × Fin r.columns.length}
    (h : p ∈ l.shared r) : r.columns[p.2] = l.columns[p.1] :=
  (List.finIdxOf?_eq_some_iff.1 (mem_shared.1 h)).1

theorem exists_shared {x : Variable} (hl : x ∈ l.columns) (hr : x ∈ r.columns) :
    ∃ p ∈ l.shared r, l.columns[p.1] = x := by
  obtain ⟨i, hi, rfl⟩ := List.getElem_of_mem hl
  cases h : r.columns.finIdxOf? l.columns[i] with
  | none => exact absurd hr (List.finIdxOf?_eq_none_iff.1 h)
  | some j => exact ⟨(⟨i, hi⟩, j), mem_shared.2 h, rfl⟩

theorem partners_iff {σ τ : Assignment} :
    (Mask.ofFins ((l.shared r).map Prod.snd)).signature (r.columns.map τ) =
        (Mask.ofFins ((l.shared r).map Prod.fst)).signature (l.columns.map σ) ↔
      ∀ x ∈ l.columns, x ∈ r.columns → σ x = τ x := by
  rw [signature_ofFins, signature_ofFins, List.map_map, List.map_map, List.map_inj_left]
  constructor
  · intro h x hl hr
    obtain ⟨p, hp, rfl⟩ := exists_shared hl hr
    have same := h p hp
    change τ r.columns[p.2] = σ l.columns[p.1] at same
    rw [column_of_mem_shared hp] at same
    exact same.symm
  · intro h p hp
    change τ r.columns[p.2] = σ l.columns[p.1]
    rw [column_of_mem_shared hp]
    refine (h _ (List.getElem_mem p.1.isLt) ?_).symm
    rw [← Fin.getElem_fin, ← column_of_mem_shared hp]
    exact List.getElem_mem p.2.isLt

theorem signature_complement {xs : List Variable} (is : List (Fin xs.length)) (σ : Assignment) :
    (Mask.ofFins is).complement.signature (xs.map σ) =
      ((List.finRange xs.length).filter fun j => j ∉ is).map fun j => σ (xs.get j) := by
  have rest : (Mask.ofFins is).complement.indices =
      ((List.finRange xs.length).filter fun j => j ∉ is).map Fin.val := by
    simp only [Mask.complement, Mask.ofFins]
    rw [← List.map_coe_finRange_eq_range, List.filter_map]
    refine congrArg _ (List.filter_congr fun j _ => ?_)
    have same : j.val ∈ is.map Fin.val ↔ j ∈ is := List.mem_map_of_injective Fin.val_injective
    exact decide_eq_decide.2 (not_congr same)
  rw [← signature_ofFins, Mask.signature, Mask.signature, rest]
  rfl

namespace Shows
variable {A B : Set Variable} {S T : Set Assignment}

theorem exists_of_unit (h : l.Shows f A S) (hu : l.expr.isUnit = true) : ∃ σ, σ ∈ S := by
  have one : ∃ t, t ∈ l.expr.value f := by
    cases he : l.expr with
    | constant rows arity =>
      rw [he] at hu
      cases arity with
      | zero =>
        have len : rows.length = 1 := by simpa [Algebra.isUnit] using hu
        exact ⟨rows[0], List.getElem_mem _⟩
      | succ n => cases hu
    | _ =>
      rw [he] at hu
      cases hu
  obtain ⟨t, ht⟩ := one
  obtain ⟨σ, hσ, -⟩ := (h.rows t).1 ht
  exact ⟨σ, hσ⟩

theorem exists_both (hl : l.Shows f A S) (hr : r.Shows f B T) {σ τ : Assignment} (hσ : σ ∈ S)
    (hτ : τ ∈ T) (h : ∀ x ∈ A, x ∈ B → σ x = τ x) :
    ∃ ρ ∈ S ∩ T, l.columns.map ρ = l.columns.map σ ∧ r.columns.map ρ = r.columns.map τ := by
  obtain ⟨ρ, ha, hb⟩ := exists_joined h
  refine ⟨ρ, ⟨hl.told σ hσ ρ ha, hr.told τ hτ ρ hb⟩, ?_, ?_⟩
  · exact List.map_congr_left fun x hx => ha x (hl.columns x hx)
  · exact List.map_congr_left fun x hx => hb x (hr.columns x hx)

theorem mem_columns_join (hl : l.Shows f A S) (hr : r.Shows f B T) {x : Variable} :
    x ∈ (l.join r).columns ↔ x ∈ l.columns ∨ x ∈ r.columns := by
  rw [join]
  split
  · rename_i hu
    rw [hl.unit hu]
    simp
  · split
    · rename_i hu
      rw [hr.unit hu]
      simp
    · simp only [List.mem_append, List.mem_map, List.mem_filter, List.mem_finRange, true_and]
      constructor
      · rintro (h | ⟨j, -, rfl⟩)
        · exact .inl h
        · exact .inr (List.getElem_mem j.isLt)
      · rintro (h | h)
        · exact .inl h
        · obtain ⟨j, hj, rfl⟩ := List.getElem_of_mem h
          by_cases hm : (⟨j, hj⟩ : Fin r.columns.length) ∈ (l.shared r).map Prod.snd
          · obtain ⟨⟨i, k⟩, hp, e⟩ := List.mem_map.1 hm
            cases e
            have same : r.columns[j] = l.columns[i] := column_of_mem_shared hp
            rw [same]
            exact .inl (List.getElem_mem i.isLt)
          · exact .inr ⟨⟨j, hj⟩, by simpa using hm, rfl⟩

theorem join (hl : l.Shows f A S) (hr : r.Shows f B T)
    (h : ∀ x ∈ A, x ∈ B → x ∈ l.columns ∧ x ∈ r.columns) :
    (l.join r).Shows f (A ∪ B) (S ∩ T) := by
  have columns : ∀ x ∈ (l.join r).columns, x ∈ A ∪ B := fun x hx =>
    ((mem_columns_join hl hr).1 hx).imp (hl.columns x) (hr.columns x)
  have told := hl.told.inter hr.told
  rw [Rows.join] at columns ⊢
  split at columns
  · rename_i hu
    rw [if_pos hu]
    refine ⟨fun t => ?_, told, columns, hr.unit⟩
    obtain ⟨σ, hσ⟩ := exists_of_unit hl hu
    rw [hr.rows]
    constructor
    · rintro ⟨τ, hτ, rfl⟩
      obtain ⟨ρ, hρ, -, e⟩ := exists_both hl hr hσ hτ fun x ha hb => by
        have hx := (h x ha hb).1
        rw [hl.unit hu] at hx
        cases hx
      exact ⟨ρ, hρ, e⟩
    · rintro ⟨ρ, hρ, rfl⟩
      exact ⟨ρ, hρ.2, rfl⟩
  · rename_i hu
    rw [if_neg hu]
    split at columns
    · rename_i hv
      rw [if_pos hv]
      refine ⟨fun t => ?_, told, columns, hl.unit⟩
      obtain ⟨τ, hτ⟩ := exists_of_unit hr hv
      rw [hl.rows]
      constructor
      · rintro ⟨σ, hσ, rfl⟩
        obtain ⟨ρ, hρ, e, -⟩ := exists_both hl hr hσ hτ fun x ha hb => by
          have hx := (h x ha hb).2
          rw [hr.unit hv] at hx
          cases hx
        exact ⟨ρ, hρ, e⟩
      · rintro ⟨ρ, hρ, rfl⟩
        exact ⟨ρ, hρ.1, rfl⟩
    · rename_i hv
      rw [if_neg hv]
      refine ⟨fun t => ?_, told, columns, fun hx => by cases hx⟩
      simp only [Algebra.value, mem_naturalJoin, List.map_append, List.map_map]
      constructor
      · rintro ⟨a, ha, b, hb, same, rfl⟩
        obtain ⟨σ, hσ, rfl⟩ := (hl.rows a).1 ha
        obtain ⟨τ, hτ, rfl⟩ := (hr.rows b).1 hb
        obtain ⟨ρ, hρ, el, er⟩ := exists_both hl hr hσ hτ fun x hxa hxb =>
          partners_iff.1 same x (h x hxa hxb).1 (h x hxa hxb).2
        refine ⟨ρ, hρ, ?_⟩
        rw [← el, ← er, signature_complement]
        rfl
      · rintro ⟨ρ, hρ, rfl⟩
        refine ⟨_, (hl.rows _).2 ⟨ρ, hρ.1, rfl⟩, _, (hr.rows _).2 ⟨ρ, hρ.2, rfl⟩,
          partners_iff.2 fun _ _ _ => rfl, ?_⟩
        rw [signature_complement]
        rfl

/-- The rows without a partner are those whose assignment agrees with none of the other side. -/
theorem without (hl : l.Shows f A S) (hr : r.Shows f B T) :
    (l.without r).Shows f A
      (S ∩ {σ | ¬∃ τ ∈ T, ∀ x ∈ l.columns, x ∈ r.columns → σ x = τ x}) := by
  refine hl.restrict (p := fun t => partners (.ofFins ((l.shared r).map Prod.fst))
    (.ofFins ((l.shared r).map Prod.snd)) (r.expr.value f) t = 0) (fun t => ?_) (fun σ _ => ?_) ?_
    rfl
  · simp only [Algebra.value, matching, Multiset.mem_filter, iff_true]
  · rw [partners_eq_zero_iff, Set.mem_ofPred_eq]
    constructor
    · rintro h ⟨τ, hτ, e⟩
      exact h _ ((hr.rows _).2 ⟨τ, hτ, rfl⟩) (partners_iff.2 e)
    · intro h b hb e
      obtain ⟨τ, hτ, rfl⟩ := (hr.rows b).1 hb
      exact h ⟨τ, hτ, partners_iff.1 e⟩
  · rintro σ hσ τ e ⟨υ, hυ, agree⟩
    refine hσ ⟨υ, hυ, fun x hx hx' => ?_⟩
    rw [← e x (hl.columns x hx)]
    exact agree x hx hx'

end Shows
end Rows
end Motif
