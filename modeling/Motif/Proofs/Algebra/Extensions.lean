import Motif.Proofs.Algebra.Joins

set_option autoImplicit false
namespace Motif

theorem signature_first {u v : Tuple} {n w : Nat} (hn : n ≤ w) (hu : u.length = n) :
    (Mask.first n w hn).signature (u ++ v) = u := by
  subst hu
  have same : Tuple.project (u ++ v) (List.range u.length) =
      Tuple.project u (List.range u.length) := by
    apply List.filterMap_congr
    intro i hi
    exact List.getElem?_append_left (List.mem_range.1 hi)
  exact same.trans (Tuple.project_range u)

namespace Rows
variable {c : Catalog} {f : Facts c} {r r' : Rows} {A : Set Variable} {S : Set Assignment}

theorem getElem?_position {x : Variable} {i : Fin r.columns.length} (h : r.position x = .ok i)
    (σ : Assignment) : (r.columns.map σ)[i.val]? = some (σ x) := by
  rw [← position_eq h]
  simp

theorem getD_positions {xs : List Variable} {is : List (Fin r.columns.length)}
    (h : xs.mapM r.position = .ok is) (σ : Assignment) :
    ((is.map Fin.val).map fun i => (r.columns.map σ).getD i .null) = xs.map σ := by
  rw [← map_position h, List.map_map, List.map_map]
  refine List.map_congr_left fun i _ => ?_
  simp

theorem columns_select {xs : List Variable} (hs : r.select xs = .ok r') : r'.columns = xs := by
  obtain ⟨is, -, e⟩ := bind_ok hs
  cases e
  rfl

theorem columns_project {xs : List Variable} (hs : r.project xs = .ok r') : r'.columns = xs := by
  obtain ⟨is, hm, e⟩ := bind_ok hs
  cases e
  split
  · rename_i hi
    have all : is.map Fin.val = List.range r.columns.length := by
      simpa [Mask.isIdentity, Mask.ofFins] using hi
    have whole : is = List.finRange r.columns.length := by
      apply List.map_injective_iff.2 Fin.val_injective
      rw [all, List.map_coe_finRange_eq_range]
    rw [← map_position hm, whole]
    exact (List.map_getElem_finRange r.columns).symm
  · rfl

namespace Shows

theorem select (h : r.Shows f A S) {xs : List Variable} (hs : r.select xs = .ok r') :
    r'.Shows f A S := by
  obtain ⟨is, hm, e⟩ := bind_ok hs
  cases e
  exact h.trim hm

theorem project (h : r.Shows f A S) {xs : List Variable} (hs : r.project xs = .ok r') :
    r'.Shows f A S := by
  obtain ⟨is, hm, e⟩ := bind_ok hs
  cases e
  split
  · exact h
  · exact h.trim hm

theorem append (h : r.Shows f A S) {expr : Algebra} {g : Tuple → Option Value} {y : Variable}
    (hv : ∀ t, t ∈ expr.value f ↔ ∃ u ∈ r.expr.value f, ∃ v, g u = some v ∧ t = u ++ [v])
    (hu : expr.isUnit = false) (hy : y ∉ A) :
    Shows f ⟨expr, r.columns ++ [y]⟩ (A ∪ {y}) (S ∩ {σ | g (r.columns.map σ) = some (σ y)}) where
  rows t := by
    rw [hv]
    constructor
    · rintro ⟨u, hm, v, hg, rfl⟩
      obtain ⟨σ, hσ, rfl⟩ := (h.rows u).1 hm
      have old : ∀ x ∈ A, Function.update σ y v x = σ x := by
        intro x hx
        rw [Function.update_of_ne]
        rintro rfl
        exact hy hx
      have same : r.columns.map (Function.update σ y v) = r.columns.map σ :=
        List.map_congr_left fun x hx => old x (h.columns x hx)
      refine ⟨Function.update σ y v, ⟨h.told σ hσ _ old, ?_⟩, ?_⟩
      · rw [Set.mem_ofPred_eq, same, Function.update_self]
        exact hg
      · rw [List.map_append, same, List.map_singleton, Function.update_self]
    · rintro ⟨σ, ⟨hσ, hg⟩, rfl⟩
      exact ⟨_, (h.rows _).2 ⟨σ, hσ, rfl⟩, σ y, hg, by simp⟩
  told := by
    rintro σ ⟨hσ, hg⟩ τ e
    have same : r.columns.map τ = r.columns.map σ :=
      List.map_congr_left fun x hx => e x (.inl (h.columns x hx))
    refine ⟨h.told σ hσ τ fun x hx => e x (.inl hx), ?_⟩
    rw [Set.mem_ofPred_eq, same, e y (.inr rfl)]
    exact hg
  columns x hx := by
    rcases List.mem_append.1 hx with hx | hx
    · exact .inl (h.columns x hx)
    · exact .inr (List.mem_singleton.1 hx)
  unit hx := by
    rw [hu] at hx
    cases hx

/-- Rows widened by a value computed from them that a column must hold already. -/
theorem unify (h : r.Shows f A S) {expr : Algebra} {g : Tuple → Option Value} {y z : Variable}
    (hv : ∀ t, t ∈ expr.value f ↔ ∃ u ∈ r.expr.value f, ∃ v, g u = some v ∧ t = u ++ [v])
    (hy : y ∈ r.columns) (he : unifyLast ⟨expr, r.columns ++ [z]⟩ y = .ok r') :
    r'.Shows f A (S ∩ {σ | g (r.columns.map σ) = some (σ y)}) ∧ r'.columns = r.columns := by
  obtain ⟨i, hi, e⟩ := bind_ok he
  cases e
  have hcol := position_eq hi
  have hlt : i.val < r.columns.length := by
    by_contra hn
    rw [position] at hi
    split at hi
    · rename_i j hj
      cases hi
      have first := (List.finIdxOf?_eq_some_iff.1 hj).2
      obtain ⟨k, hk, e⟩ := List.getElem_of_mem hy
      have hk' : k < (r.columns ++ [z]).length := by simp; omega
      refine first ⟨k, hk'⟩ (show k < i.val by omega) ?_
      rw [Fin.getElem_fin, List.getElem_append_left hk]
      exact e
    · cases hi
  have hget : r.columns[i.val] = y := by
    rw [← hcol]
    exact (List.getElem_append_left hlt).symm
  have last : (⟨expr, r.columns ++ [z]⟩ : Rows).arity - 1 = r.columns.length := by
    simp [Rows.arity]
  refine ⟨?_, by simp⟩
  have drop : (r.columns ++ [z]).dropLast = r.columns := by simp
  simp only [drop]
  refine h.restrict (p := fun u => g u = u[i.val]?) (fun t => ?_) (fun σ hσ => ?_) ?_ rfl
  · simp only [Algebra.value, Multiset.mem_map, Multiset.mem_filter, hv, last]
    constructor
    · rintro ⟨_, ⟨⟨u, hm, v, hg, rfl⟩, heq⟩, rfl⟩
      have len := h.length hm
      have same := heq _ List.mem_cons_self r.columns.length (by simp)
      have hlast : (u ++ [v])[r.columns.length]? = some v := by
        rw [← len]
        exact List.getElem?_concat_length
      have hfirst : (u ++ [v])[i.val]? = u[i.val]? := List.getElem?_append_left (by omega)
      rw [List.headD_cons, hlast, hfirst] at same
      rw [signature_first _ len]
      exact ⟨hm, hg.trans same⟩
    · rintro ⟨hm, hg⟩
      have len := h.length hm
      have hv' : g t = some t[i.val] := by
        rw [hg, List.getElem?_eq_getElem (by omega)]
      refine ⟨t ++ [t[i.val]], ⟨⟨t, hm, _, hv', rfl⟩, ?_⟩, signature_first _ len⟩
      intro l hl n hn
      rw [List.mem_singleton] at hl
      subst hl
      rw [List.headD_cons]
      rcases List.mem_cons.1 hn with rfl | hn
      · rfl
      · have hfirst : (t ++ [t[i.val]])[i.val]? = some t[i.val] := by
          rw [List.getElem?_append_left (by omega), List.getElem?_eq_getElem (by omega)]
        rw [hfirst, List.mem_singleton.1 hn, ← len]
        exact List.getElem?_concat_length
  · rw [Set.mem_ofPred_eq, List.getElem?_map, List.getElem?_eq_getElem hlt, hget]
    rfl
  · intro σ hσ τ e
    have same : r.columns.map τ = r.columns.map σ :=
      List.map_congr_left fun x hx => e x (h.columns x hx)
    rw [Set.mem_ofPred_eq, same, e y (h.columns y hy)]
    exact hσ

end Shows
end Rows
end Motif
