import Mathlib.Data.List.Nodup
import Mathlib.Tactic.Common
import Motif.Mask

set_option autoImplicit false
namespace Motif
variable {α : Type}

theorem mem_numbered {l : List α} {p : Fin l.length × α} : p ∈ numbered l ↔ l[p.1] = p.2 := by
  rw [numbered, List.mem_iff_getElem]
  constructor
  · rintro ⟨i, hi, rfl⟩
    simp
  · intro h
    refine ⟨p.1, by simp, ?_⟩
    apply Prod.ext
    · simp
    · simpa using h

variable [DecidableEq α] {l : List α}

theorem mem_positionsOf {a : α} {i : Fin l.length} : i ∈ positionsOf l a ↔ l[i] = a := by
  simp only [positionsOf, List.mem_map, List.mem_filter, mem_numbered, decide_eq_true_eq]
  constructor
  · rintro ⟨p, ⟨hp, ha⟩, rfl⟩
    rw [hp, ha]
  · intro h
    exact ⟨(i, a), ⟨h, rfl⟩, rfl⟩

theorem mem_firstPositions {i : Fin l.length} :
    i ∈ firstPositions l ↔ (positionsOf l l[i]).head? = some i := by
  simp only [firstPositions, List.mem_map, List.mem_filter, mem_numbered, decide_eq_true_eq]
  constructor
  · rintro ⟨p, ⟨hp, hf⟩, rfl⟩
    rw [hp]
    exact hf
  · intro h
    exact ⟨(i, l[i]), ⟨rfl, h⟩, rfl⟩

theorem exists_firstPosition (i : Fin l.length) : ∃ j ∈ firstPositions l, l[j] = l[i] := by
  cases h : (positionsOf l l[i]).head? with
  | none =>
    rw [List.head?_eq_none_iff] at h
    have hi : i ∈ positionsOf l l[i] := mem_positionsOf.2 rfl
    rw [h] at hi
    cases hi
  | some j =>
    have hj : l[j] = l[i] := mem_positionsOf.1 (List.mem_of_head? h)
    refine ⟨j, mem_firstPositions.2 ?_, hj⟩
    rw [hj]
    exact h

theorem mem_repeatedPositions {g : List (Fin l.length)} :
    g ∈ repeatedPositions l ↔ ∃ i, g = positionsOf l l[i] ∧ g[1]? = some i := by
  simp only [repeatedPositions, List.mem_filterMap, List.mem_map]
  constructor
  · rintro ⟨q, ⟨p, hp, rfl⟩, hg⟩
    rw [mem_numbered] at hp
    split at hg
    · rename_i h
      cases hg
      refine ⟨p.1, by rw [hp], h⟩
    · cases hg
  · rintro ⟨i, rfl, h⟩
    exact ⟨_, ⟨(i, l[i]), mem_numbered.2 rfl, rfl⟩, if_pos h⟩

theorem exists_repeated {i j : Fin l.length} (hij : i ≠ j) (h : l[i] = l[j]) :
    ∃ g ∈ repeatedPositions l, i ∈ g ∧ j ∈ g := by
  have hi : i ∈ positionsOf l l[i] := mem_positionsOf.2 rfl
  have hj : j ∈ positionsOf l l[i] := mem_positionsOf.2 h.symm
  cases hg : (positionsOf l l[i])[1]? with
  | none =>
    -- a list without a second item has no two different ones
    rw [List.getElem?_eq_none_iff] at hg
    cases hp : positionsOf l l[i] with
    | nil =>
      rw [hp] at hi
      cases hi
    | cons a rest =>
      rw [hp, List.length_cons] at hg
      have hr : rest = [] := List.length_eq_zero_iff.1 (by omega)
      rw [hp, hr, List.mem_singleton] at hi hj
      exact absurd (hi.trans hj.symm) hij
  | some k =>
    have hk : l[k] = l[i] := mem_positionsOf.1 (List.mem_of_getElem? hg)
    exact ⟨_, mem_repeatedPositions.2 ⟨k, by rw [hk], hg⟩, hi, hj⟩

theorem eq_of_mem_repeated {g : List (Fin l.length)} (hg : g ∈ repeatedPositions l)
    {i j : Fin l.length} (hi : i ∈ g) (hj : j ∈ g) : l[i] = l[j] := by
  obtain ⟨k, rfl, -⟩ := mem_repeatedPositions.1 hg
  rw [mem_positionsOf.1 hi, mem_positionsOf.1 hj]

end Motif
