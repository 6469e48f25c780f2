import Mathlib.Data.List.Basic
import Mathlib.Data.Option.Basic
import Mathlib.Tactic.Common
import Motif.Fault

set_option autoImplicit false
namespace Motif

theorem Tuple.map_some_project {t : Tuple} {is : List Nat} (h : ∀ i ∈ is, i < t.length) :
    (Tuple.project t is).map some = is.map fun i => t[i]? := by
  induction is with
  | nil => rfl
  | cons i rest ih =>
    have hi : i < t.length := h i (by simp)
    have hr := ih fun j hj => h j (by simp [hj])
    simp [Tuple.project, List.getElem?_eq_getElem hi] at hr ⊢
    exact hr

theorem Tuple.project_range (t : Tuple) : Tuple.project t (List.range t.length) = t := by
  apply List.map_injective_iff.2 (Option.some_injective _)
  rw [Tuple.map_some_project fun i hi => List.mem_range.1 hi]
  apply List.ext_getElem?
  intro i
  by_cases h : i < t.length
  · simp [List.getElem?_range h, List.getElem?_eq_getElem h]
  · simp [Nat.le_of_not_lt h]

namespace Mask

def signature (m : Mask) (t : Tuple) : Tuple := Tuple.project t m.indices

theorem project_eq {m : Mask} {t : Tuple} (h : t.length = m.width) :
    m.project t = .ok (m.signature t) := by
  simp [project, project?, h, signature]

theorem combine_eq {m : Mask} {base other : Tuple} (h : other.length = m.width) :
    m.combine base other = .ok (base ++ m.signature other) := by
  simp [combine, project_eq h, Except.map]

theorem map_some_signature {m : Mask} {t : Tuple} (h : t.length = m.width) :
    (m.signature t).map some = m.indices.map fun i => t[i]? :=
  Tuple.map_some_project fun i hi => h ▸ m.indices_lt i hi

theorem length_signature {m : Mask} {t : Tuple} (h : t.length = m.width) :
    (m.signature t).length = m.arity := by
  simpa [arity] using congrArg List.length (map_some_signature h)

theorem signature_eq_iff {m : Mask} {s t : Tuple} (hs : s.length = m.width)
    (ht : t.length = m.width) :
    m.signature s = m.signature t ↔ ∀ i ∈ m.indices, s[i]? = t[i]? := by
  rw [← (List.map_injective_iff.2 (Option.some_injective _)).eq_iff, map_some_signature hs,
    map_some_signature ht, List.map_inj_left]

theorem signature_of_isIdentity {m : Mask} {t : Tuple} (hm : m.isIdentity = true)
    (h : t.length = m.width) : m.signature t = t := by
  have hi : m.indices = List.range m.width := by simpa [isIdentity] using hm
  rw [signature, hi, ← h, Tuple.project_range]

theorem mem_complement {m : Mask} {i : Nat} :
    i ∈ m.complement.indices ↔ i < m.width ∧ i ∉ m.indices := by
  simp [complement]

@[simp] theorem width_complement (m : Mask) : m.complement.width = m.width := rfl

theorem eq_of_signature_eq {m : Mask} {s t : Tuple} (hs : s.length = m.width)
    (ht : t.length = m.width) (h : m.signature s = m.signature t)
    (hc : m.complement.signature s = m.complement.signature t) : s = t := by
  apply List.ext_getElem?
  intro i
  by_cases hw : i < m.width
  · by_cases hi : i ∈ m.indices
    · exact (signature_eq_iff hs ht).1 h i hi
    · exact (signature_eq_iff (m := m.complement) hs ht).1 hc i (mem_complement.2 ⟨hw, hi⟩)
  · rw [List.getElem?_eq_none (by omega), List.getElem?_eq_none (by omega)]

/-- A joined row tells its pair: of two pairs with equal signatures on their two sides that give
one row, both tuples are equal. -/
theorem pair_eq_of_append_eq {p s : Mask} {a a' b b' : Tuple} (ha : a.length = p.width)
    (ha' : a'.length = p.width) (hb : b.length = s.width) (hb' : b'.length = s.width)
    (h : p.signature a = s.signature b) (h' : p.signature a' = s.signature b')
    (e : a ++ s.complement.signature b = a' ++ s.complement.signature b') : a = a' ∧ b = b' := by
  obtain ⟨hp, hc⟩ := List.append_inj e (ha.trans ha'.symm)
  subst hp
  exact ⟨rfl, eq_of_signature_eq hb hb' (h.symm.trans h') hc⟩

end Mask

theorem Tuple.column_eq {t : Tuple} {i : Nat} (h : i < t.length) : t.column i = .ok t[i] := by
  simp [Tuple.column, List.getElem?_eq_getElem h]

end Motif
