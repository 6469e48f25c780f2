import Motif.Table
import Std.Data.ExtTreeMap

set_option autoImplicit false
namespace Motif

open Std (ExtTreeMap LawfulEqOrd TransOrd)

theorem eq_or_of_getElem?_insert {κ ν : Type} [Ord κ] [TransOrd κ] [LawfulEqOrd κ]
    {m : ExtTreeMap κ ν} {k k' : κ} {v v' : ν} (h : (m.insert k v)[k']? = some v') :
    (k' = k ∧ v' = v) ∨ m[k']? = some v' := by
  rw [ExtTreeMap.getElem?_insert] at h
  split at h
  · rename_i same
    exact .inl ⟨(Std.LawfulEqCmp.eq_of_compare same).symm, (Option.some.inj h).symm⟩
  · exact .inr h

namespace Table

variable {κ ν : Type} [DecidableEq κ]

@[simp] theorem get?_empty (k : κ) : (empty : Table κ ν).get? k = none := rfl

theorem mem_keys_of_get? {t : Table κ ν} {k : κ} {v : ν} (h : t.get? k = some v) : k ∈ t.keys := by
  obtain ⟨e, he, -⟩ := Option.map_eq_some_iff.1 h
  have key := List.find?_some he
  exact List.mem_map.2 ⟨e, List.mem_of_find?_eq_some he, of_decide_eq_true key⟩

theorem find?_setIn (k k' : κ) (v : ν) (es : List (κ × ν)) :
    (setIn k v es).find? (fun e => e.1 = k') =
      if k = k' then some (k, v) else es.find? fun e => e.1 = k' := by
  induction es with
  | nil => by_cases hk : k = k' <;> simp [setIn, hk]
  | cons e rest ih =>
    rw [setIn]
    by_cases he : e.1 = k
    · subst he
      by_cases hk : e.1 = k' <;> simp [hk]
    · rw [if_neg he, List.find?_cons, ih, List.find?_cons]
      by_cases hk : k = k'
      · subst hk
        simp [he]
      · simp [hk]

theorem get?_set (t : Table κ ν) (k k' : κ) (v : ν) :
    (t.set k v).get? k' = if k = k' then some v else t.get? k' := by
  rw [get?, set, find?_setIn]
  split <;> rfl

end Table
end Motif
