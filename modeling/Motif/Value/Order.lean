import Motif.Value

set_option autoImplicit false
namespace Motif

open Std (OrientedCmp TransCmp LawfulEqCmp LawfulEqOrd TransOrd)

theorem signBit_iff {bits : UInt64} : signBit bits = true ↔ UInt64.size ≤ 2 * bits.toNat := by
  simp only [signBit, decide_eq_true_eq]

theorem floatRank_injective {a b : UInt64} (h : floatRank a = floatRank b) : a = b := by
  have hm : Int64.maxValue.toInt = 2 ^ 63 - 1 := by decide
  have ha := a.toNat_lt
  have hb := b.toNat_lt
  have sa := @signBit_iff a
  have sb := @signBit_iff b
  apply UInt64.toNat.inj
  unfold floatRank at h
  split at h <;> split at h <;> (try rw [hm] at h) <;> grind

def Kind.rank : Kind → Nat
  | null => 0
  | bool => 1
  | int64 => 2
  | float64 => 3
  | string => 4
  | object => 5

theorem Kind.rank_injective {a b : Kind} (h : a.rank = b.rank) : a = b := by
  cases a <;> cases b <;> first | rfl | cases h

namespace Value

theorem cmp_of_kind_ne {a b : Value} (h : a.kind ≠ b.kind) :
    cmp a b = compare a.kind.rank b.kind.rank := by
  cases a <;> cases b <;> first | rfl | exact absurd rfl h

theorem cmp_eq_swap {a b : Value} : cmp a b = (cmp b a).swap := by
  cases a <;> cases b <;> simp only [cmp] <;> first | exact OrientedCmp.eq_swap | rfl

theorem rank_le_of_isLE_cmp {a b : Value} (h : (cmp a b).isLE) : a.kind.rank ≤ b.kind.rank := by
  by_cases k : a.kind = b.kind
  · exact Nat.le_of_eq (congrArg Kind.rank k)
  · rw [cmp_of_kind_ne k] at h
    exact Nat.isLE_compare.1 h

theorem isLE_cmp_trans {a b c : Value} (hab : (cmp a b).isLE) (hbc : (cmp b c).isLE) :
    (cmp a c).isLE := by
  have rab := rank_le_of_isLE_cmp hab
  have rbc := rank_le_of_isLE_cmp hbc
  by_cases k : a.kind = c.kind
  · have kab : a.kind = b.kind := Kind.rank_injective (by rw [← k] at rbc; omega)
    cases a <;> cases b <;> cases kab <;> cases c <;> cases k <;> simp only [cmp] at * <;>
      first | exact TransCmp.isLE_trans hab hbc | assumption
  · rw [cmp_of_kind_ne k]
    exact Nat.isLE_compare.2 (Nat.le_trans rab rbc)

theorem eq_of_cmp {a b : Value} (h : cmp a b = .eq) : a = b := by
  by_cases k : a.kind = b.kind
  · cases a <;> cases b <;> cases k <;> simp only [cmp] at h <;> first | rfl | congr 1
    · exact LawfulEqCmp.eq_of_compare h
    · exact Int64.toInt_inj.1 (LawfulEqCmp.eq_of_compare h)
    · exact floatRank_injective (LawfulEqCmp.eq_of_compare h)
    · exact LawfulEqCmp.eq_of_compare h
    · exact UInt64.toNat.inj (LawfulEqCmp.eq_of_compare h)
  · rw [cmp_of_kind_ne k] at h
    exact absurd (Kind.rank_injective (LawfulEqCmp.eq_of_compare h)) k

instance : TransOrd Value where
  eq_swap := cmp_eq_swap
  isLE_trans := isLE_cmp_trans

instance : LawfulEqOrd Value where
  eq_of_compare := eq_of_cmp

end Value

end Motif
