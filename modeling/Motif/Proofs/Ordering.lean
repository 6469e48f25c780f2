import Mathlib.Data.List.Forall2
import Motif.Value.Order

/-!
By their orders, values stand in one line, and so do tuples, where only equal ones stand at one place.
Kinds come first, floats follow their bits as sign and magnitude, and tuples go column by column, a
proper beginning first.
-/
set_option autoImplicit false
namespace Motif

open Std (OrientedCmp TransCmp LawfulEqCmp)

/-- A comparison by which all things stand in one line and only equal ones at one place. -/
structure Linear {α : Type} (cmp : α → α → Ordering) : Prop where
  swap : ∀ a b, cmp b a = (cmp a b).swap
  antisymm : ∀ a b, (cmp a b).isLE → (cmp b a).isLE → a = b
  trans : ∀ a b c, (cmp a b).isLE → (cmp b c).isLE → (cmp a c).isLE
  total : ∀ a b, (cmp a b).isLE ∨ (cmp b a).isLE
  eq_iff : ∀ a b, cmp a b = .eq ↔ a = b

theorem linear_of_lawful {α : Type} (cmp : α → α → Ordering) [TransCmp cmp] [LawfulEqCmp cmp] :
    Linear cmp where
  swap _ _ := OrientedCmp.eq_swap
  antisymm _ _ hab hba := LawfulEqCmp.eq_of_compare (OrientedCmp.isLE_antisymm hab hba)
  trans _ _ _ := TransCmp.isLE_trans
  total a b := by
    have swap : cmp b a = (cmp a b).swap := OrientedCmp.eq_swap
    cases h : cmp a b <;> simp [swap, h]
  eq_iff _ _ := LawfulEqCmp.compare_eq_iff_eq

theorem Linear.flip {α : Type} {cmp : α → α → Ordering} (h : Linear cmp) :
    Linear fun a b => cmp b a where
  swap a b := h.swap b a
  antisymm a b hab hba := h.antisymm a b hba hab
  trans a b c hab hbc := h.trans c b a hbc hab
  total a b := h.total b a
  eq_iff a b := (h.eq_iff b a).trans eq_comm

/-- The IEEE total order of floats: those with the sign come first, and a larger magnitude is further
out. Both zeros, the infinities and every NaN have places of their own. -/
def FloatPrecedes (x y : UInt64) : Prop :=
  (signBit x = true ∧ signBit y = false) ∨
    (signBit x = false ∧ signBit y = false ∧ x < y) ∨
    (signBit x = true ∧ signBit y = true ∧ y < x)

theorem floatRank_lt_iff {a b : UInt64} : floatRank a < floatRank b ↔ FloatPrecedes a b := by
  have hm : Int64.maxValue.toInt = 2 ^ 63 - 1 := by decide
  have hs : UInt64.size = 2 ^ 64 := rfl
  have sa := @signBit_iff a
  have sb := @signBit_iff b
  have ha := a.toNat_lt
  have hb := b.toNat_lt
  rw [FloatPrecedes, floatRank, floatRank, hm, UInt64.lt_iff_toNat_lt, UInt64.lt_iff_toNat_lt]
  cases ka : signBit a <;> cases kb : signBit b <;> simp [ka, kb] at sa sb ⊢ <;> omega

namespace Value
variable {a b : Value}

def same : Value → Value → Bool
  | null, null => true
  | bool a, bool b => a == b
  | int a, int b => a == b
  | float a, float b => a == b
  | string a, string b => a == b
  | object a, object b => a == b
  | _, _ => false

theorem same_iff_eq : a.same b = true ↔ a = b := by
  cases a <;> cases b <;> simp [same]

theorem cmp_of_rank_lt (h : a.kind.rank < b.kind.rank) : compare a b = .lt := by
  have ne : a.kind ≠ b.kind := fun e => Nat.ne_of_lt h (congrArg Kind.rank e)
  rw [show compare a b = cmp a b from rfl, cmp_of_kind_ne ne]
  exact Nat.compare_eq_lt.2 h

end Value

namespace Tuple

def Precedes (t u : Tuple) : Prop :=
  (t <+: u ∧ t ≠ u) ∨
    ∃ (common : Tuple) (a b : Value) (t' u' : Tuple),
      t = common ++ a :: t' ∧ u = common ++ b :: u' ∧ compare a b = .lt

theorem precedes_cons_iff {a b : Value} {t u : Tuple} : Precedes (a :: t) (b :: u) ↔
    compare a b = .lt ∨ a = b ∧ Precedes t u := by
  constructor
  · rintro (⟨beginning, ne⟩ | ⟨common, x, y, t', u', ht, hu, lt⟩)
    · obtain ⟨rfl, rest⟩ := List.cons_prefix_cons.1 beginning
      exact .inr ⟨rfl, .inl ⟨rest, fun e => ne (e ▸ rfl)⟩⟩
    · cases common with
      | nil =>
        cases ht
        cases hu
        exact .inl lt
      | cons c common =>
        cases ht
        cases hu
        exact .inr ⟨rfl, .inr ⟨common, x, y, t', u', rfl, rfl, lt⟩⟩
  · rintro (lt | ⟨rfl, ⟨beginning, ne⟩ | ⟨common, x, y, t', u', rfl, rfl, lt⟩⟩)
    · exact .inr ⟨[], a, b, t, u, rfl, rfl, lt⟩
    · exact .inl ⟨List.cons_prefix_cons.2 ⟨rfl, beginning⟩, by simpa using ne⟩
    · exact .inr ⟨a :: common, x, y, t', u', rfl, rfl, lt⟩

theorem compare_eq_lt_iff {t u : Tuple} : compare t u = .lt ↔ t.Precedes u := by
  induction t generalizing u with
  | nil =>
    cases u with
    | nil => simp [Precedes]
    | cons b u => simp [Precedes]
  | cons a t ih =>
    cases u with
    | nil => simp [Precedes]
    | cons b u =>
      have same : a = b ↔ compare a b = .eq := LawfulEqCmp.compare_eq_iff_eq.symm
      rw [List.compare_cons_cons, precedes_cons_iff, ← ih, same]
      cases compare a b <;> simp

end Tuple

/-- Values stand in one line, kind by kind and floats in their total order, with only the same value at
one place; tuples of whatever lengths stand in one line lexicographically. -/
theorem compare_linear :
    (Linear (compare : Value → Value → Ordering) ∧
      (∀ a b : Value, compare a b = .eq ↔ a.same b = true) ∧
      ([Kind.null, .bool, .int64, .float64, .string, .object].Pairwise fun k l =>
        ∀ a b : Value, a.kind = k → b.kind = l → compare a b = .lt) ∧
      ∀ x y : UInt64, compare (Value.float x) (.float y) = .lt ↔ FloatPrecedes x y) ∧
    Linear (compare : Tuple → Tuple → Ordering) ∧
      (∀ t u : Tuple, compare t u = .eq ↔ List.Forall₂ (fun a b => a.same b = true) t u) ∧
      ∀ t u : Tuple, compare t u = .lt ↔ t.Precedes u := by
  have values : Linear (compare : Value → Value → Ordering) := linear_of_lawful _
  have tuples : Linear (compare : Tuple → Tuple → Ordering) := linear_of_lawful _
  refine ⟨⟨values, fun a b => ?_, ?_, fun x y => ?_⟩, tuples, fun t u => ?_,
    fun t u => Tuple.compare_eq_lt_iff⟩
  · rw [values.eq_iff, Value.same_iff_eq]
  · have ascending : [Kind.null, .bool, .int64, .float64, .string, .object].Pairwise
        (Kind.rank · < Kind.rank ·) := by decide
    refine ascending.imp fun {k l} lt a b hk hl => Value.cmp_of_rank_lt ?_
    rw [hk, hl]
    exact lt
  · rw [← floatRank_lt_iff, ← Int.compare_eq_lt]
    rfl
  · simp only [tuples.eq_iff, Value.same_iff_eq, List.forall₂_eq_eq_eq]

-- a NaN with the sign, minus infinity, both zeros, infinity, a NaN without
example : [0xFFF8000000000000, 0xFFF0000000000000, 0x8000000000000000, 0, 0x7FF0000000000000,
    0x7FF8000000000000].Pairwise fun x y => compare (Value.float x) (.float y) = .lt := by decide

end Motif
