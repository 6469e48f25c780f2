import Mathlib.Data.Int.ModEq
import Mathlib.Algebra.BigOperators.Group.List.Basic
import Motif.Evaluator.Stock
import Motif.Proofs.Algebra.Value
import Motif.Proofs.Ordering

/-!
The ready-made operators do not depend on the order in which a group is gone through. The sum of
integers is their sum modulo 2^64, whatever the sums on the way were, and the least and the greatest
value are what the order of values makes them.
-/
set_option autoImplicit false
namespace Motif

namespace Aggregator
variable {vs ws : List Value} {m v : Value}

def total (vs : List Value) : Int := ((ints vs).map Int64.toInt).sum

theorem total_cons (v : Value) (vs : List Value) : total (v :: vs) = total [v] + total vs := by
  cases v <;> simp [total, ints]

theorem total_perm (h : vs.Perm ws) : total vs = total ws :=
  ((h.filterMap _).map _).sum_eq

namespace Sums

theorem add_exact (s : Sums) (v : Value) :
    (s.add v).ints.toInt = (s.ints.toInt + total [v]).bmod (2 ^ 64) ∧
      (s.add v).isFloat = (s.isFloat || decide (v.kind = .float64)) := by
  cases v <;> simp [add, total, Aggregator.ints, Value.kind, Int64.toInt_add]

theorem foldl_exact (s : Sums) (vs : List Value) :
    (vs.foldl add s).ints.toInt = (s.ints.toInt + total vs).bmod (2 ^ 64) ∧
      (vs.foldl add s).isFloat = (s.isFloat || vs.any fun v => v.kind = .float64) := by
  induction vs generalizing s with
  | nil => simp [total, Aggregator.ints]
  | cons v rest ih =>
    obtain ⟨ints, isFloat⟩ := s.add_exact v
    obtain ⟨restInts, restFloat⟩ := ih (s.add v)
    rw [List.foldl_cons, restInts, restFloat, ints, isFloat, total_cons v rest, List.any_cons]
    exact ⟨by rw [Int.bmod_add_bmod, add_assoc], Bool.or_assoc ..⟩

end Sums

/-- Without floats the sum is an integer, the one among those of 64 bits that is the sum of all integers
modulo 2^64. -/
theorem exists_sum (h : ∀ v ∈ vs, v.kind ≠ .float64) :
    ∃ n : Int64, sum.fold vs = some (.int n) ∧ n.toInt = (total vs).bmod (2 ^ 64) := by
  obtain ⟨ints, isFloat⟩ := ({} : Sums).foldl_exact vs
  have none : (vs.foldl Sums.add {}).isFloat = false := by
    simpa [isFloat] using h
  refine ⟨(vs.foldl Sums.add {}).ints, ?_, by simpa using ints⟩
  simp [sum, none]

structure Prefers (cmp : Value → Value → Ordering) (better : Value → Value → Value) : Prop where
  one : ∀ a b, better a b = a ∨ better a b = b
  left : ∀ a b, (cmp (better a b) a).isLE
  right : ∀ a b, (cmp (better a b) b).isLE

namespace Prefers
variable {cmp : Value → Value → Ordering} {better : Value → Value → Value}

theorem foldl_exact (h : Prefers cmp better) (linear : Linear cmp) (b : Value) (vs : List Value) :
    vs.foldl better b ∈ b :: vs ∧ ∀ v ∈ b :: vs, (cmp (vs.foldl better b) v).isLE := by
  induction vs generalizing b with
  | nil => simp [(linear.eq_iff b b).2 rfl]
  | cons a rest ih =>
    obtain ⟨member, least⟩ := ih (better b a)
    have first := least _ List.mem_cons_self
    rw [List.foldl_cons]
    constructor
    · rcases List.mem_cons.1 member with e | member
      · rw [e]
        rcases h.one b a with one | one <;> simp [one]
      · simp [member]
    · simp only [List.forall_mem_cons] at least ⊢
      exact ⟨linear.trans _ _ _ first (h.left b a), linear.trans _ _ _ first (h.right b a), least.2⟩

theorem reduce_eq_some_iff (h : Prefers cmp better) (linear : Linear cmp) :
    reduce better vs = some m ↔ m ∈ vs ∧ ∀ v ∈ vs, (cmp m v).isLE := by
  cases vs with
  | nil => simp [reduce]
  | cons b rest =>
    obtain ⟨member, least⟩ := h.foldl_exact linear b rest
    rw [reduce, Option.some.injEq]
    constructor
    · rintro rfl
      exact ⟨member, least⟩
    · rintro ⟨hm, before⟩
      exact linear.antisymm _ m (least m hm) (before _ member)

end Prefers

theorem reduce_eq_none_iff {better : Value → Value → Value} : reduce better vs = none ↔ vs = [] := by
  cases vs <;> simp [reduce]

theorem prefers_least :
    Prefers compare fun b v : Value => if compare b v = .gt then v else b := by
  have linear : Linear (compare : Value → Value → Ordering) := linear_of_lawful _
  refine ⟨fun a b => ?_, fun a b => ?_, fun a b => ?_⟩
  all_goals
    have swap := linear.swap a b
    cases h : compare a b <;> simp [h, swap]

theorem prefers_greatest :
    Prefers (fun a b => compare b a) fun b v : Value => if compare b v = .gt then b else v := by
  have linear : Linear (compare : Value → Value → Ordering) := linear_of_lawful _
  refine ⟨fun a b => ?_, fun a b => ?_, fun a b => ?_⟩
  all_goals
    have swap := linear.swap a b
    cases h : compare a b <;> simp [h, swap]

theorem least_eq_some_iff : least vs = some m ↔ m ∈ vs ∧ ∀ v ∈ vs, (compare m v).isLE :=
  prefers_least.reduce_eq_some_iff (linear_of_lawful _)

theorem greatest_eq_some_iff : greatest vs = some m ↔ m ∈ vs ∧ ∀ v ∈ vs, (compare v m).isLE :=
  prefers_greatest.reduce_eq_some_iff (linear_of_lawful _).flip

theorem orderFree_min : min.OrderFree := by
  intro vs ws h
  refine Option.ext fun m => ?_
  simp only [min, least_eq_some_iff, h.mem_iff]

theorem orderFree_max : max.OrderFree := by
  intro vs ws h
  refine Option.ext fun m => ?_
  simp only [max, greatest_eq_some_iff, h.mem_iff]

theorem orderFree_count : count.OrderFree := by
  intro vs ws h
  simp only [count, h.length_eq]

theorem sum_perm (free : ∀ v ∈ vs, v.kind ≠ .float64) (h : vs.Perm ws) :
    sum.fold vs = sum.fold ws := by
  obtain ⟨n, hn, en⟩ := exists_sum free
  obtain ⟨k, hk, ek⟩ := exists_sum fun v hv => free v (h.mem_iff.2 hv)
  have same : n = k := Int64.toInt_inj.1 (by rw [en, ek, total_perm h])
  rw [hn, hk, same]

/-- The ready-made operators give one value for a list and every permutation of it, the sum as long as
there are no floats. Then it is the integer of 64 bits that the sum of all integers is congruent to. The
least and the greatest are members that no other comes before or after. -/
theorem builtin_orderFree :
    (count.OrderFree ∧ min.OrderFree ∧ max.OrderFree) ∧
    (∀ vs : List Value, (∀ v ∈ vs, v.kind ≠ .float64) →
      (∀ ws, vs.Perm ws → sum.fold vs = sum.fold ws) ∧
      ∃ n : Int64, sum.fold vs = some (.int n) ∧ n.toInt ≡ total vs [ZMOD 2 ^ 64]) ∧
    ∀ vs : List Value,
      (∀ m, min.fold vs = some m ↔ m ∈ vs ∧ ∀ v ∈ vs, (compare m v).isLE) ∧
      (∀ m, max.fold vs = some m ↔ m ∈ vs ∧ ∀ v ∈ vs, (compare v m).isLE) ∧
      (min.fold vs = none ↔ vs = []) ∧ (max.fold vs = none ↔ vs = []) := by
  refine ⟨⟨orderFree_count, orderFree_min, orderFree_max⟩, fun vs free => ⟨fun ws => sum_perm free, ?_⟩,
    fun vs => ⟨fun m => least_eq_some_iff, fun m => greatest_eq_some_iff, reduce_eq_none_iff,
      reduce_eq_none_iff⟩⟩
  obtain ⟨n, hn, exact⟩ := exists_sum free
  refine ⟨n, hn, ?_⟩
  rw [Int.ModEq, exact]
  exact Int.bmod_emod

theorem builtin_orderFree_mixed :
    let vs : List Value := [.int Int64.maxValue, .string "a", .int 1, .null]
    (∀ v ∈ vs, v.kind ≠ .float64) ∧ sum.fold vs = sum.fold vs.reverse ∧
      (∃ n : Int64, sum.fold vs = some (.int n) ∧ n.toInt ≡ total vs [ZMOD 2 ^ 64]) ∧
      min.fold vs = some .null ∧ max.fold vs = some (.string "a") := by
  intro vs
  have free : ∀ v ∈ vs, v.kind ≠ .float64 := by decide
  obtain ⟨-, sums, others⟩ := builtin_orderFree
  obtain ⟨perm, wraps⟩ := sums vs free
  obtain ⟨least, greatest, -⟩ := others vs
  exact ⟨free, perm _ vs.reverse_perm.symm, wraps, (least _).2 (by decide), (greatest _).2 (by decide)⟩

end Aggregator
end Motif
