import Mathlib.Algebra.BigOperators.Group.Finset.Basic
import Mathlib.Data.Multiset.Bind
import Mathlib.Tactic.Common
import Motif.Bag

set_option autoImplicit false
namespace Motif

open Std (ExtTreeMap TransOrd LawfulEqOrd)

namespace Bag

section entries
variable {α : Type} [DecidableEq α]

theorem count_flatMap_eq_zero {l : List (α × Nat)} {a : α} (h : ∀ e ∈ l, e.1 ≠ a) :
    (l.flatMap fun e => List.replicate e.2 e.1).count a = 0 := by
  rw [List.count_eq_zero]
  intro hm
  obtain ⟨e, he, ha⟩ := List.mem_flatMap.1 hm
  exact h e he (List.eq_of_mem_replicate ha).symm

theorem count_flatMap_of_mem {l : List (α × Nat)} {e : α × Nat} (hd : (l.map Prod.fst).Nodup)
    (h : e ∈ l) : (l.flatMap fun e => List.replicate e.2 e.1).count e.1 = e.2 := by
  induction l with
  | nil => simp at h
  | cons f rest ih =>
    rw [List.map_cons, List.nodup_cons] at hd
    rw [List.flatMap_cons, List.count_append, List.count_replicate]
    rcases List.mem_cons.1 h with rfl | h
    · have hz : ∀ g ∈ rest, g.1 ≠ e.1 := fun g hg hk => hd.1 (hk ▸ List.mem_map_of_mem hg)
      simp [count_flatMap_eq_zero hz]
    · have hk : f.1 ≠ e.1 := fun hk => hd.1 (hk ▸ List.mem_map_of_mem h)
      simp [ih hd.2 h, hk]

end entries

variable {α : Type} [Ord α] [TransOrd α] [LawfulEqOrd α] [DecidableEq α]

theorem count_items (b : Bag α) (a : α) : b.items.count a = b.count a := by
  have hd : (b.counts.toList.map Prod.fst).Nodup := by
    rw [ExtTreeMap.map_fst_toList_eq_keys]
    exact ExtTreeMap.nodup_keys
  rw [items, entries, count, ExtTreeMap.getD_eq_getD_getElem?]
  cases h : b.counts[a]? with
  | none =>
    refine count_flatMap_eq_zero fun e he hk => ?_
    rw [ExtTreeMap.mem_toList_iff_getElem?_eq_some, hk, h] at he
    exact absurd he (by simp)
  | some n => exact count_flatMap_of_mem hd (ExtTreeMap.mem_toList_iff_getElem?_eq_some.2 h)

def toMultiset (b : Bag α) : Multiset α := ↑b.items

@[simp] theorem count_toMultiset (b : Bag α) (a : α) : b.toMultiset.count a = b.count a := by
  rw [toMultiset, Multiset.coe_count, count_items]

@[simp] theorem toMultiset_empty : (∅ : Bag α).toMultiset = 0 :=
  Multiset.ext.2 fun a => by simp

theorem toMultiset_injective {b c : Bag α} (h : b.toMultiset = c.toMultiset) : b = c :=
  Bag.ext fun a => by rw [← count_toMultiset, ← count_toMultiset, h]

@[simp] theorem toMultiset_add (b : Bag α) (a : α) : (b.add a).toMultiset = a ::ₘ b.toMultiset :=
  Multiset.ext.2 fun c => by simp [Multiset.count_cons, eq_comm]

@[simp] theorem toMultiset_remove (b : Bag α) (a : α) :
    (b.remove a).toMultiset = b.toMultiset.erase a :=
  Multiset.ext.2 fun c => by
    by_cases h : a = c
    · subst h
      simp
    · simp [h, Multiset.count_erase_of_ne (Ne.symm h)]

theorem contains_iff_mem {b : Bag α} {a : α} : b.contains a = true ↔ a ∈ b.toMultiset := by
  rw [contains_iff, ← Multiset.count_pos, count_toMultiset]

omit [LawfulEqOrd α] [DecidableEq α] in
theorem mem_items {b : Bag α} {a : α} : a ∈ b.items ↔ a ∈ b.toMultiset := Multiset.mem_coe.symm

@[simp] theorem items_empty : (∅ : Bag α).items = [] :=
  List.eq_nil_iff_forall_not_mem.2 fun a h => by simpa using mem_items.1 h

theorem isEmpty_iff {b : Bag α} : b.isEmpty = true ↔ b.toMultiset = 0 := by
  rw [isEmpty, ExtTreeMap.isEmpty_iff]
  constructor
  · intro h
    refine Multiset.ext.2 fun a => ?_
    simp [count, h]
  · intro h
    have e : b = ∅ := toMultiset_injective (by rw [h, toMultiset_empty])
    rw [e]
    rfl

theorem mem_distinct {b : Bag α} {a : α} : a ∈ b.distinct ↔ a ∈ b.toMultiset := by
  rw [distinct, ExtTreeMap.mem_keys, ← contains_iff_mem, contains, ExtTreeMap.mem_iff_contains]

omit [LawfulEqOrd α] [DecidableEq α] in
theorem nodup_distinct (b : Bag α) : b.distinct.Nodup := ExtTreeMap.nodup_keys

theorem coe_distinct (b : Bag α) : (↑b.distinct : Multiset α) = b.toMultiset.dedup := by
  refine (Multiset.Nodup.ext (Multiset.coe_nodup.2 b.nodup_distinct)
    (Multiset.nodup_dedup _)).2 fun a => ?_
  rw [Multiset.mem_coe, mem_distinct, Multiset.mem_dedup]

omit [LawfulEqOrd α] [DecidableEq α] in
theorem size_eq_card (b : Bag α) : b.size = b.toMultiset.card := by
  have e : ∀ (l : List (α × Nat)) (n : Nat), l.foldl (fun n e => n + e.2) n =
      n + (l.flatMap fun e => List.replicate e.2 e.1).length := by
    intro l
    induction l with
    | nil => simp
    | cons e l ih =>
      intro n
      simp [ih, Nat.add_assoc]
  simp [size, toMultiset, items, entries, ExtTreeMap.foldl_eq_foldl_toList, e]

instance : LeftCommutative fun (a : α) (b : Bag α) => b.add a :=
  ⟨fun a c b => Bag.ext fun d => by simp only [count_add]; omega⟩

def ofMultiset (m : Multiset α) : Bag α := m.foldr (fun a b => b.add a) ∅

@[simp] theorem toMultiset_ofMultiset (m : Multiset α) : (ofMultiset m).toMultiset = m := by
  induction m using Multiset.induction with
  | empty => simp [ofMultiset]
  | cons a m ih =>
    rw [ofMultiset, Multiset.foldr_cons, toMultiset_add]
    exact congrArg (Multiset.cons a) ih

@[simp] theorem ofMultiset_toMultiset (b : Bag α) : ofMultiset b.toMultiset = b :=
  toMultiset_injective (toMultiset_ofMultiset _)

theorem toMultiset_foldl_add (l : List α) (b : Bag α) :
    (l.foldl add b).toMultiset = b.toMultiset + ↑l := by
  induction l generalizing b with
  | nil => simp
  | cons a rest ih =>
    rw [List.foldl_cons, ih, toMultiset_add, ← Multiset.cons_coe, Multiset.cons_add,
      Multiset.add_cons]

theorem toMultiset_ofList (l : List α) : (ofList l).toMultiset = ↑l := by
  rw [ofList, toMultiset_foldl_add, toMultiset_empty, zero_add]

end Bag

def ascending {α : Type} [Ord α] [TransOrd α] [LawfulEqOrd α] [DecidableEq α] (m : Multiset α) :
    List α :=
  (Bag.ofMultiset m).items

section ascending
variable {α : Type} [Ord α] [TransOrd α] [LawfulEqOrd α] [DecidableEq α]

@[simp] theorem coe_ascending (m : Multiset α) : (↑(ascending m) : Multiset α) = m :=
  Bag.toMultiset_ofMultiset m

@[simp] theorem mem_ascending {m : Multiset α} {a : α} : a ∈ ascending m ↔ a ∈ m := by
  rw [← Multiset.mem_coe, coe_ascending]

@[simp] theorem ascending_toMultiset (b : Bag α) : ascending b.toMultiset = b.items := by
  rw [ascending, Bag.ofMultiset_toMultiset]

end ascending
end Motif
