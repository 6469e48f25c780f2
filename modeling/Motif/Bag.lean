import Std.Data.ExtTreeMap

set_option autoImplicit false
namespace Motif

open Std (ExtTreeMap TransOrd LawfulEqOrd)

/-- Pairs are ordered by their first components, and those that agree there by their second. -/
instance pairOrd {α β : Type} [Ord α] [Ord β] : Ord (α × β) := lexOrd

/-- `counts` says how often an item occurs, and has no entry for one that does not. -/
structure Bag (α : Type) [Ord α] [TransOrd α] where
  counts : ExtTreeMap α Nat
  counts_ne_zero : ∀ a : α, counts[a]? ≠ some 0

/-- What a change of an item's multiplicity amounts to. -/
inductive CountChange where
  /-- from none to one -/
  | appeared
  /-- from one to none -/
  | disappeared
  /-- the item is held before and after -/
  | unchanged
  /-- the item to be taken away is not held -/
  | missing
  deriving DecidableEq, Repr

namespace Bag
variable {α : Type} [Ord α] [TransOrd α]

theorem ne_zero_empty (a : α) : (∅ : ExtTreeMap α Nat)[a]? ≠ some 0 := by simp

theorem ne_zero_alter {m : ExtTreeMap α Nat} {f : Option Nat → Option Nat}
    (hm : ∀ a : α, m[a]? ≠ some 0) (hf : ∀ n, f n ≠ some 0) (k a : α) :
    (m.alter k f)[a]? ≠ some 0 := by
  rw [ExtTreeMap.getElem?_alter]
  split
  · exact hf _
  · exact hm a

def empty : Bag α := ⟨∅, ne_zero_empty⟩

instance : EmptyCollection (Bag α) := ⟨empty⟩
instance : Inhabited (Bag α) := ⟨∅⟩

def count (b : Bag α) (a : α) : Nat := b.counts.getD a 0

def contains (b : Bag α) (a : α) : Bool := b.counts.contains a

def isEmpty (b : Bag α) : Bool := b.counts.isEmpty

def entries (b : Bag α) : List (α × Nat) := b.counts.toList

def distinct (b : Bag α) : List α := b.counts.keys

def items (b : Bag α) : List α := b.entries.flatMap fun e => List.replicate e.2 e.1

def size (b : Bag α) : Nat := b.counts.foldl (fun n _ k => n + k) 0

def more (n : Option Nat) : Option Nat := some (n.getD 0 + 1)

def fewer : Option Nat → Option Nat
  | some (n + 2) => some (n + 1)
  | _ => none

theorem more_ne_zero (n : Option Nat) : more n ≠ some 0 := by simp [more]

theorem fewer_ne_zero (n : Option Nat) : fewer n ≠ some 0 := by
  unfold fewer
  split <;> simp

def add (b : Bag α) (a : α) : Bag α :=
  ⟨b.counts.alter a more, ne_zero_alter b.counts_ne_zero more_ne_zero a⟩

def remove (b : Bag α) (a : α) : Bag α :=
  ⟨b.counts.alter a fewer, ne_zero_alter b.counts_ne_zero fewer_ne_zero a⟩

def ofList (l : List α) : Bag α := l.foldl add ∅

def increment (b : Bag α) (a : α) : Bag α × CountChange :=
  let before := b.counts.size
  let now := b.add a
  (now, if now.counts.size = before then .unchanged else .appeared)

def decrement (b : Bag α) (a : α) : Bag α × CountChange :=
  let before := b.counts.size
  let now := b.remove a
  (now,
    if now.counts.size ≠ before then .disappeared
    else if now.contains a then .unchanged
    else .missing)

@[simp] theorem count_empty (a : α) : (∅ : Bag α).count a = 0 := ExtTreeMap.getD_empty

theorem contains_iff {b : Bag α} {a : α} : b.contains a = true ↔ 0 < b.count a := by
  have h := b.counts_ne_zero a
  rw [contains, count, ExtTreeMap.getD_eq_getD_getElem?, ExtTreeMap.contains_eq_isSome_getElem?]
  cases e : b.counts[a]? with
  | none => simp
  | some n => grind

theorem increment_snd (b : Bag α) (a : α) :
    (b.increment a).2 = if b.contains a then .unchanged else .appeared := by
  by_cases h : b.contains a = true
  · have e : (b.counts.alter a more).size = b.counts.size :=
      ExtTreeMap.size_alter_eq_self_of_mem h (by simp [more])
    simp [increment, add, e, h]
  · have e : (b.counts.alter a more).size = b.counts.size + 1 :=
      ExtTreeMap.size_alter_eq_add_one h (by simp [more])
    simp [increment, add, e, h]

theorem decrement_snd (b : Bag α) (a : α) :
    (b.decrement a).2 =
      match b.count a with
      | 0 => .missing
      | 1 => .disappeared
      | _ => .unchanged := by
  have hz := b.counts_ne_zero a
  rw [count, ExtTreeMap.getD_eq_getD_getElem?]
  match e : b.counts[a]? with
  | none =>
    have hm : a ∉ b.counts := by simp [← ExtTreeMap.isSome_getElem?_iff_mem, e]
    have hs : (b.counts.alter a fewer).size = b.counts.size :=
      ExtTreeMap.size_alter_eq_self_of_not_mem hm (by simp [e, fewer])
    simp [decrement, remove, contains, hs, e, fewer]
  | some 0 => exact absurd e hz
  | some 1 =>
    have hm : a ∈ b.counts := by simp [← ExtTreeMap.isSome_getElem?_iff_mem, e]
    have hs : (b.counts.alter a fewer).size = b.counts.size - 1 :=
      ExtTreeMap.size_alter_eq_sub_one hm (by simp [e, fewer])
    have hp : b.counts.size ≠ 0 := fun h => by
      simp [ExtTreeMap.eq_empty_iff_size_eq_zero.2 h] at hm
    have hn : b.counts.size - 1 ≠ b.counts.size := by omega
    simp [decrement, remove, hs, hn]
  | some (n + 2) =>
    have hm : a ∈ b.counts := by simp [← ExtTreeMap.isSome_getElem?_iff_mem, e]
    have hs : (b.counts.alter a fewer).size = b.counts.size :=
      ExtTreeMap.size_alter_eq_self_of_mem hm (by simp [e, fewer])
    simp [decrement, remove, contains, hs, e, fewer]

variable [LawfulEqOrd α]

@[ext] theorem ext {b c : Bag α} (h : ∀ a, b.count a = c.count a) : b = c := by
  have e : b.counts = c.counts := ExtTreeMap.ext_getElem? fun a => by
    have ha := h a
    have hb := b.counts_ne_zero a
    have hc := c.counts_ne_zero a
    simp only [count, ExtTreeMap.getD_eq_getD_getElem?] at ha
    cases eb : b.counts[a]? <;> cases ec : c.counts[a]? <;> grind
  cases b
  cases c
  cases e
  rfl

variable [DecidableEq α]

@[simp] theorem count_add (b : Bag α) (a c : α) :
    (b.add a).count c = b.count c + if a = c then 1 else 0 := by
  simp only [add, count, ExtTreeMap.getD_alter, Std.LawfulEqCmp.compare_eq_iff_eq]
  split
  · next h => subst h; simp [more, ExtTreeMap.getD_eq_getD_getElem?]
  · rfl

@[simp] theorem count_remove (b : Bag α) (a c : α) :
    (b.remove a).count c = b.count c - if a = c then 1 else 0 := by
  simp only [remove, count, ExtTreeMap.getD_alter, Std.LawfulEqCmp.compare_eq_iff_eq]
  split
  · next h =>
    subst h
    rw [ExtTreeMap.getD_eq_getD_getElem?]
    match b.counts[a]? with
    | none | some 0 | some 1 | some (n + 2) => rfl
  · rfl

end Bag
end Motif
