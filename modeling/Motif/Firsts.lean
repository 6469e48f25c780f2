import Std.Data.ExtTreeSet

set_option autoImplicit false
namespace Motif

open Std (ExtTreeSet TransOrd LawfulEqOrd)

variable {α : Type} [Ord α] [TransOrd α]

def keepFirst (kept : ExtTreeSet α × List α) (a : α) : ExtTreeSet α × List α :=
  if a ∈ kept.1 then kept else (kept.1.insert a, a :: kept.2)

def firsts (l : List α) : List α := (l.foldl keepFirst (∅, [])).2.reverse

variable [LawfulEqOrd α] [BEq α] [LawfulBEq α]

theorem reverse_foldl_keepFirst (l : List α) (kept : ExtTreeSet α × List α)
    (h : ∀ a, a ∈ kept.1 ↔ a ∈ kept.2) :
    (l.foldl keepFirst kept).2.reverse = List.eraseDupsBy.loop (· == ·) l kept.2 := by
  induction l generalizing kept with
  | nil => rfl
  | cons a rest ih =>
    rw [List.foldl_cons, List.eraseDupsBy.loop, keepFirst]
    by_cases ha : a ∈ kept.1
    · have hb : kept.2.any (fun b => a == b) = true := by simpa using (h a).1 ha
      rw [if_pos ha, ih kept h, hb]
    · have hb : kept.2.any (fun b => a == b) = false := by
        simp only [List.any_eq_false, beq_iff_eq]
        rintro b hb rfl
        exact ha ((h a).2 hb)
      rw [if_neg ha, ih _ fun b => by simp [ExtTreeSet.mem_insert, h b, eq_comm (a := b)], hb]

theorem firsts_eq_eraseDups (l : List α) : firsts l = l.eraseDups :=
  reverse_foldl_keepFirst l (∅, []) fun a => by simp

end Motif
