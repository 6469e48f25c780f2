import Mathlib.Data.Finset.Card
import Mathlib.Data.Prod.Lex
import Mathlib.Data.String.Basic
import Mathlib.Logic.Relation
import Motif.Pattern.Normal
import Motif.Proofs.Table

/-!
Links between variables. A link leads to a variable that comes before the one it leaves, with the
parameters in front of all others, so that no links go in a circle. Where the links come from
equalities, the variable at their end is the first of all that the equalities connect.
-/
set_option autoImplicit false
namespace Motif

namespace Merging
variable {parameters : List Variable} {m : Merging} {x y child root : Variable}

def rank (parameters : List Variable) (x : Variable) : Bool ×ₗ Variable :=
  toLex (!parameters.contains x, x)

theorem prefers_iff : prefers parameters x y = true ↔ rank parameters x ≤ rank parameters y := by
  rw [prefers, rank, rank, Prod.Lex.toLex_le_toLex]
  cases parameters.contains x <;> cases parameters.contains y <;>
    simp [← compare_le_iff_le, Ordering.isLE_iff_ne_gt]

theorem rank_le_rank_iff : rank parameters x ≤ rank parameters y ↔
    x ∈ parameters ∧ y ∉ parameters ∨ (x ∈ parameters ↔ y ∈ parameters) ∧ x ≤ y := by
  rw [rank, rank, Prod.Lex.toLex_le_toLex]
  by_cases hx : x ∈ parameters <;> by_cases hy : y ∈ parameters <;> simp [hx, hy]

theorem rank_injective (h : rank parameters x = rank parameters y) : x = y :=
  congrArg (fun p => (ofLex p).2) h

def Climbs (parameters : List Variable) (m : Merging) : Prop :=
  ∀ x y, m.get? x = some y → rank parameters y < rank parameters x

theorem climbs_empty : Climbs parameters .empty := fun _ _ h => by cases h

theorem Climbs.set (h : m.Climbs parameters) (lt : rank parameters root < rank parameters child) :
    Climbs parameters (m.set child root) := by
  intro x y hx
  rw [Table.get?_set] at hx
  split at hx
  · rename_i e
    cases hx
    exact e ▸ lt
  · exact h x y hx

def upTo (parameters : List Variable) (m : Merging) (x : Variable) : Finset Variable :=
  m.keys.toFinset.filter fun k => rank parameters k ≤ rank parameters x

theorem card_upTo_le (m : Merging) (x : Variable) : (m.upTo parameters x).card ≤ m.size :=
  calc (m.upTo parameters x).card
    _ ≤ m.keys.toFinset.card := Finset.card_filter_le _ _
    _ ≤ m.keys.length := m.keys.toFinset_card_le
    _ = m.size := List.length_map Prod.fst

theorem Climbs.card_upTo_lt (hm : m.Climbs parameters) (h : m.get? x = some y) :
    (m.upTo parameters y).card < (m.upTo parameters x).card := by
  have lt := hm x y h
  have linked : x ∈ m.keys := Table.mem_keys_of_get? h
  refine Finset.card_lt_card ((Finset.ssubset_iff_of_subset fun k hk => ?_).2 ⟨x, ?_, ?_⟩)
  · simp only [upTo, Finset.mem_filter] at hk ⊢
    exact ⟨hk.1, hk.2.trans lt.le⟩
  · simp [upTo, linked]
  · simp [upTo, lt]

theorem Climbs.wellFounded (hm : m.Climbs parameters) :
    WellFounded fun y x => m.get? x = some y :=
  Subrelation.wf hm.card_upTo_lt (measure fun x => (m.upTo parameters x).card).wf

theorem find_succ_of_none (turns : Nat) (h : m.get? x = none) :
    m.find (turns + 1) x = some x := by
  rw [find, h]

theorem Climbs.find_succ_of_some (hm : m.Climbs parameters) (turns : Nat) (h : m.get? x = some y) :
    m.find (turns + 1) x = m.find turns y := by
  rw [find, h]
  exact if_neg fun e => (hm x y h).ne (congrArg (rank parameters) e)

theorem Climbs.exists_find (hm : m.Climbs parameters) {turns : Nat}
    (enough : (m.upTo parameters x).card < turns) :
    ∃ root, m.find turns x = some root ∧ m.get? root = none := by
  induction turns generalizing x with
  | zero => exact absurd enough (Nat.not_lt_zero _)
  | succ turns ih =>
    cases hx : m.get? x with
    | none => exact ⟨x, find_succ_of_none turns hx, hx⟩
    | some y =>
      rw [hm.find_succ_of_some turns hx]
      exact ih ((hm.card_upTo_lt hx).trans_le (Nat.lt_succ_iff.1 enough))

theorem find_succ {turns : Nat} (h : m.find turns x = some root) :
    m.find (turns + 1) x = some root := by
  induction turns generalizing x with
  | zero => cases h
  | succ turns ih =>
    rw [find] at h ⊢
    cases hx : m.get? x with
    | none => simpa only [hx] using h
    | some y =>
      simp only [hx] at h ⊢
      split
      · rename_i e
        rwa [if_pos e] at h
      · rename_i e
        rw [if_neg e] at h
        exact ih h

theorem Climbs.find_rep (hm : m.Climbs parameters) (x : Variable) :
    m.find (m.size + 1) x = some (m.rep x) ∧ m.get? (m.rep x) = none := by
  obtain ⟨root, hr, top⟩ := hm.exists_find (Nat.lt_succ_of_le (card_upTo_le m x))
  rw [rep, hr, Option.getD_some]
  exact ⟨rfl, top⟩

theorem rep_of_none (h : m.get? x = none) : m.rep x = x := by
  rw [rep, find_succ_of_none m.size h, Option.getD_some]

theorem Climbs.rep_of_some (hm : m.Climbs parameters) (h : m.get? x = some y) :
    m.rep x = m.rep y := by
  have fewer : (m.upTo parameters y).card < m.size := (hm.card_upTo_lt h).trans_le (card_upTo_le m x)
  obtain ⟨root, hr, -⟩ := hm.exists_find fewer
  rw [rep, rep, hm.find_succ_of_some m.size h, hr, find_succ hr, Option.getD_some, Option.getD_some]

theorem Climbs.get?_rep (hm : m.Climbs parameters) (x : Variable) : m.get? (m.rep x) = none :=
  (hm.find_rep x).2

theorem Climbs.rank_rep_le (hm : m.Climbs parameters) (x : Variable) :
    rank parameters (m.rep x) ≤ rank parameters x := by
  induction x using hm.wellFounded.induction with
  | _ x ih =>
    cases hx : m.get? x with
    | none => rw [rep_of_none hx]
    | some y =>
      rw [hm.rep_of_some hx]
      exact (ih y hx).trans (hm x y hx).le

/-- With a link more, all that a variable stood for have what stands for it now. -/
theorem Climbs.rep_set (hm : m.Climbs parameters) (hroot : m.get? root = none)
    (hchild : m.get? child = none) (lt : rank parameters root < rank parameters child)
    (x : Variable) : rep (m.set child root) x = if m.rep x = child then root else m.rep x := by
  have climbs := hm.set lt
  have top : (m.set child root).get? root = none := by
    rw [Table.get?_set, if_neg fun e => lt.ne (congrArg (rank parameters) e.symm), hroot]
  induction x using hm.wellFounded.induction with
  | _ x ih =>
    by_cases e : child = x
    · have link : (m.set child root).get? x = some root := by rw [Table.get?_set, if_pos e]
      rw [climbs.rep_of_some link, rep_of_none top, rep_of_none (e ▸ hchild), if_pos e.symm]
    · have same : (m.set child root).get? x = m.get? x := by rw [Table.get?_set, if_neg e]
      cases hx : m.get? x with
      | none => rw [rep_of_none (same.trans hx), rep_of_none hx, if_neg (Ne.symm e)]
      | some y =>
        rw [climbs.rep_of_some (same.trans hx), hm.rep_of_some hx]
        exact ih y hx

/-- The links join what a relation connects and nothing else. -/
structure Merges (parameters : List Variable) (m : Merging)
    (equated : Variable → Variable → Prop) : Prop where
  climbs : m.Climbs parameters
  same : ∀ x y, equated x y → m.rep x = m.rep y
  within : ∀ x, Relation.EqvGen equated x (m.rep x)

variable {equated more : Variable → Variable → Prop}

theorem merges_empty : Merges parameters .empty fun _ _ => False where
  climbs := climbs_empty
  same _ _ h := h.elim
  within x := by
    rw [rep_of_none (Table.get?_empty x)]
    exact .refl x

theorem eq_of_eqvGen {α : Type} {f : Variable → α} (h : ∀ x y, equated x y → f x = f y)
    (hxy : Relation.EqvGen equated x y) : f x = f y := by
  induction hxy with
  | rel x y hxy => exact h x y hxy
  | refl x => rfl
  | symm x y _ ih => exact ih.symm
  | trans x y z _ _ ihx ihy => exact ihx.trans ihy

theorem Merges.rep_eq_iff (h : m.Merges parameters equated) :
    m.rep x = m.rep y ↔ Relation.EqvGen equated x y := by
  refine ⟨fun e => ?_, eq_of_eqvGen h.same⟩
  exact ((h.within x).trans _ _ _ (e ▸ .refl _)).trans _ _ _ (h.within y).symm

theorem Merges.rank_rep_le (h : m.Merges parameters equated)
    (hxy : Relation.EqvGen equated x y) : rank parameters (m.rep x) ≤ rank parameters y :=
  h.rep_eq_iff.2 hxy ▸ h.climbs.rank_rep_le y

/-- Values that are the same for what the relation equates are the same for a variable and the one that
stands for it. -/
theorem Merges.respects {α : Type} {σ : Variable → α} (h : m.Merges parameters equated)
    (e : ∀ x y, equated x y → σ x = σ y) (x : Variable) : σ (m.rep x) = σ x :=
  (eq_of_eqvGen e (h.within x)).symm

theorem Merges.set (h : m.Merges parameters equated) (le : ∀ a b, equated a b → more a b)
    (hroot : m.get? root = none) (hchild : m.get? child = none)
    (lt : rank parameters root < rank parameters child)
    (joined : Relation.EqvGen more child root)
    (new : ∀ a b, more a b → m.rep a = m.rep b ∨
      m.rep a = child ∧ m.rep b = root ∨ m.rep a = root ∧ m.rep b = child) :
    Merges parameters (m.set child root) more where
  climbs := h.climbs.set lt
  same a b hab := by
    rw [h.climbs.rep_set hroot hchild lt, h.climbs.rep_set hroot hchild lt]
    rcases new a b hab with e | ⟨ha, hb⟩ | ⟨ha, hb⟩
    · rw [e]
    · rw [if_pos ha, hb, ite_self]
    · rw [if_pos hb, ha, ite_self]
  within a := by
    have before := Relation.EqvGen.mono le _ _ (h.within a)
    rw [h.climbs.rep_set hroot hchild lt]
    split
    · rename_i e
      exact before.trans _ _ _ (e ▸ joined)
    · exact before

/-- Merging two variables joins all that is connected with the one or with the other. -/
theorem Merges.merge (h : m.Merges parameters equated) (x y : Variable) :
    Merges parameters (m.merge parameters x y) fun a b => equated a b ∨ a = x ∧ b = y := by
  have le : ∀ a b, equated a b → equated a b ∨ a = x ∧ b = y := fun _ _ => .inl
  have up : ∀ z, Relation.EqvGen (fun a b => equated a b ∨ a = x ∧ b = y) z (m.rep z) := fun z =>
    Relation.EqvGen.mono le _ _ (h.within z)
  have joined : Relation.EqvGen (fun a b => equated a b ∨ a = x ∧ b = y) (m.rep x) (m.rep y) :=
    ((up x).symm.trans _ _ _ (.rel x y (.inr ⟨rfl, rfl⟩))).trans _ _ _ (up y)
  rw [Merging.merge]
  split
  · rename_i e
    refine ⟨h.climbs, fun a b hab => ?_, up⟩
    rcases hab with hab | ⟨rfl, rfl⟩
    · exact h.same a b hab
    · exact e
  · rename_i apart
    have apart : rank parameters (m.rep x) ≠ rank parameters (m.rep y) := fun e =>
      apart (rank_injective e)
    split
    · rename_i first
      refine h.set le (h.climbs.get?_rep x) (h.climbs.get?_rep y)
        ((prefers_iff.1 first).lt_of_ne apart) joined.symm fun a b hab => ?_
      exact hab.imp (h.same a b) fun ⟨ha, hb⟩ => .inr ⟨ha ▸ rfl, hb ▸ rfl⟩
    · rename_i first
      rw [prefers_iff, not_le] at first
      refine h.set le (h.climbs.get?_rep y) (h.climbs.get?_rep x) first joined fun a b hab => ?_
      exact hab.imp (h.same a b) fun ⟨ha, hb⟩ => .inl ⟨ha ▸ rfl, hb ▸ rfl⟩

def Equated (cs : List Constraint) (x y : Variable) : Prop := .equal x y ∈ cs

theorem Merges.addConstraint (h : m.Merges parameters equated) (k : Constraint) :
    Merges parameters (m.addConstraint parameters k) fun x y => equated x y ∨ k = .equal x y := by
  cases k with
  | equal l r =>
    have all := h.merge l r
    simpa only [Merging.addConstraint, Constraint.equal.injEq, eq_comm] using all
  | _ => simpa only [Merging.addConstraint, reduceCtorEq, or_false] using h

theorem Merges.foldl (h : m.Merges parameters equated) (cs : List Constraint) :
    Merges parameters (cs.foldl (Merging.addConstraint parameters) m)
      fun x y => equated x y ∨ Equated cs x y := by
  induction cs generalizing m equated with
  | nil => simpa only [Equated, List.not_mem_nil, or_false, List.foldl_nil] using h
  | cons k rest ih =>
    have all := ih (h.addConstraint k)
    simpa only [Equated, List.mem_cons, or_assoc, eq_comm, List.foldl_cons] using all

theorem merges_ofConstraints (parameters : List Variable) (cs : List Constraint) :
    (ofConstraints parameters cs).Merges parameters (Equated cs) := by
  have start : Merges parameters .empty fun _ _ => False := merges_empty
  simpa only [false_or, ofConstraints] using start.foldl cs

end Merging
end Motif
