import Motif.Proofs.Algebra.Extensions
import Motif.Proofs.Meaning
import Motif.Search.Run

/-!
Frames read as partial assignments: the values that suit a frame are those that have, for every
variable, what its slot holds. An operation continues a frame with frames that together are suited
by the values that suit it and satisfy the operation's constraint.
-/
set_option autoImplicit false
namespace Motif

open Std (ExtTreeSet)

namespace Slots
variable {s : Slots} {x y : Variable} {i : Nat}

theorem slot?_of_ok (h : s.slot x = .ok i) : s.slot? x = some i := by
  rw [slot] at h
  split at h
  · rename_i e
    cases h
    exact e
  · cases h

theorem lt_of_slot? (h : s.slot? x = some i) : i < s.size :=
  (List.findIdx?_eq_some_iff_getElem.1 h).1

theorem slot?_inj (hx : s.slot? x = some i) (hy : s.slot? y = some i) : x = y := by
  obtain ⟨_, hx, -⟩ := List.findIdx?_eq_some_iff_getElem.1 hx
  obtain ⟨_, hy, -⟩ := List.findIdx?_eq_some_iff_getElem.1 hy
  exact (of_decide_eq_true hx).symm.trans (of_decide_eq_true hy)

theorem mem_slotsOf {xs : ExtTreeSet Variable} :
    i ∈ s.slotsOf xs ↔ ∃ x ∈ xs, s.slot? x = some i := by
  simp [slotsOf, List.mem_filterMap]

theorem mem_slotsOf_slot {xs : ExtTreeSet Variable} (h : s.slot? x = some i) :
    i ∈ s.slotsOf xs ↔ x ∈ xs := by
  rw [mem_slotsOf]
  constructor
  · rintro ⟨y, hy, e⟩
    rwa [slot?_inj h e]
  · exact fun hx => ⟨x, hx, h⟩

end Slots

namespace Frame
variable {s : Slots} {f g : Frame} {x : Variable} {i : Nat} {v : Value} {σ : Assignment}

def valueOf (f : Frame) (s : Slots) (x : Variable) : Option Value := (s.slot? x).bind f.value?

def Suits (f : Frame) (s : Slots) (σ : Assignment) : Prop :=
  ∀ x v, f.valueOf s x = some v → σ x = v

def Binds (f : Frame) (s : Slots) (x : Variable) : Prop := (f.valueOf s x).isSome = true

theorem valueOf_of_slot (h : s.slot? x = some i) : f.valueOf s x = f.value? i := by
  rw [valueOf, h]
  rfl

theorem Suits.valueOf (h : f.Suits s σ) (hb : f.Binds s x) : f.valueOf s x = some (σ x) := by
  obtain ⟨v, hv⟩ := Option.isSome_iff_exists.1 hb
  rw [hv, h x v hv]

theorem exists_suits (f : Frame) (s : Slots) : ∃ σ, f.Suits s σ := by
  refine ⟨fun x => (f.valueOf s x).getD .null, fun x v h => ?_⟩
  simp only [h, Option.getD_some]

theorem Suits.value? (h : f.Suits s σ) (hx : s.slot? x = some i) (hb : f.Binds s x) :
    f.value? i = some (σ x) := by
  rw [← valueOf_of_slot hx, h.valueOf hb]

def blank (s : Slots) : Frame := List.replicate s.size none

theorem length_blank (s : Slots) : (blank s).length = s.size := List.length_replicate

theorem suits_blank (s : Slots) (σ : Assignment) : (blank s).Suits s σ := by
  intro x v h
  obtain ⟨i, -, h⟩ := Option.bind_eq_some_iff.1 h
  rw [value?, blank, List.getElem?_replicate] at h
  split at h <;> cases h

theorem Binds.exists_value (hb : f.Binds s x) (hx : s.slot? x = some i) :
    ∃ v, f.value? i = some v ∧ ∀ σ, f.Suits s σ → σ x = v := by
  obtain ⟨v, hv⟩ := Option.isSome_iff_exists.1 hb
  exact ⟨v, by rw [← valueOf_of_slot hx, hv], fun σ hσ => hσ x v hv⟩

theorem value?_of_put? (h : f.put? i v = some g) : g.length = f.length ∧
    (∀ old, f.value? i = some old → old = v) ∧
      (i < f.length → g.value? i = some v) ∧ ∀ j, j ≠ i → g.value? j = f.value? j := by
  rw [put?] at h
  cases hv : f.value? i with
  | some old =>
    simp only [hv, Option.ite_none_right_eq_some, Option.some_inj] at h
    obtain ⟨rfl, rfl⟩ := h
    exact ⟨rfl, fun _ e => (Option.some_inj.1 e).symm, fun _ => hv, fun _ _ => rfl⟩
  | none =>
    simp only [hv, Option.some_inj] at h
    subst h
    refine ⟨List.length_set, nofun, fun hi => ?_, fun j hj => ?_⟩
    · rw [value?, List.getElem?_set_self hi]
      rfl
    · rw [value?, value?, List.getElem?_set_ne hj.symm]

/-- A value put into the slot of a variable is what the variable has then, and it had no other. -/
theorem put?_some (hx : s.slot? x = some i) (hf : f.length = s.size) (h : f.put? i v = some g) :
    g.length = s.size ∧ (∀ old, f.valueOf s x = some old → old = v) ∧
      ∀ y, g.valueOf s y = if y = x then some v else f.valueOf s y := by
  obtain ⟨length, only, here, elsewhere⟩ := value?_of_put? h
  refine ⟨length.trans hf, valueOf_of_slot hx ▸ only, fun y => ?_⟩
  split
  · rename_i e
    rw [e, valueOf_of_slot hx, here (hf ▸ Slots.lt_of_slot? hx)]
  · rename_i hy
    cases hj : s.slot? y with
    | none => rw [valueOf, valueOf, hj]; rfl
    | some j =>
      have hij : j ≠ i := fun e => hy (Slots.slot?_inj (e ▸ hj) hx)
      rw [valueOf_of_slot hj, valueOf_of_slot hj, elsewhere j hij]

theorem put?_none (hx : s.slot? x = some i) (h : f.put? i v = none) :
    ∃ old, old ≠ v ∧ f.valueOf s x = some old := by
  rw [put?] at h
  rw [valueOf_of_slot hx]
  cases hv : f.value? i with
  | some old =>
    refine ⟨old, ?_, rfl⟩
    rintro rfl
    simp [hv] at h
  | none => simp [hv] at h

theorem suits_put? (hx : s.slot? x = some i) (hf : f.length = s.size) :
    (∃ g ∈ f.put? i v, g.Suits s σ) ↔ f.Suits s σ ∧ σ x = v := by
  cases h : f.put? i v with
  | none =>
    obtain ⟨old, hne, hold⟩ := put?_none hx h
    simp only [Option.mem_def, reduceCtorEq, false_and, exists_false, false_iff, not_and]
    exact fun hs e => hne ((hs x old hold).symm.trans e)
  | some g =>
    obtain ⟨-, kept, values⟩ := put?_some hx hf h
    simp only [Option.mem_def, Option.some_inj, exists_eq_left']
    constructor
    · intro hs
      have hv : σ x = v := hs x v (by rw [values, if_pos rfl])
      refine ⟨fun y w hy => ?_, hv⟩
      by_cases e : y = x
      · rw [e] at hy ⊢
        rw [hv, kept w hy]
      · exact hs y w (by rw [values, if_neg e, hy])
    · rintro ⟨hs, rfl⟩ y w hy
      rw [values] at hy
      split at hy
      · rename_i e
        rw [e, Option.some_inj.1 hy]
      · exact hs y w hy

theorem binds_put? (hx : s.slot? x = some i) (hf : f.length = s.size) (h : g ∈ f.put? i v)
    {y : Variable} : g.Binds s y ↔ y = x ∨ f.Binds s y := by
  obtain ⟨-, -, values⟩ := put?_some hx hf h
  rw [Binds, values]
  split <;> simp_all [Binds]

/-- The frames that an operation continues a frame with: what was bound stays bound, the variables
of `xs` are bound, and the values that suit one of them are those that suit the frame and have the
property. -/
structure Continues (f : Frame) (s : Slots) (xs : Variable → Prop) (P : Assignment → Prop)
    (next : List Frame) : Prop where
  length : ∀ g ∈ next, g.length = s.size
  kept : ∀ g ∈ next, ∀ x, f.Binds s x → g.Binds s x
  binds : ∀ g ∈ next, ∀ x, xs x → g.Binds s x
  suits : ∀ σ, (∃ g ∈ next, g.Suits s σ) ↔ f.Suits s σ ∧ P σ

variable {xs : Variable → Prop} {P : Assignment → Prop}

theorem Continues.of_keep (hf : f.length = s.size) (hb : ∀ x, xs x → f.Binds s x) {ok : Bool}
    (hP : ∀ σ, f.Suits s σ → (ok = true ↔ P σ)) : f.Continues s xs P (Searcher.keep f ok) := by
  have mem : ∀ g, g ∈ Searcher.keep f ok ↔ ok = true ∧ g = f := by
    intro g
    rw [Searcher.keep]
    split <;> simp_all
  refine ⟨fun g hg => ?_, fun g hg x hx => ?_, fun g hg x hx => ?_, fun σ => ?_⟩
  · rw [((mem g).1 hg).2, hf]
  · rw [((mem g).1 hg).2]
    exact hx
  · rw [((mem g).1 hg).2]
    exact hb x hx
  · constructor
    · rintro ⟨g, hg, hs⟩
      obtain ⟨hok, rfl⟩ := (mem g).1 hg
      exact ⟨hs, (hP σ hs).1 hok⟩
    · rintro ⟨hs, hp⟩
      exact ⟨f, (mem f).2 ⟨(hP σ hs).2 hp, rfl⟩, hs⟩

theorem Continues.of_put (hx : s.slot? x = some i) (hf : f.length = s.size)
    (hb : ∀ y, xs y → y = x ∨ f.Binds s y) {vs : List Value}
    (hP : ∀ σ, f.Suits s σ → (σ x ∈ vs ↔ P σ)) :
    f.Continues s xs P (vs.filterMap (f.put? i)) where
  length g hg := by
    obtain ⟨v, -, hv⟩ := List.mem_filterMap.1 hg
    exact (put?_some hx hf hv).1
  kept g hg y hy := by
    obtain ⟨v, -, hv⟩ := List.mem_filterMap.1 hg
    exact (binds_put? hx hf hv).2 (.inr hy)
  binds g hg y hy := by
    obtain ⟨v, -, hv⟩ := List.mem_filterMap.1 hg
    exact (binds_put? hx hf hv).2 (hb y hy)
  suits σ := by
    constructor
    · rintro ⟨g, hg, hs⟩
      obtain ⟨v, hm, hv⟩ := List.mem_filterMap.1 hg
      obtain ⟨hsf, rfl⟩ := (suits_put? hx hf).1 ⟨g, hv, hs⟩
      exact ⟨hsf, (hP σ hsf).1 hm⟩
    · rintro ⟨hsf, hp⟩
      obtain ⟨g, hg, hs⟩ := (suits_put? hx hf).2 ⟨hsf, rfl⟩
      exact ⟨g, List.mem_filterMap.2 ⟨σ x, (hP σ hsf).2 hp, hg⟩, hs⟩

theorem Continues.of_put_option (hx : s.slot? x = some i) (hf : f.length = s.size)
    (hb : ∀ y, xs y → y = x ∨ f.Binds s y) {o : Option Value}
    (hP : ∀ σ, f.Suits s σ → (o = some (σ x) ↔ P σ)) :
    f.Continues s xs P (o.bind (f.put? i)).toList := by
  have same : (o.bind (f.put? i)).toList = o.toList.filterMap (f.put? i) := by
    cases o with
    | none => rfl
    | some v => cases h : f.put? i v <;> simp [h]
  rw [same]
  refine .of_put hx hf hb fun σ hs => ?_
  rw [← hP σ hs, Option.mem_toList]

/-- Values for two variables are tried pair by pair. -/
theorem Continues.of_put_pairs {y : Variable} {j : Nat} (hx : s.slot? x = some i)
    (hy : s.slot? y = some j) (hf : f.length = s.size)
    (hb : ∀ z, xs z → z = x ∨ z = y ∨ f.Binds s z) {hs : List Value} {vs : Value → List Value}
    (hP : ∀ σ, f.Suits s σ → (σ x ∈ hs ∧ σ y ∈ vs (σ x) ↔ P σ)) :
    f.Continues s xs P
      (hs.flatMap fun h => (vs h).filterMap fun v => do (← f.put? i h).put? j v) := by
  have mem : ∀ g, (g ∈ hs.flatMap fun h => (vs h).filterMap fun v => do (← f.put? i h).put? j v) ↔
      ∃ h ∈ hs, ∃ f', f.put? i h = some f' ∧ ∃ v ∈ vs h, f'.put? j v = some g := by
    intro g
    simp only [List.mem_flatMap, List.mem_filterMap, Option.bind_eq_bind,
      Option.bind_eq_some_iff]
    grind
  refine ⟨fun g hg => ?_, fun g hg z hz => ?_, fun g hg z hz => ?_, fun σ => ?_⟩
  · obtain ⟨h, -, f', hf', v, -, hg⟩ := (mem g).1 hg
    exact (put?_some hy (put?_some hx hf hf').1 hg).1
  · obtain ⟨h, -, f', hf', v, -, hg⟩ := (mem g).1 hg
    exact (binds_put? hy (put?_some hx hf hf').1 hg).2 (.inr ((binds_put? hx hf hf').2 (.inr hz)))
  · obtain ⟨h, -, f', hf', v, -, hg⟩ := (mem g).1 hg
    rw [binds_put? hy (put?_some hx hf hf').1 hg, binds_put? hx hf hf']
    rcases hb z hz with hz | hz | hz
    · exact .inr (.inl hz)
    · exact .inl hz
    · exact .inr (.inr hz)
  · constructor
    · rintro ⟨g, hg, hσ⟩
      obtain ⟨h, hh, f', hf', v, hv, hg⟩ := (mem g).1 hg
      obtain ⟨hσ', rfl⟩ := (suits_put? hy (put?_some hx hf hf').1).1 ⟨g, hg, hσ⟩
      obtain ⟨hσf, rfl⟩ := (suits_put? hx hf).1 ⟨f', hf', hσ'⟩
      exact ⟨hσf, (hP σ hσf).1 ⟨hh, hv⟩⟩
    · rintro ⟨hσf, hp⟩
      obtain ⟨hh, hv⟩ := (hP σ hσf).2 hp
      obtain ⟨f', hf', hσ'⟩ := (suits_put? hx hf).2 ⟨hσf, rfl⟩
      obtain ⟨g, hg, hσ⟩ := (suits_put? hy (put?_some hx hf hf').1).2 ⟨hσ', rfl⟩
      exact ⟨g, (mem g).2 ⟨σ x, hh, f', hf', σ y, hv, hg⟩, hσ⟩

theorem Continues.of_none (hP : ∀ σ, f.Suits s σ → ¬P σ) : f.Continues s xs P [] where
  length g hg := by cases hg
  kept g hg := by cases hg
  binds g hg := by cases hg
  suits σ := by
    simp only [List.not_mem_nil, false_and, exists_false, false_iff, not_and]
    exact hP σ

end Frame
end Motif
