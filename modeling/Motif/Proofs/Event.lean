import Mathlib.Algebra.Order.Group.Multiset
import Mathlib.Tactic.Common
import Motif.Event
import Motif.Proofs.Bag
import Motif.Value.Order

set_option autoImplicit false
namespace Motif

namespace Event

def apply (e : Event) (m : Multiset Tuple) : Multiset Tuple :=
  match e.direction with
  | .insert => e.tuple ::ₘ m
  | .revoke => m.erase e.tuple

structure Suits (e : Event) (width : Nat) (flat : Prop) (m : Multiset Tuple) : Prop where
  width : e.tuple.length = width
  insert : e.direction = .insert → flat → e.tuple ∉ m
  revoke : e.direction = .revoke → e.tuple ∈ m

@[simp] theorem apply_insert (t : Tuple) (m : Multiset Tuple) :
    (Event.mk .insert t).apply m = t ::ₘ m := rfl

@[simp] theorem apply_revoke (t : Tuple) (m : Multiset Tuple) :
    (Event.mk .revoke t).apply m = m.erase t := rfl

theorem suits_insert {t : Tuple} {w : Nat} {flat : Prop} {m : Multiset Tuple} :
    (Event.mk .insert t).Suits w flat m ↔ t.length = w ∧ (flat → t ∉ m) :=
  ⟨fun h => ⟨h.width, h.insert rfl⟩, fun h => ⟨h.1, fun _ => h.2, fun h' => by cases h'⟩⟩

theorem suits_revoke {t : Tuple} {w : Nat} {flat : Prop} {m : Multiset Tuple} :
    (Event.mk .revoke t).Suits w flat m ↔ t.length = w ∧ t ∈ m :=
  ⟨fun h => ⟨h.width, h.revoke rfl⟩,
    fun h => ⟨h.1, fun h' => (Direction.noConfusion h' : _ → _), fun _ => h.2⟩⟩

theorem Suits.nodup_apply {e : Event} {w : Nat} {flat : Prop} {m : Multiset Tuple}
    (h : e.Suits w flat m) (hf : flat) (hm : m.Nodup) : (e.apply m).Nodup := by
  obtain ⟨d, t⟩ := e
  cases d with
  | insert => exact Multiset.nodup_cons.2 ⟨h.insert rfl hf, hm⟩
  | revoke => exact hm.erase _

/-- What the tuple is added to, or what is left when it goes. -/
def rest (e : Event) (m : Multiset Tuple) : Multiset Tuple :=
  match e.direction with
  | .insert => m
  | .revoke => m.erase e.tuple

section rest
variable {e : Event} {w : Nat} {flat : Prop} {m : Multiset Tuple}

theorem rest_of_insert (hd : e.direction = .insert) : e.rest m = m := by rw [rest, hd]

theorem apply_of_insert (hd : e.direction = .insert) : e.apply m = e.tuple ::ₘ e.rest m := by
  rw [apply, hd, rest_of_insert hd]

theorem apply_of_revoke (hd : e.direction = .revoke) : e.apply m = e.rest m := by
  rw [apply, hd, rest, hd]

theorem Suits.cons_rest (h : e.Suits w flat m) (hd : e.direction = .revoke) :
    m = e.tuple ::ₘ e.rest m := by
  rw [rest, hd]
  exact (Multiset.cons_erase (h.revoke hd)).symm

theorem mem_or_eq_of_mem_cons_rest {u : Tuple} (hu : u ∈ e.tuple ::ₘ e.rest m) :
    u = e.tuple ∨ u ∈ m := by
  refine (Multiset.mem_cons.1 hu).imp_right fun h => ?_
  obtain ⟨d, t⟩ := e
  cases d with
  | insert => exact h
  | revoke => exact Multiset.mem_of_mem_erase h

theorem Suits.width_cons_rest (h : e.Suits w flat m) (hw : ∀ u ∈ m, u.length = w) :
    ∀ u ∈ e.tuple ::ₘ e.rest m, u.length = w := by
  intro u hu
  rcases mem_or_eq_of_mem_cons_rest hu with rfl | hu
  · exact h.width
  · exact hw u hu

theorem Suits.nodup_cons_rest (h : e.Suits w flat m) (hf : flat) (hm : m.Nodup) :
    (e.tuple ::ₘ e.rest m).Nodup := by
  cases hd : e.direction with
  | insert =>
    rw [rest_of_insert hd]
    exact Multiset.nodup_cons.2 ⟨h.insert hd hf, hm⟩
  | revoke => exact h.cons_rest hd ▸ hm

end rest

end Event

def Leads (width : Nat) (flat : Prop) : Multiset Tuple → List Event → Multiset Tuple → Prop
  | m, [], m' => m = m'
  | m, e :: rest, m' => e.Suits width flat m ∧ Leads width flat (e.apply m) rest m'

namespace Leads
variable {w : Nat} {flat : Prop}

@[simp] theorem nil_iff {m m' : Multiset Tuple} : Leads w flat m [] m' ↔ m = m' := Iff.rfl

theorem refl (m : Multiset Tuple) : Leads w flat m [] m := rfl

theorem single {m : Multiset Tuple} {e : Event} (h : e.Suits w flat m) :
    Leads w flat m [e] (e.apply m) := ⟨h, rfl⟩

theorem trans {m m' m'' : Multiset Tuple} {es es' : List Event} (h : Leads w flat m es m')
    (h' : Leads w flat m' es' m'') : Leads w flat m (es ++ es') m'' := by
  induction es generalizing m with
  | nil =>
    cases h
    exact h'
  | cons e rest ih => exact ⟨h.1, ih h.2⟩

theorem weaken {flat' : Prop} (hf : flat' → flat) {m m' : Multiset Tuple} {es : List Event}
    (h : Leads w flat m es m') : Leads w flat' m es m' := by
  induction es generalizing m with
  | nil => exact h
  | cons e rest ih => exact ⟨⟨h.1.width, fun hd hf' => h.1.insert hd (hf hf'), h.1.revoke⟩, ih h.2⟩

theorem nodup {m m' : Multiset Tuple} {es : List Event} (h : Leads w flat m es m') (hf : flat)
    (hm : m.Nodup) : m'.Nodup := by
  induction es generalizing m with
  | nil =>
    cases h
    exact hm
  | cons e rest ih => exact ih h.2 (h.1.nodup_apply hf hm)

theorem width {m m' : Multiset Tuple} {es : List Event} (h : Leads w flat m es m')
    (hw : ∀ t ∈ m', t.length = w) : ∀ t ∈ m, t.length = w := by
  induction es generalizing m with
  | nil =>
    cases h
    exact hw
  | cons e rest ih =>
    obtain ⟨d, t⟩ := e
    have hr := ih h.2
    intro u hu
    cases d with
    | insert => exact hr u (Multiset.mem_cons_of_mem hu)
    | revoke =>
      by_cases e : u = t
      · exact e ▸ h.1.width
      · exact hr u ((Multiset.mem_erase_of_ne e).2 hu)

theorem width_right {m m' : Multiset Tuple} {es : List Event} (h : Leads w flat m es m')
    (hw : ∀ t ∈ m, t.length = w) : ∀ t ∈ m', t.length = w := by
  induction es generalizing m with
  | nil =>
    cases h
    exact hw
  | cons e rest ih =>
    obtain ⟨d, t⟩ := e
    refine ih h.2 fun u hu => ?_
    cases d with
    | insert =>
      rcases Multiset.mem_cons.1 hu with rfl | hu
      · exact h.1.width
      · exact hw u hu
    | revoke => exact hw u (Multiset.mem_of_mem_erase hu)

theorem inserts {m : Multiset Tuple} {l : List Tuple} (hw : ∀ t ∈ l, t.length = w)
    (hf : flat → (m + ↑l).Nodup) : Leads w flat m (l.map (Event.mk .insert)) (m + ↑l) := by
  induction l generalizing m with
  | nil => simp
  | cons t rest ih =>
    have e : m + (↑(t :: rest) : Multiset Tuple) = t ::ₘ m + ↑rest := by
      rw [← Multiset.cons_coe, Multiset.add_cons, Multiset.cons_add]
    rw [e] at hf ⊢
    refine ⟨Event.suits_insert.2 ⟨hw t (by simp), fun h hm => ?_⟩,
      ih (fun u hu => hw u (by simp [hu])) hf⟩
    have := hf h
    rw [Multiset.cons_add, Multiset.nodup_cons] at this
    exact this.1 (Multiset.mem_add.2 (.inl hm))

theorem revokes {m : Multiset Tuple} {l : List Tuple} (hw : ∀ t ∈ l, t.length = w) :
    Leads w flat (m + ↑l) (l.map (Event.mk .revoke)) m := by
  induction l generalizing m with
  | nil => simp
  | cons t rest ih =>
    have e : m + (↑(t :: rest) : Multiset Tuple) = t ::ₘ (m + ↑rest) := by
      rw [← Multiset.cons_coe, Multiset.add_cons]
    rw [e]
    refine ⟨Event.suits_revoke.2 ⟨hw t (by simp), Multiset.mem_cons_self _ _⟩, ?_⟩
    rw [Event.apply_revoke, Multiset.erase_cons_head]
    exact ih fun u hu => hw u (by simp [hu])

/-- What a function of the multiset gains by the tuple comes when the tuple comes, and goes when it
goes. -/
theorem of_rest {w' : Nat} {flat' : Prop} {F : Multiset Tuple → Multiset Tuple} {l : List Tuple}
    {e : Event} {m : Multiset Tuple} (h : e.Suits w flat m)
    (hF : F (e.tuple ::ₘ e.rest m) = F (e.rest m) + ↑l) (hw : ∀ t ∈ l, t.length = w')
    (hn : flat' → (F (e.tuple ::ₘ e.rest m)).Nodup) :
    Leads w' flat' (F m) (l.map (Event.mk e.direction)) (F (e.apply m)) := by
  cases hd : e.direction with
  | insert =>
    have hb : F m = F (e.rest m) := by rw [Event.rest_of_insert hd]
    rw [Event.apply_of_insert hd, hb, hF]
    exact inserts hw fun hf => hF ▸ hn hf
  | revoke =>
    have hb : F m = F (e.rest m) + ↑l := by rw [← hF, ← h.cons_rest hd]
    rw [Event.apply_of_revoke hd, hb]
    exact revokes hw

/-- What a function of the multiset loses by the tuple goes when the tuple comes, and comes when it
goes. -/
theorem of_rest_opposite {w' : Nat} {flat' : Prop} {F : Multiset Tuple → Multiset Tuple}
    {l : List Tuple} {e : Event} {m : Multiset Tuple} (h : e.Suits w flat m)
    (hF : F (e.rest m) = F (e.tuple ::ₘ e.rest m) + ↑l) (hw : ∀ t ∈ l, t.length = w')
    (hn : flat' → (F (e.rest m)).Nodup) :
    Leads w' flat' (F m) (l.map (Event.mk e.direction.opposite)) (F (e.apply m)) := by
  cases hd : e.direction with
  | insert =>
    have hb : F m = F (e.apply m) + ↑l := by
      rw [Event.apply_of_insert hd, ← hF, Event.rest_of_insert hd]
    rw [hb]
    exact revokes hw
  | revoke =>
    have hb : F m = F (e.tuple ::ₘ e.rest m) := by rw [← h.cons_rest hd]
    rw [Event.apply_of_revoke hd, hb, hF]
    exact inserts hw fun hf => hF ▸ hn hf

end Leads
end Motif
