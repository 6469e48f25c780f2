import Motif.Proofs.Model

set_option autoImplicit false
namespace Motif

open Std (ExtTreeMap ExtTreeSet)

def Write.isAddition : Write → Bool
  | .create _ | .addInstance .. | .addValue .. => true
  | _ => false

namespace Model

/-- The second model holds what the first one does and what its log tells besides. -/
structure Adds (m m' : Model) (news : List Change) : Prop where
  schema : m'.schema = m.schema
  log : m'.log = news ++ m.log
  insert : ∀ c ∈ news, c.event.direction = .insert
  tuples : ∀ r t, t ∈ m'.tuples r ↔ t ∈ m.tuples r ∨ ∃ c ∈ news, c.relation = r ∧ c.event.tuple = t

variable {m m' m'' : Model} {news news' : List Change}

theorem adds_of_eq (hs : m'.schema = m.schema) (hl : m'.log = m.log) (he : m'.extents = m.extents)
    (hf : m'.slots = m.slots) : Adds m m' [] := by
  refine ⟨hs, hl, by simp, fun r t => ?_⟩
  have same : m'.tuples r = m.tuples r := by
    cases r with
    | extent cls => simp only [Model.tuples, instancesOf, extent, he]
    | feature name => simp only [Model.tuples, featureTuples, featureBag, hf]
  simp [same]

theorem Adds.trans (a : Adds m m' news) (a' : Adds m' m'' news') : Adds m m'' (news' ++ news) := by
  refine ⟨a'.schema.trans a.schema, by rw [a'.log, a.log, List.append_assoc], fun c hc => ?_,
    fun r t => ?_⟩
  · rcases List.mem_append.1 hc with hc | hc
    · exact a'.insert c hc
    · exact a.insert c hc
  · rw [a'.tuples, a.tuples]
    simp only [List.mem_append, or_and_right, exists_or]
    exact or_assoc.trans (or_congr_right or_comm)

theorem mem_tuples_extent {cls : String} {t : Tuple} :
    t ∈ m.tuples (.extent cls) ↔ ∃ v ∈ m.extent cls, t = [v] := by
  simp [tuples, instancesOf, eq_comm]

theorem mem_extent_addInstance (m : Model) (cls : String) (v : Value) (c : String) (w : Value) :
    w ∈ (m.addInstance cls v).1.extent c ↔ w ∈ m.extent c ∨ cls = c ∧ v = w := by
  rw [addInstance]
  split
  · rename_i there
    refine (or_iff_left_of_imp ?_).symm
    rintro ⟨rfl, rfl⟩
    exact there
  · rw [extent, record, ExtTreeMap.getD_insert]
    by_cases hc : cls = c
    · subst hc
      rw [if_pos Std.ReflCmp.compare_self, ExtTreeSet.mem_insert]
      simp [or_comm]
    · simp [hc, extent]

theorem adds_addInstance (m : Model) (cls : String) (v : Value) :
    ∃ news, Adds m (m.addInstance cls v).1 news := by
  by_cases there : v ∈ m.extent cls
  · rw [addInstance, if_pos there]
    exact ⟨[], adds_of_eq rfl rfl rfl rfl⟩
  have mem := m.mem_extent_addInstance cls v
  rw [addInstance, if_neg there] at mem ⊢
  refine ⟨[⟨.extent cls, .insert, [v]⟩], rfl, rfl, by simp, fun r t => ?_⟩
  cases r with
  | extent c =>
    rw [mem_tuples_extent, mem_tuples_extent]
    simp only [mem, or_and_right, exists_or]
    refine or_congr_right ?_
    simp [eq_comm]
  | feature name => simp [mem_featureTuples, valuesOf, record, tuples]

theorem adds_addValue (m : Model) (holder : Value) (feature : String) (v : Value) :
    ∃ news, Adds m (m.addValue holder feature v).1 news := by
  rw [addValue]
  split
  · exact ⟨[], adds_of_eq rfl rfl rfl rfl⟩
  refine ⟨[⟨.feature feature, .insert, [holder, v]⟩], rfl, rfl, by simp, fun r t => ?_⟩
  cases r with
  | extent c => simp [mem_tuples_extent, extent, record]
  | feature name =>
    have mem : ∀ h w, w ∈ (m.slots.insert (holder, feature) (m.valuesOf holder feature ++ [v])).getD
        (h, name) [] ↔ w ∈ m.valuesOf h name ∨ feature = name ∧ holder = h ∧ v = w := by
      intro h w
      rw [ExtTreeMap.getD_insert]
      by_cases hk : (holder, feature) = (h, name)
      · cases hk
        rw [if_pos Std.ReflCmp.compare_self, List.mem_append, List.mem_singleton]
        simp [eq_comm]
      · rw [if_neg fun e => hk (Std.LawfulEqCmp.eq_of_compare e)]
        have : ¬(feature = name ∧ holder = h ∧ v = w) := fun e => hk (by rw [e.1, e.2.1])
        simp [this, valuesOf]
    rw [tuples, tuples, mem_featureTuples, mem_featureTuples]
    simp only [valuesOf, record] at mem ⊢
    simp only [mem, or_and_right, exists_or]
    refine or_congr_right ?_
    simp only [List.mem_singleton, exists_eq_left, Relation.feature.injEq]
    constructor
    · rintro ⟨h, w, ⟨rfl, rfl, rfl⟩, rfl⟩
      exact ⟨rfl, rfl⟩
    · rintro ⟨rfl, rfl⟩
      exact ⟨holder, v, ⟨rfl, rfl, rfl⟩, rfl⟩

theorem adds_foldl {α : Type} {step : Model → α → Model}
    (h : ∀ m a, ∃ news, Adds m (step m a) news) (m : Model) (l : List α) :
    ∃ news, Adds m (l.foldl step m) news := by
  induction l generalizing m with
  | nil => exact ⟨[], adds_of_eq rfl rfl rfl rfl⟩
  | cons a rest ih =>
    obtain ⟨news, first⟩ := h m a
    obtain ⟨news', others⟩ := ih (step m a)
    exact ⟨_, first.trans others⟩

theorem adds_write (m : Model) {w : Write} (hw : w.isAddition = true) :
    ∃ news, Adds m (m.write w).1 news := by
  cases w with
  | create cls =>
    obtain ⟨made, hmade⟩ : ∃ made : Model, made = { m with
        created := m.created + 1
        objects := m.objects.insert (UInt64.ofNat (m.created + 1)) cls } := ⟨_, rfl⟩
    obtain ⟨news, h⟩ := adds_foldl
      (fun m' c => m'.adds_addInstance c (.object (UInt64.ofNat (m.created + 1)))) made
      (m.schema.supertypesOf cls)
    have first : Adds m made [] := by
      rw [hmade]
      exact adds_of_eq rfl rfl rfl rfl
    rw [hmade] at first h
    exact ⟨_, first.trans h⟩
  | addInstance cls v => exact m.adds_addInstance cls v
  | addValue h f v => exact m.adds_addValue h f v
  | removeObject | removeInstance | removeValue | setValue => cases hw

/-- Writes that only add leave a log of what came. -/
theorem adds_writeAll (m : Model) {ws : List Write} (hw : ∀ w ∈ ws, w.isAddition = true) :
    ∃ news, Adds m (m.writeAll ws).1 news := by
  induction ws generalizing m with
  | nil => exact ⟨[], adds_of_eq rfl rfl rfl rfl⟩
  | cons w rest ih =>
    rw [writeAll, runAll_cons]
    obtain ⟨news, first⟩ := m.adds_write (hw w (by simp))
    obtain ⟨news', others⟩ := ih (m.write w).1 fun w hw' => hw w (by simp [hw'])
    exact ⟨_, first.trans others⟩

end Model
end Motif
