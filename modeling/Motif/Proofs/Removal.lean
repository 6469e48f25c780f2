import Motif.Proofs.History
import Motif.Proofs.Log

/-!
The two indexes of a feature, and the end of an object. Followed from the holder, from the value or as
a relation, a feature has a pair equally often, and a unique one has it at most once. Neither index
keeps an entry for nothing.

When an object ends, all values it holds go, and it goes as a value of others; it leaves its class and
those above. What else the model holds stays, and the log tells of each tuple that went. Only in a
class that the object was put into by itself, and that is not above its own, it stays an instance.
-/
set_option autoImplicit false
namespace Motif

open Std (ExtTreeMap ExtTreeSet)

namespace Model
variable {m : Model}

def Filled (m : Model) : Prop :=
  (∀ key : Value × String, m.slots[key]? ≠ some []) ∧ ∀ key : String × Value, m.holders[key]? ≠ some []

theorem without_ne_nil {α : Type} [DecidableEq α] (l : List α) (a : α) : without l a ≠ some [] := by
  rw [without]
  split
  · exact nofun
  · rename_i left
    exact fun e => left (Option.some.inj e)

theorem ne_nil_insert {κ α : Type} [Ord κ] [Std.TransOrd κ] [Std.LawfulEqOrd κ]
    {entries : ExtTreeMap κ (List α)} (h : ∀ key : κ, entries[key]? ≠ some []) (k : κ) (l : List α)
    (a : α) (key : κ) : (entries.insert k (l ++ [a]))[key]? ≠ some [] := by
  rw [ExtTreeMap.getElem?_insert]
  split
  · simp
  · exact h key

theorem ne_nil_alter {κ α : Type} [DecidableEq α] [Ord κ] [Std.TransOrd κ] [Std.LawfulEqOrd κ]
    {entries : ExtTreeMap κ (List α)} (h : ∀ key : κ, entries[key]? ≠ some []) (k : κ) (a : α)
    (key : κ) : (entries.alter k fun l => without (l.getD []) a)[key]? ≠ some [] := by
  rw [ExtTreeMap.getElem?_alter]
  split
  · exact without_ne_nil _ a
  · exact h key

theorem Filled.addValue (hm : m.Filled) (h : Value) (feature : String) (v : Value) :
    (m.addValue h feature v).1.Filled := by
  rw [Model.addValue]
  split
  · exact hm
  · exact ⟨ne_nil_insert hm.1 (h, feature) _ v, ne_nil_insert hm.2 (feature, v) _ h⟩

theorem Filled.removeValue (hm : m.Filled) (h : Value) (feature : String) (v : Value) :
    (m.removeValue h feature v).1.Filled := by
  rw [Model.removeValue]
  split
  · exact ⟨ne_nil_alter hm.1 (h, feature) v, ne_nil_alter hm.2 (feature, v) h⟩
  · exact hm

theorem Reached.filled (hm : m.Reached) : m.Filled := by
  induction hm with
  | start schema => exact ⟨fun key => by simp, fun key => by simp⟩
  | write w _ ih =>
    refine write_keeps (P := Filled) (fun m m' _ hs hh hm => ?_)
      (fun m h f v hm => hm.addValue h f v) (fun m h f v hm => hm.removeValue h f v) ih w
    rw [Filled, hs, hh]
    exact hm
  | drain _ ih => exact ih

/-- After any writes a pair is found equally often from either end and in the relation. -/
theorem indexes_agree (schema : Schema) (ws : List Write) :
    let m := (Model.writeAll { schema } ws).1
    (∀ holder feature v,
      (m.holdersOf feature v).count holder = (m.valuesOf holder feature).count v ∧
      (m.featureTuples feature).count [holder, v] = (m.valuesOf holder feature).count v ∧
      (m.graph.hasValue holder feature v = true ↔ 0 < (m.valuesOf holder feature).count v) ∧
      (schema.isUniqueFeature feature = true → (m.valuesOf holder feature).count v ≤ 1)) ∧
    (∀ feature, schema.feature? feature = none → schema.isUniqueFeature feature = true) ∧
    m.Filled := by
  intro m
  have reached : m.Reached := (Reached.start schema).writeAll ws
  obtain ⟨news, logs⟩ := logs_writeAll { schema } ws
  have same : m.schema = schema := logs.schema
  refine ⟨fun holder feature v => ⟨reached.converse holder feature v,
    count_featureTuples m holder feature v, ?_, fun unique => ?_⟩, fun feature undeclared => ?_,
    reached.filled⟩
  · rw [List.count_pos_iff]
    exact List.contains_iff_mem
  · rw [← same] at unique
    exact List.nodup_iff_count_le_one.1 (reached.sets feature unique holder) v
  · rw [Schema.isUniqueFeature, undeclared]
    rfl

variable {m' m'' : Model}

abbrev Link := Value × String × Value

def cut (m : Model) (l : Link) : Model := (m.removeValue l.1 l.2.1 l.2.2).1

def linked (m : Model) (l : Link) : Nat := (m.valuesOf l.1 l.2.1).count l.2.2

theorem linked_cut (m : Model) (l k : Link) : (m.cut l).linked k = m.linked k - if k = l then 1 else 0 := by
  obtain ⟨h, feature, v⟩ := l
  obtain ⟨h', feature', v'⟩ := k
  simp only [cut, linked, removeValue]
  split
  · simp only [valuesOf, record, ExtTreeMap.getD_alter]
    by_cases hk : compare (h, feature) (h', feature') = .eq
    · rw [if_pos hk]
      cases Std.LawfulEqCmp.eq_of_compare hk
      rw [getD_without, List.count_erase, ExtTreeMap.getD_eq_getD_getElem?]
      by_cases hv : v' = v
      · simp [hv]
      · simp [hv, Ne.symm hv]
    · rw [if_neg hk, if_neg, Nat.sub_zero]
      rintro ⟨⟩
      exact hk Std.ReflCmp.compare_self
  · rename_i absent
    by_cases hk : (h', feature', v') = (h, feature, v)
    · cases hk
      rw [List.contains_iff_mem] at absent
      rw [List.count_eq_zero_of_not_mem absent, Nat.zero_sub]
    · rw [if_neg hk, Nat.sub_zero]

theorem linked_cutAll (m : Model) (ls : List Link) (k : Link) :
    (ls.foldl cut m).linked k = m.linked k - ls.count k := by
  induction ls generalizing m with
  | nil => rfl
  | cons l rest ih =>
    rw [List.foldl_cons, ih, linked_cut, List.count_cons, Nat.sub_sub]
    by_cases hk : k = l
    · rw [if_pos hk, if_pos (beq_iff_eq.2 hk.symm), Nat.add_comm]
    · rw [if_neg hk, if_neg fun e => hk (beq_iff_eq.1 e).symm, Nat.add_comm]

def heldBy (m : Model) (object : Value) : List Link :=
  ((m.slots.toList.filter fun e => e.1.1 = object).flatMap fun e => e.2.map fun v => (e.1.2, v)).map
    fun p => (object, p.1, p.2)

def referringTo (m : Model) (object : Value) : List Link :=
  ((m.holders.toList.filter fun e => e.1.2 = object).flatMap fun e => e.2.map fun h => (e.1.1, h)).map
    fun p => (p.2, p.1, object)

theorem count_heldBy (m : Model) (object : Value) (k : Link) :
    (m.heldBy object).count k = if k.1 = object then m.linked k else 0 := by
  obtain ⟨h, feature, v⟩ := k
  split
  · rename_i e
    obtain rfl : h = object := e
    rw [heldBy, linked, valuesOf,
      List.count_map_of_injective _ (fun p : String × Value => (h, p.1, p.2))
        (fun p q e => by simpa [Prod.ext_iff] using e) (feature, v)]
    refine count_entries m.slots (fun k => decide (k.1 = h)) (fun k w => (k.2, w))
      (fun k k' w w' hk hk' e => ?_) (k := (h, feature)) (decide_eq_true rfl) v
    obtain ⟨e, e'⟩ := Prod.ext_iff.1 e
    exact ⟨Prod.ext ((of_decide_eq_true hk).trans (of_decide_eq_true hk').symm) e, e'⟩
  · rename_i other
    refine List.count_eq_zero_of_not_mem fun hm => other ?_
    obtain ⟨p, -, e⟩ := List.mem_map.1 hm
    exact (congrArg Prod.fst e).symm

theorem count_referringTo (conv : m.Converse) (object : Value) (k : Link) :
    (m.referringTo object).count k = if k.2.2 = object then m.linked k else 0 := by
  obtain ⟨h, feature, v⟩ := k
  split
  · rename_i e
    obtain rfl : v = object := e
    rw [referringTo, linked, ← conv, holdersOf,
      List.count_map_of_injective _ (fun p : String × Value => (p.2, p.1, v))
        (fun p q e => by simpa [Prod.ext_iff, and_comm] using e) (feature, h)]
    refine count_entries m.holders (fun k => decide (k.2 = v)) (fun k w => (k.1, w))
      (fun k k' w w' hk hk' e => ?_) (k := (feature, v)) (decide_eq_true rfl) h
    obtain ⟨e, e'⟩ := Prod.ext_iff.1 e
    exact ⟨Prod.ext e ((of_decide_eq_true hk).trans (of_decide_eq_true hk').symm), e'⟩
  · rename_i other
    refine List.count_eq_zero_of_not_mem fun hm => other ?_
    obtain ⟨p, -, e⟩ := List.mem_map.1 hm
    exact (congrArg (fun l : Link => l.2.2) e).symm

def Revokes (m m' : Model) : Prop :=
  ∃ news, Logs m m' news ∧ ∀ c ∈ news, c.event.direction = .revoke

def leaveAll (m : Model) (object : Value) (classes : List String) : Model :=
  classes.foldl (fun m c => (m.removeInstance c object).1) m

theorem mem_extent_leaveAll {object v : Value} {classes : List String} {cls : String} :
    v ∈ (m.leaveAll object classes).extent cls ↔ v ∈ m.extent cls ∧ ¬(v = object ∧ cls ∈ classes) := by
  have one : ∀ (m : Model) (c : String), v ∈ (m.removeInstance c object).1.extent cls ↔
      v ∈ m.extent cls ∧ ¬(v = object ∧ cls = c) := by
    intro m c
    rw [removeInstance]
    split
    · by_cases hc : c = cls
      · subst hc
        simp only [extent, record, ExtTreeMap.getD_insert_self, ExtTreeSet.mem_erase, ne_eq,
          Std.LawfulEqCmp.compare_eq_iff_eq, and_true]
        rw [and_comm, eq_comm]
      · simp [extent, record, ExtTreeMap.getD_insert, hc, Ne.symm hc]
    · rename_i absent
      refine ⟨fun h => ⟨h, ?_⟩, And.left⟩
      rintro ⟨rfl, rfl⟩
      exact absent h
  induction classes generalizing m with
  | nil => simp [leaveAll]
  | cons c rest ih =>
    refine ih.trans ?_
    rw [one, List.mem_cons]
    tauto

theorem slots_leaveAll {object : Value} {classes : List String} :
    (m.leaveAll object classes).slots = m.slots ∧ (m.leaveAll object classes).objects = m.objects := by
  induction classes generalizing m with
  | nil => exact ⟨rfl, rfl⟩
  | cons c rest ih =>
    have same : (m.removeInstance c object).1.slots = m.slots ∧
        (m.removeInstance c object).1.objects = m.objects := by
      rw [removeInstance]
      split <;> exact ⟨rfl, rfl⟩
    exact ⟨ih.1.trans same.1, ih.2.trans same.2⟩

theorem extents_cutAll {ls : List Link} :
    (ls.foldl cut m).extents = m.extents ∧ (ls.foldl cut m).objects = m.objects ∧
      (ls.foldl cut m).schema = m.schema := by
  induction ls generalizing m with
  | nil => exact ⟨rfl, rfl, rfl⟩
  | cons l rest ih =>
    have same : (m.cut l).extents = m.extents ∧ (m.cut l).objects = m.objects ∧
        (m.cut l).schema = m.schema := by
      rw [cut, removeValue]
      split <;> exact ⟨rfl, rfl, rfl⟩
    exact ⟨ih.1.trans same.1, ih.2.1.trans same.2.1, ih.2.2.trans same.2.2⟩

theorem converse_cutAll (conv : m.Converse) (ls : List Link) : (ls.foldl cut m).Converse := by
  induction ls generalizing m with
  | nil => exact conv
  | cons l rest ih => exact ih (conv.removeValue _ _ _)

theorem Revokes.refl (m : Model) : Revokes m m := ⟨[], logs_of_eq rfl rfl rfl rfl, nofun⟩

theorem Revokes.trans (h : Revokes m m') (h' : Revokes m' m'') : Revokes m m'' := by
  obtain ⟨news, logs, only⟩ := h
  obtain ⟨news', logs', only'⟩ := h'
  exact ⟨_, logs.trans logs', fun c hc => (List.mem_append.1 hc).elim (only c) (only' c)⟩

theorem revokes_foldl {α : Type} {step : Model → α → Model} (h : ∀ m a, Revokes m (step m a)) (l : List α) :
    Revokes m (l.foldl step m) := by
  induction l generalizing m with
  | nil => exact .refl m
  | cons a rest ih => exact (h m a).trans ih

theorem Logs.revokes {news : List Change} (h : Logs m m' news)
    (log : m'.log = m.log ∨ ∃ r t, m'.log = ⟨r, .revoke, t⟩ :: m.log) : Revokes m m' := by
  refine ⟨news, h, fun c hc => ?_⟩
  have told := h.log
  rcases log with log | ⟨r, t, log⟩
  · rw [log, List.self_eq_append_left, List.reverse_eq_nil_iff] at told
    cases told ▸ hc
  · rw [log, ← List.singleton_append, List.append_cancel_right_eq, eq_comm, List.reverse_eq_iff,
      List.reverse_singleton] at told
    rw [told, List.mem_singleton] at hc
    rw [hc]

theorem revokes_cut (m : Model) (l : Link) : Revokes m (m.cut l) := by
  obtain ⟨news, logs⟩ := m.logs_removeValue l.1 l.2.1 l.2.2
  refine logs.revokes ?_
  rw [removeValue]
  split
  · exact .inr ⟨_, _, rfl⟩
  · exact .inl rfl

theorem revokes_removeInstance (m : Model) (cls : String) (v : Value) :
    Revokes m (m.removeInstance cls v).1 := by
  obtain ⟨news, logs⟩ := m.logs_removeInstance cls v
  refine logs.revokes ?_
  rw [removeInstance]
  split
  · exact .inr ⟨_, _, rfl⟩
  · exact .inl rfl

theorem Revokes.count (h : Revokes m m') : ∃ news : List Change, m'.log = news.reverse ++ m.log ∧
    (∀ c ∈ news, c.event.direction = .revoke) ∧
    ∀ r t, news.count ⟨r, .revoke, t⟩ + (m'.tuples r).count t = (m.tuples r).count t := by
  obtain ⟨news, logs, only⟩ := h
  refine ⟨news, logs.log, only, fun r t => ?_⟩
  have balanced := logs.leads.count r t
  have none : news.count ⟨r, .insert, t⟩ = 0 :=
    List.count_eq_zero_of_not_mem fun hm => nomatch only _ hm
  rw [count_held, count_held, Change.balance, none] at balanced
  omega

/-- The model without the entry of an object and without its links. -/
def sever (m : Model) (id : UInt64) : Model :=
  let bare := { m with objects := m.objects.erase id }
  let freed := (bare.heldBy (.object id)).foldl cut bare
  (freed.referringTo (.object id)).foldl cut freed

theorem linked_sever (conv : m.Converse) (id : UInt64) (k : Link) : (m.sever id).linked k =
    if k.1 = .object id ∨ k.2.2 = .object id then 0 else m.linked k := by
  have freed := linked_cutAll { m with objects := m.objects.erase id }
    (heldBy { m with objects := m.objects.erase id } (.object id)) k
  rw [count_heldBy] at freed
  have conv' := converse_cutAll (m := { m with objects := m.objects.erase id })
    (conv.of_eq rfl rfl) (heldBy { m with objects := m.objects.erase id } (.object id))
  rw [sever, linked_cutAll, count_referringTo conv']
  by_cases hv : k.2.2 = .object id
  · rw [if_pos hv, if_pos (.inr hv), Nat.sub_self]
  · rw [if_neg hv, Nat.sub_zero, freed]
    by_cases hh : k.1 = .object id
    · rw [if_pos hh, if_pos (.inl hh), Nat.sub_self]
    · rw [if_neg hh, if_neg (not_or.2 ⟨hh, hv⟩)]
      rfl

theorem extents_sever (m : Model) (id : UInt64) : (m.sever id).extents = m.extents ∧
    (m.sever id).objects = m.objects.erase id ∧ (m.sever id).schema = m.schema :=
  ⟨extents_cutAll.1.trans extents_cutAll.1, extents_cutAll.2.1.trans extents_cutAll.2.1,
    extents_cutAll.2.2.trans extents_cutAll.2.2⟩

theorem revokes_sever (m : Model) (id : UInt64) : Revokes m (m.sever id) := by
  have erased : Revokes m { m with objects := m.objects.erase id } :=
    ⟨[], logs_of_eq rfl rfl rfl rfl, nofun⟩
  exact erased.trans ((revokes_foldl revokes_cut _).trans (revokes_foldl revokes_cut _))

theorem removeObject_eq {id : UInt64} {cls : String} (there : m.objects[id]? = some cls) :
    m.removeObject id = ((m.sever id).leaveAll (.object id) (m.schema.supertypesOf cls), true) := by
  rw [← (m.extents_sever id).2.2, removeObject, there]
  simp only [sever, heldBy, referringTo, List.foldl_map]
  rfl

theorem count_tuples_congr {m m' : Model} {t : Tuple}
    (extents : ∀ v c, t = [v] → (v ∈ m'.extent c ↔ v ∈ m.extent c))
    (links : ∀ h v feature, t = [h, v] →
      (m'.valuesOf h feature).count v = (m.valuesOf h feature).count v) (r : Relation) :
    (m'.tuples r).count t = (m.tuples r).count t := by
  by_cases hw : t.length = r.arity
  · cases r with
    | extent c =>
      obtain ⟨v, rfl⟩ := List.length_eq_one_iff.1 hw
      rw [nodup_tuples_extent.count, nodup_tuples_extent.count]
      refine if_congr ?_ rfl rfl
      rw [singleton_mem_extent, singleton_mem_extent, extents v c rfl]
    | feature name =>
      obtain ⟨h, v, rfl⟩ := List.length_eq_two.1 hw
      have := count_featureTuples m' h name v
      rw [links h v name rfl, ← count_featureTuples] at this
      exact this
  · rw [List.count_eq_zero_of_not_mem fun hm => hw (length_of_mem_tuples hm),
      List.count_eq_zero_of_not_mem fun hm => hw (length_of_mem_tuples hm)]

/-- An object that is there is removed. It holds nothing then and is no value of anything, and it is
an instance of those of its classes that are not above its own. All that is not of it stays, and one
revoke is logged for each tuple that went. -/
theorem removeObject_exact (reached : m.Reached) {id : UInt64} {cls : String}
    (there : m.objects[id]? = some cls) :
    let m' := (m.removeObject id).1
    (m.removeObject id).2 = true ∧ m'.contains id = false ∧
    (∀ c, .object id ∈ m'.extent c ↔ .object id ∈ m.extent c ∧ c ∉ m.schema.supertypesOf cls) ∧
    (∀ feature v, v ∉ m'.valuesOf (.object id) feature) ∧
    (∀ h feature, .object id ∉ m'.valuesOf h feature) ∧
    (∀ r t, .object id ∉ t → (m'.tuples r).count t = (m.tuples r).count t) ∧
    ∃ news : List Change, m'.log = news.reverse ++ m.log ∧
      (∀ c ∈ news, c.event.direction = .revoke) ∧
      ∀ r t, news.count ⟨r, .revoke, t⟩ + (m'.tuples r).count t = (m.tuples r).count t := by
  intro m'
  have made : m' = (m.sever id).leaveAll (.object id) (m.schema.supertypesOf cls) :=
    congrArg Prod.fst (removeObject_eq there)
  obtain ⟨extents, objects, -⟩ := m.extents_sever id
  have instances : ∀ v c, v ∈ m'.extent c ↔
      v ∈ m.extent c ∧ ¬(v = .object id ∧ c ∈ m.schema.supertypesOf cls) := by
    intro v c
    rw [made, mem_extent_leaveAll, extent, extents]
    rfl
  have links : ∀ h feature v, (m'.valuesOf h feature).count v =
      if h = .object id ∨ v = .object id then 0 else (m.valuesOf h feature).count v := by
    intro h feature v
    rw [made, valuesOf, slots_leaveAll.1]
    exact linked_sever reached.converse id (h, feature, v)
  refine ⟨by rw [removeObject_eq there], ?_, fun c => ?_, fun feature v => ?_, fun h feature => ?_,
    fun r t ht => count_tuples_congr ?_ ?_ r, ?_⟩
  · rw [made, contains, slots_leaveAll.2, objects, ExtTreeMap.contains_erase]
    simp
  · rw [instances]
    simp
  · rw [← List.count_eq_zero, links, if_pos (.inl rfl)]
  · rw [← List.count_eq_zero, links, if_pos (.inr rfl)]
  · rintro v c rfl
    have other : v ≠ .object id := fun e => ht (e ▸ List.mem_singleton.2 rfl)
    rw [instances]
    simp [other]
  · rintro h v feature rfl
    rw [List.mem_cons, List.mem_singleton, not_or] at ht
    rw [links, if_neg (not_or.2 ⟨Ne.symm ht.1, Ne.symm ht.2⟩)]
  · refine Revokes.count ?_
    rw [made]
    exact (m.revokes_sever id).trans (revokes_foldl (fun m c => m.revokes_removeInstance c _) _)

theorem instance_of_removed :
    let m := (writeAll {} [.create "A", .addInstance "B" (.object 1)]).1
    (m.removeObject 1).2 = true ∧ (m.removeObject 1).1.contains 1 = false ∧
      Value.object 1 ∈ (m.removeObject 1).1.extent "B" := by
  decide +kernel

end Model
end Motif
